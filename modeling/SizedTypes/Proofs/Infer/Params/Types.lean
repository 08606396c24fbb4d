import SizedTypes.Proofs.Infer.Params

/-!
# The parameters of written types

What a written type refers to is around, or belongs to the declaration at hand. So checking it brings
in no parameters but those that it draws. A signature quantifies over parameters that are drawn for
it.
-/

set_option autoImplicit false

namespace SizedTypes.Infer

open Surface (Signature TypeExpr TypeParam)

variable {K K' : Set Int}

/-- All parameters that the check of a written type keeps are among `K`. -/
structure Kinding.ParamsIn (K : Set Int) (k : Kinding) : Prop where
  params : ∀ e ∈ k.params, e.2.id ∈ K
  goals : ∀ g ∈ k.goals, g.prop.ParamsIn K

theorem Kinding.ParamsIn.mono {k : Kinding} (h : k.ParamsIn K) (hK : K ⊆ K') : k.ParamsIn K' :=
  ⟨fun e he => hK (h.params e he), fun g hg => (h.goals g hg).mono hK⟩

theorem Kinding.paramsIn_start (wildcards : Bool) :
    Kinding.ParamsIn K { allowWildcards := wildcards } :=
  ⟨List.forall_mem_nil _, List.forall_mem_nil _⟩

/-- `Draws` for checks of written types. -/
structure KindDraws (K : Set Int) {α : Type} (act : KindInfer α) (P : Set Int → α → Prop) :
    Prop where
  step : ∀ {c : Context} {k k' : Kinding} {s s' : State} {a : α}, KindReturns act c k s a k' s' →
    c.ParamsIn K → k.ParamsIn K → s.ParamsIn K → ∃ n, Drew n s s' ∧
      s'.ParamsIn (K ∪ drawn s.nextTypeVar n) ∧ k'.ParamsIn (K ∪ drawn s.nextTypeVar n) ∧
      P (K ∪ drawn s.nextTypeVar n) a

namespace KindDraws

variable {α β : Type} {P : Set Int → α → Prop} {Q : Set Int → β → Prop}

theorem of_keeps {act : KindInfer α} (h : ∀ {c : Context} {k k' : Kinding} {s s' : State} {a : α},
    KindReturns act c k s a k' s' → c.ParamsIn K → k.ParamsIn K → s.ParamsIn K →
      Drew 0 s s' ∧ s'.ParamsIn K ∧ k'.ParamsIn K ∧ P K a) : KindDraws K act P where
  step ha hc hk hs := by
    obtain ⟨hdrew, hs', hk', hP⟩ := h ha hc hk hs
    exact ⟨0, hdrew, by simpa using hs', by simpa using hk', by simpa using hP⟩

theorem pure {a : α} (h : P K a) : KindDraws K (Pure.pure a) P :=
  .of_keeps fun ha _ hk hs => by
    obtain ⟨rfl, rfl, rfl⟩ := kindReturns_pure.mp ha
    exact ⟨⟨rfl, rfl⟩, hs, hk, h⟩

theorem throw {e : InternalError} : KindDraws K (MonadExcept.throw e : KindInfer α) P :=
  ⟨fun h => absurd h not_kindReturns_throw⟩

theorem lift {act : Infer α} (h : Draws K act P) : KindDraws K (liftM act : KindInfer α) P where
  step ha hc hk hs := by
    obtain ⟨rfl, hact⟩ := kindReturns_lift.mp ha
    obtain ⟨n, hdrew, hs', hP⟩ := h.step hact hc hs
    exact ⟨n, hdrew, hs', hk.mono Set.subset_union_left, hP⟩

theorem bind {act : KindInfer α} {f : α → KindInfer β} (h : KindDraws K act P)
    (h' : ∀ {K'}, K ⊆ K' → ∀ a, P K' a → KindDraws K' (f a) Q) : KindDraws K (act >>= f) Q where
  step {_ _ _ s _ _} hb hc hk hs := by
    obtain ⟨a, k₁, s₁, ha, hb⟩ := kindReturns_bind.mp hb
    obtain ⟨m, hm, hs₁, hk₁, hP⟩ := h.step ha hc hk hs
    have hK : K ⊆ K ∪ drawn s.nextTypeVar m := Set.subset_union_left
    obtain ⟨n, hn, hs', hk', hQ⟩ := (h' hK a hP).step hb (hc.mono hK) hk₁ hs₁
    rw [hm.next, Set.union_assoc, ← drawn_add] at hs' hk' hQ
    exact ⟨m + n, hm.trans hn, hs', hk', hQ⟩

theorem get_bind {f : Kinding → KindInfer β} (h : ∀ k : Kinding, k.ParamsIn K →
    KindDraws K (f k) Q) : KindDraws K (get >>= f) Q where
  step hb hc hk hs := (h _ hk).step (kindReturns_get_bind.mp hb) hc hk hs

theorem getState_bind {f : State → KindInfer β} (h : ∀ s : State, s.ParamsIn K →
    KindDraws K (f s) Q) : KindDraws K (getThe State >>= f) Q where
  step hb hc hk hs := (h _ hs).step (kindReturns_getState_bind.mp hb) hc hk hs

theorem modify {f : Kinding → Kinding} (h : ∀ k : Kinding, k.ParamsIn K → (f k).ParamsIn K) :
    KindDraws K (modify f : KindInfer PUnit) fun _ _ => True :=
  .of_keeps fun ha _ hk hs => by
    obtain ⟨rfl, rfl⟩ := kindReturns_modify.mp ha
    exact ⟨⟨rfl, rfl⟩, hs, h _ hk, trivial⟩

theorem modifyState {f : State → State} (h : ∀ s : State, s.ParamsIn K → (f s).ParamsIn K)
    (hdrew : ∀ s, Drew 0 s (f s)) :
    KindDraws K (modifyThe State f : KindInfer PUnit) fun _ _ => True :=
  .of_keeps fun ha _ hk hs => by
    cases ha
    exact ⟨hdrew _, h _ hs, hk, trivial⟩

theorem located {r : Range} {act : KindInfer α} (h : KindDraws K act P) :
    KindDraws K (Kinding.located r act) P where
  step {c _ _ _ _ _} ha hc hk hs :=
    h.step (c := { c with range := r.orElse c.range }) (kindReturns_located.mp ha) ⟨hc.1, hc.2⟩ hk hs

theorem ite {p : Prop} [Decidable p] {act act' : KindInfer α} (h : KindDraws K act P)
    (h' : KindDraws K act' P) : KindDraws K (if p then act else act') P := by
  split
  · exact h
  · exact h'

theorem mapM {xs : List α} {f : α → KindInfer β}
    (hQ : ∀ {K K'}, K ⊆ K' → ∀ b, Q K b → Q K' b)
    (h : ∀ {K'}, K ⊆ K' → ∀ x ∈ xs, KindDraws K' (f x) Q) :
    KindDraws K (xs.mapM f) fun K' bs => ∀ b ∈ bs, Q K' b := by
  induction xs generalizing K with
  | nil => exact pure (List.forall_mem_nil _)
  | cons x xs ih =>
    rw [List.mapM_cons]
    refine (h le_rfl x (List.mem_cons_self ..)).bind fun hK b hb => ?_
    refine (ih fun hK' y hy => h (hK.trans hK') y (List.mem_cons_of_mem _ hy)).bind
      fun hK' bs hbs => pure ?_
    exact List.forall_mem_cons.mpr ⟨hQ hK' b hb, hbs⟩

/-- A run of a check; what follows uses what it keeps as well. -/
theorem run_bind {act : KindInfer α} {f : α × Kinding → Infer β} {k : Kinding}
    (h : KindDraws K act P) (hk : k.ParamsIn K) (h' : ∀ {K'}, K ⊆ K' → ∀ a k', k'.ParamsIn K' →
      P K' a → Draws K' (f (a, k')) Q) : Draws K (act.run k >>= f) Q :=
  Draws.bind (P := fun K' r => r.2.ParamsIn K' ∧ P K' r.1)
    ⟨fun ha hc hs => by
      obtain ⟨n, hdrew, hs', hk', hP⟩ := h.step ha hc hk hs
      exact ⟨n, hdrew, hs', hk', hP⟩⟩
    fun hK r hr => h' hK r.1 r.2 hr.1 hr.2

end KindDraws

namespace Kinding

theorem draws_declare (ps : List TypeParam) :
    KindDraws K (declare ps) fun K' qs => ∀ q ∈ qs, q.id ∈ K' := by
  refine .mapM (fun hK _ hq => hK hq) fun _ p _ => .getState_bind fun s _ => ?_
  have hrest : ∀ {K' : Set Int}, KindDraws K' (do
      let tp ← freshParam p.kind (some p.name)
      modify fun k => { k with params := k.params.insert p.name.id tp }
      return tp) fun K' q => q.id ∈ K' :=
    (KindDraws.lift (draws_freshParam ..)).bind fun _ _ htp => .bind (.modify fun k hk =>
      { hk with params := Table.forall_mem_insert htp hk.params }) fun hK _ _ => .pure (hK htp)
  dsimp only
  split
  · exact .ite ((KindDraws.lift (draws_recordWarning _)).bind fun _ _ _ => hrest) hrest
  · exact hrest

theorem draws_emit (src : GoalSource) {ps : List Ty} (hps : ∀ p ∈ ps, p.ParamsIn K) :
    KindDraws K (emit src ps) fun _ _ => True := by
  refine (KindDraws.lift draws_currentRange).bind fun hK _ _ => .modify fun k hk =>
    { hk with goals := List.forall_mem_append.mpr ⟨hk.goals, List.forall_mem_map.mpr ?_⟩ }
  exact Ty.ParamsIn.conjunctsList fun p hp => (hps p hp).mono hK

theorem draws_placeholder (hint : Kind) :
    KindDraws K (placeholder hint) fun K' r => r.1.ParamsIn K' :=
  (KindDraws.lift (draws_freshType ..)).bind fun _ _ ht => .pure ht

theorem draws_atKind (k : Kind) {r : Ty × Kind} (hr : r.1.ParamsIn K) :
    KindDraws K (atKind k r) Ty.ParamsIn :=
  .ite ((KindDraws.lift (draws_recordError _)).bind fun _ _ _ => .lift (draws_freshType ..))
    (.pure hr)

theorem paramsIn_sideConditions {f : SizeOp} {args : List Ty} (hargs : ∀ a ∈ args, a.ParamsIn K) :
    ∀ p ∈ sideConditions f args, p.ParamsIn K := by
  unfold sideConditions
  split <;> simp_all [Ty.geq, Ty.neq]

/-! ## Names -/

/-- What a head stands for has its parameters among `K`. -/
def Head.ParamsIn (K : Set Int) : Head → Prop
  | .builtin _ => True
  | .synonym ts => ts.ParamsIn K
  | .newtype nt => nt.ParamsIn K
  | .primitive pt => pt.ParamsIn K

theorem Head.ParamsIn.mono {h : Head} (hh : h.ParamsIn K) (hK : K ⊆ K') : h.ParamsIn K' := by
  cases h with
  | builtin c => trivial
  | synonym ts => exact TypeSynonym.ParamsIn.mono hh hK
  | newtype nt => exact Newtype.ParamsIn.mono hh hK
  | primitive pt => exact PrimType.ParamsIn.mono hh hK

theorem Head.ParamsIn.build {h : Head} (hh : h.ParamsIn K) {args : List Ty}
    (hargs : ∀ a ∈ args, a.ParamsIn K) : (h.build args).ParamsIn K := by
  cases h with
  | builtin c => exact .con hargs
  | synonym ts => exact .synonym hargs (hh.body.instantiate (mem_assignment hargs))
  | newtype nt => exact hh.applied hargs
  | primitive pt => exact .con hargs

theorem Head.ParamsIn.conditions {h : Head} (hh : h.ParamsIn K) {args : List Ty}
    (hargs : ∀ a ∈ args, a.ParamsIn K) : ∀ p ∈ (h.conditions args).2, p.ParamsIn K := by
  have hinst : ∀ {ps : List Param} {t : Ty}, t.ParamsIn K →
      (t.instantiate (Schema.assignment ps args)).ParamsIn K :=
    fun ht => ht.instantiate (mem_assignment hargs)
  cases h with
  | builtin c =>
    cases c with
    | op f => exact paramsIn_sideConditions hargs
    | _ => exact List.forall_mem_nil _
  | synonym ts => exact List.forall_mem_map.mpr fun p hp => hinst (hh.props p hp)
  | newtype nt => exact List.forall_mem_map.mpr fun p hp => hinst (hh.props p hp)
  | primitive pt => exact hh

def Referent.ParamsIn (K : Set Int) : Referent → Prop
  | .param p => p.id ∈ K
  | .head h => h.ParamsIn K
  | .appliedParam => True

/-- What a table of scopes or the environment has is as the tables are. -/
theorem draws_lookup {α : Type} {table : Core.Module → Table Int α}
    {external : External → Table Int α} {P : Set Int → α → Prop} {id : Int}
    (hscopes : ∀ m : Core.Module, m.ParamsIn K → ∀ e ∈ table m, P K e.2)
    (hexternal : ∀ E : External, E.ParamsIn K → ∀ e ∈ external E, P K e.2) :
    Draws K (do
        return Scope.lookup table (external (← read).external) id (← get).scopes : Infer (Option α))
      fun K' r => ∀ a, r = some a → P K' a :=
  .of_keeps fun hr hc hs => by
    rw [returns_read_bind, returns_get_bind, returns_pure] at hr
    obtain ⟨rfl, rfl⟩ := hr
    refine ⟨⟨rfl, rfl⟩, hs, fun a ha => ?_⟩
    rcases Scope.mem_of_lookup ha with hmem | ⟨sc, hsc, hmem⟩
    · exact hexternal _ hc.external _ hmem
    · exact hscopes _ (hs.scopes sc hsc) _ hmem

theorem draws_lookupParamType (id : Int) :
    Draws K (lookupParamType id) fun K' r => ∀ p, r = some p → p.param.id ∈ K' :=
  .get_bind fun s hs => .pure fun p hp => by
    rcases Scope.mem_of_lookup hp with hmem | ⟨sc, hsc, hmem⟩
    · cases hmem
    · exact (hs.scopes sc hsc).paramTypes _ hmem

theorem draws_resolve (n : Name) (arity : Nat) (hint : Kind) :
    KindDraws K (resolve n arity hint) Referent.ParamsIn := by
  refine .get_bind fun k hk => ?_
  split
  · rename_i p hfind
    have hp : p.id ∈ K := hk.params _ (Table.mem_of_find? hfind)
    refine .ite (.pure trivial) (.bind (.modify fun k hk =>
      { hk with params := Table.forall_mem_insert hp hk.params }) fun hK _ _ => .pure (hK hp))
  · refine .getState_bind fun s hs => ?_
    refine (KindDraws.lift (draws_lookupParamType _)).bind fun hK mp hmp => ?_
    have houter : ∀ p, s.typeVars.find? n.id = some p → p.id ∈ K :=
      fun p hp => hs.typeVars _ (Table.mem_of_find? hp)
    dsimp only
    split
    · rename_i p hp
      refine .pure ?_
      split at hp
      · rcases Option.or_eq_some_iff.mp hp with hp | ⟨-, hp⟩
        · exact hK (houter p hp)
        · obtain ⟨q, hq, rfl⟩ := Option.map_eq_some_iff.mp hp
          exact hmp q hq
      · cases hp
    · refine (KindDraws.lift (draws_lookup (fun _ h => h.synonyms) fun _ h => h.synonyms)).bind
        fun hK ts hts => ?_
      split
      · exact .pure (hts _ rfl)
      · refine (KindDraws.lift (draws_lookup (fun _ h => h.newtypes) fun _ h => h.newtypes)).bind
          fun hK nt hnt => ?_
        split
        · exact .pure (hnt _ rfl)
        · refine (KindDraws.lift (draws_lookup (fun _ h => h.primTypes) fun _ h => h.primTypes)).bind
            fun hK pt hpt => ?_
          split
          · exact .pure (hpt _ rfl)
          · exact .throw

theorem draws_existential (ident : String) (k : Kind) :
    KindDraws K (existential ident k) Ty.ParamsIn := by
  refine .getState_bind fun s hs => ?_
  split
  · exact (KindDraws.lift (draws_recordError _)).bind fun _ _ _ => .lift (draws_freshType ..)
  · rename_i innermost outer hscopes
    have hold := hs.existentials
    rw [hscopes] at hold
    split
    · rename_i t hfound
      obtain ⟨scope, hscope, hlookup⟩ := List.exists_of_findSome?_eq_some hfound
      obtain ⟨before, after, rfl, -⟩ := List.lookup_eq_some_iff.mp hlookup
      exact .pure (hold _ hscope (ident, t) (by simp))
    · obtain ⟨hinner, houter⟩ := List.forall_mem_cons.mp hold
      have hnew : ∀ {K' : Set Int}, K ⊆ K' → KindDraws K' (do
          let t ← freshType k (.existential ident)
          modifyThe State fun s => { s with existentials := ((ident, t) :: innermost) :: outer }
          return t) Ty.ParamsIn := by
        refine fun hK => (KindDraws.lift (draws_freshType ..)).bind fun hK₁ t ht => ?_
        refine .bind (.modifyState (fun s hs => { hs with existentials := ?_ }) fun _ => ⟨rfl, rfl⟩)
          fun hK₂ _ _ => .pure (ht.mono hK₂)
        have hmono : ∀ scope ∈ innermost :: outer, ∀ e ∈ scope, e.2.ParamsIn _ :=
          fun scope hscope e he => (hold scope hscope e he).mono (hK.trans hK₁)
        obtain ⟨hinner, houter⟩ := List.forall_mem_cons.mp hmono
        exact List.forall_mem_cons.mpr ⟨List.forall_mem_cons.mpr ⟨ht, hinner⟩, houter⟩
      split
      · exact (KindDraws.lift (draws_recordWarning _)).bind fun hK _ _ => hnew hK
      · exact hnew le_rfl

/-! ## Types -/

mutual
theorem draws_infer {K : Set Int} : ∀ (t : TypeExpr) (hint : Kind),
    KindDraws K (infer t hint) fun K' r => r.1.ParamsIn K'
  | .located r t, hint => by
    rw [infer]
    exact (draws_infer t hint).located
  | .bit, _ => by
    rw [infer]
    exact .pure Ty.paramsIn_bit
  | .num n, _ | .char n, _ => by
    rw [infer]
    exact .pure (Ty.paramsIn_num n)
  | .seq len elem, _ => by
    rw [infer]
    refine (draws_infer len _).bind fun hK r hr => (draws_atKind _ hr).bind fun hK₁ n hn =>
      (draws_infer elem _).bind fun hK₂ r hr => (draws_atKind _ hr).bind fun hK₃ a ha => .pure ?_
    exact Ty.paramsIn_seq.mpr ⟨hn.mono (hK₂.trans hK₃), ha⟩
  | .arrow a b, _ => by
    rw [infer]
    refine (draws_infer a _).bind fun hK r hr => (draws_atKind _ hr).bind fun hK₁ u hu =>
      (draws_infer b _).bind fun hK₂ r hr => (draws_atKind _ hr).bind fun hK₃ v hv => .pure ?_
    exact Ty.paramsIn_arrow.mpr ⟨hu.mono (hK₂.trans hK₃), hv⟩
  | .tuple ts, _ => by
    rw [infer]
    exact (draws_checkEach ts).bind fun _ _ hts => .pure (Ty.paramsIn_tuple.mpr hts)
  | .record fs, _ => by
    rw [infer]
    refine (draws_checkFields fs).bind fun _ _ hfs => .pure (Ty.paramsIn_record.mpr ?_)
    exact fun f hf => hfs f (Table.mem_ofList hf)
  | .wildcard, hint => by
    have hfresh : ∀ {K' : Set Int}, KindDraws K' (do
        return (← freshType (hint.orElse .type) .wildcard, hint.orElse .type) :
          KindInfer (Ty × Kind)) fun K' r => r.1.ParamsIn K' :=
      (KindDraws.lift (draws_freshType ..)).bind fun _ _ ht => .pure ht
    rw [infer]
    refine .get_bind fun k _ => .ite ?_ hfresh
    exact (KindDraws.lift (draws_recordError _)).bind fun _ _ _ => hfresh
  | .existential ident, hint => by
    rw [infer]
    exact (draws_existential ..).bind fun _ _ ht => .pure ht
  | .builtin c args, hint => by
    rw [infer]
    refine .ite ((KindDraws.lift (draws_recordError _)).bind fun _ _ _ => draws_placeholder _) ?_
    refine (draws_checkArgs c.kind args).bind fun {K'} _ r hargs => ?_
    have hbuiltin : Head.ParamsIn K' (.builtin c) := trivial
    exact (draws_emit _ (hbuiltin.conditions hargs)).bind fun hK _ _ =>
      .pure (.con fun a ha => (hargs a ha).mono hK)
  | .named n args, hint => by
    rw [infer]
    refine (draws_resolve n args.length hint).bind fun _ ref href => ?_
    split
    · exact .pure (Ty.paramsIn_bound.mpr href)
    · exact (KindDraws.lift (draws_recordError _)).bind fun _ _ _ => draws_placeholder _
    · rename_i h
      refine .ite ((KindDraws.lift (draws_recordError _)).bind fun _ _ _ => draws_placeholder _) ?_
      refine (draws_checkArgs h.kind args).bind fun hK r hargs => ?_
      have hh : h.ParamsIn _ := Head.ParamsIn.mono href hK
      exact (draws_emit _ (hh.conditions hargs)).bind fun hK' _ _ =>
        .pure ((hh.build hargs).mono hK')

theorem draws_checkEach {K : Set Int} : ∀ ts : List TypeExpr,
    KindDraws K (checkEach ts) fun K' us => ∀ u ∈ us, u.ParamsIn K'
  | [] => by
    rw [checkEach]
    exact .pure (List.forall_mem_nil _)
  | t :: ts => by
    rw [checkEach]
    refine (draws_infer t _).bind fun _ r hr => (draws_atKind _ hr).bind fun _ u hu =>
      (draws_checkEach ts).bind fun hK us hus => .pure ?_
    exact List.forall_mem_cons.mpr ⟨hu.mono hK, hus⟩

theorem draws_checkFields {K : Set Int} : ∀ fs : List (String × TypeExpr),
    KindDraws K (checkFields fs) fun K' gs => ∀ g ∈ gs, g.2.ParamsIn K'
  | [] => by
    rw [checkFields]
    exact .pure (List.forall_mem_nil _)
  | (l, t) :: fs => by
    rw [checkFields]
    refine (draws_infer t _).bind fun _ r hr => (draws_atKind _ hr).bind fun _ u hu =>
      (draws_checkFields fs).bind fun hK gs hgs => .pure ?_
    exact List.forall_mem_cons.mpr ⟨hu.mono hK, hgs⟩

theorem draws_checkArgs {K : Set Int} : ∀ (k : Kind) (ts : List TypeExpr),
    KindDraws K (checkArgs k ts) fun K' r => ∀ u ∈ r.1, u.ParamsIn K'
  | k, [] => by
    rw [checkArgs]
    exact .pure (List.forall_mem_nil _)
  | .arrow dom cod, t :: ts => by
    rw [checkArgs]
    refine (draws_infer t _).bind fun _ r hr => (draws_atKind _ hr).bind fun _ u hu =>
      (draws_checkArgs cod ts).bind fun hK r hus => .pure ?_
    exact List.forall_mem_cons.mpr ⟨hu.mono hK, hus⟩
  | .type, _ :: _ | .num, _ :: _ | .prop, _ :: _ | .unknown, _ :: _ => by
    simp only [checkArgs]
    exact .pure (List.forall_mem_nil _)
end

theorem draws_check (t : TypeExpr) (k : Kind) : KindDraws K (check t k) Ty.ParamsIn :=
  (draws_infer t k).bind fun _ _ hr => draws_atKind k hr

theorem draws_checkProps {K : Set Int} : ∀ ts : List TypeExpr,
    KindDraws K (checkProps ts) fun K' ps => ∀ p ∈ ps, p.ParamsIn K'
  | [] => .pure (List.forall_mem_nil _)
  | t :: ts => by
    refine (draws_check t .prop).bind fun _ p hp => (draws_checkProps ts).bind fun hK ps hps =>
      .pure (List.forall_mem_append.mpr ⟨fun q hq => ?_, hps⟩)
    exact (Simplify.conjuncts_inherit Ty.inherited_paramsIn hp q hq).mono hK

/-! ## The end of a check -/

theorem mem_settle {k : Kinding} {ps : List Param} (hps : ∀ p ∈ ps, p.id ∈ K) :
    ∀ p ∈ k.settle ps, p.id ∈ K := List.forall_mem_map.mpr hps

theorem paramsIn_settleTy {ps : List Param} (hps : ∀ p ∈ ps, p.id ∈ K) {t : Ty}
    (ht : t.ParamsIn K) : (settleTy ps t).ParamsIn K := by
  refine ht.bind (fun v => .free) (fun p hp => .bound ?_) le_rfl
  cases hfind : ps.find? fun q => q.id == p.id with
  | none => exact hp
  | some q => exact hps q (List.mem_of_find?_eq_some hfind)

end Kinding

theorem draws_checkType (t : TypeExpr) (k : Kind) : Draws K (checkType t k) Ty.ParamsIn := by
  refine (Kinding.draws_check t k).run_bind (Kinding.paramsIn_start _) fun _ u k' hk' hu => ?_
  refine (draws_store fun g hg => ?_).bind fun hK _ _ => .pure (hu.mono hK)
  obtain ⟨e, he, rfl⟩ := List.mem_map.mp hg
  exact hk'.goals e he

theorem draws_checkSignature (sig : Signature) :
    Draws K (checkSignature sig) Schema.ParamsIn := by
  refine .withRange ?_
  refine (Kinding.draws_declare _).run_bind (Kinding.paramsIn_start _) fun _ ps k₁ hk₁ hps => ?_
  refine (Kinding.draws_checkProps _).run_bind hk₁ fun hK₂ props k₂ hk₂ hprops => ?_
  refine (Kinding.draws_check ..).run_bind hk₂ fun hK₃ body k₃ hk₃ hbody => .pure ?_
  have hps : ∀ p ∈ k₃.settle ps, p.id ∈ _ := Kinding.mem_settle fun p hp => hK₃ (hK₂ (hps p hp))
  have hall : ∀ p ∈ props ++ k₃.goals.map Goal.prop, p.ParamsIn _ := List.forall_mem_append.mpr
    ⟨fun p hp => (hprops p hp).mono hK₃, List.forall_mem_map.mpr hk₃.goals⟩
  exact ⟨hps, List.forall_mem_map.mpr fun p hp => Kinding.paramsIn_settleTy hps (hall p hp),
    Kinding.paramsIn_settleTy hps hbody⟩

end SizedTypes.Infer
