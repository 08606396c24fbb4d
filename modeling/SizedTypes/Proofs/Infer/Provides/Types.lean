import SizedTypes.Proofs.Infer.InForce.Recursion
import SizedTypes.Proofs.Infer.Provides

/-!
# Written types find their names

A name in a written type is a parameter of the declaration at hand, a type parameter in scope, or a
declared type. A signature declares its own parameters.
-/

set_option autoImplicit false

namespace SizedTypes

/-- What a scope or the external table has is found. -/
theorem Scope.isSome_lookup {α : Type} {table : Core.Module → Table Int α} {external : Table Int α}
    {id : Int} {scopes : List Scope}
    (h : (∃ sc ∈ scopes, ((table sc.content).find? id).isSome) ∨ (external.find? id).isSome) :
    (Scope.lookup table external id scopes).isSome := by
  induction scopes with
  | nil => simpa [Scope.lookup] using h
  | cons sc scopes ih =>
    rw [Scope.lookup]
    split
    · rfl
    · rename_i hnone
      refine ih (h.imp_left ?_)
      rintro ⟨sc', hsc', hfound⟩
      obtain rfl | hmem := List.mem_cons.mp hsc'
      · rw [hnone] at hfound
        cases hfound
      · exact ⟨sc', hmem, hfound⟩

namespace Infer

open Surface (Signature TypeExpr TypeParam Visible paramIds typeFieldsInScope typesInScope)

variable {c : Context} {s s' : State} {v w : Visible} {own : List Int}

/-! ## Looking up types -/

/-- A scope or the external table declares a type with this id. -/
def State.FindsType (s : State) (E : External) (id : Int) : Prop :=
  (Scope.lookup Core.Module.synonyms E.synonyms id s.scopes).isSome ∨
    (Scope.lookup Core.Module.newtypes E.newtypes id s.scopes).isSome ∨
    (Scope.lookup Core.Module.primTypes E.primTypes id s.scopes).isSome

/-- The id is that of a type parameter, of a signature or of a module. -/
def State.FindsParam (s : State) (id : Int) : Prop :=
  (s.typeVars.find? id).isSome ∨ (Scope.lookup Core.Module.paramTypes [] id s.scopes).isSome

namespace Provides

theorem finds_type (h : Provides v c s) {id : Int} (hid : v.type id = true) :
    s.FindsType c.external id := by
  simp only [Visible.type, Bool.or_eq_true, List.contains_iff_mem, ← h.external] at hid
  rcases hid with ((hid | hid) | hid) | hid
  · obtain ⟨sc, hsc, hfound⟩ := h.types id hid
    exact hfound.imp (fun hfound => Scope.isSome_lookup (Or.inl ⟨sc, hsc, hfound⟩)) (Or.imp
      (fun hfound => Scope.isSome_lookup (Or.inl ⟨sc, hsc, hfound⟩))
      (fun hfound => Scope.isSome_lookup (Or.inl ⟨sc, hsc, hfound⟩)))
  · exact Or.inl (Scope.isSome_lookup (Or.inr hid))
  · exact Or.inr (Or.inl (Scope.isSome_lookup (Or.inr hid)))
  · exact Or.inr (Or.inr (Scope.isSome_lookup (Or.inr hid)))

theorem finds_param (h : Provides v c s) {id : Int} (hid : v.param id = true) :
    s.FindsParam id := by
  simp only [Visible.param, Bool.or_eq_true, List.contains_iff_mem] at hid
  exact hid.imp (h.typeVars id) fun hid => Scope.isSome_lookup (Or.inl (h.moduleParams id hid))

end Provides

/-! ## Checks of written types -/

/-- The parameters of the declaration at hand are among those of the check. -/
def Kinding.Declares (own : List Int) (k : Kinding) : Prop :=
  ∀ id ∈ own, (k.params.find? id).isSome

theorem Kinding.Declares.insert {k : Kinding} (h : k.Declares own) (id : Int) (p : Param) :
    Kinding.Declares (id :: own) { k with params := k.params.insert id p } := by
  intro id' hid'
  show (Table.find? id' (k.params.insert id p)).isSome
  rw [Table.find?_insert]
  split
  · rfl
  · rename_i hne
    exact h id' ((List.mem_cons.mp hid').resolve_left hne)

/-- A check of a written type ends with an internal error. -/
def KindFails {α : Type} (act : KindInfer α) (c : Context) (k : Kinding) (s : State)
    (e : InternalError) : Prop := Fails (act.run k) c s e

theorem kindFails_bind {α β : Type} {act : KindInfer α} {f : α → KindInfer β} {k : Kinding}
    {e : InternalError} : KindFails (act >>= f) c k s e ↔ KindFails act c k s e ∨
      ∃ a k₁ s₁, KindReturns act c k s a k₁ s₁ ∧ KindFails (f a) c k₁ s₁ e := by
  simp [KindFails, KindReturns]

theorem kindFails_get_bind {α : Type} {f : Kinding → KindInfer α} {k : Kinding} {e : InternalError} :
    KindFails (get >>= f) c k s e ↔ KindFails (f k) c k s e := Iff.rfl

/-- From a state that provides `v`, the check of a written type in a declaration with the parameters
`own` finds every name. -/
structure KindResolves (v : Visible) (own : List Int) {α : Type} (act : KindInfer α) : Prop where
  bound : ∀ {c : Context} {k : Kinding} {s : State} {e : InternalError}, Provides v c s →
    k.Declares own → KindFails act c k s e → e.isUnbound = false
  provides : ∀ {c : Context} {k k' : Kinding} {s s' : State} {a : α}, Provides v c s →
    k.Declares own → KindReturns act c k s a k' s' → Provides v c s' ∧ k'.Declares own

namespace KindResolves

variable {α β : Type} {act : KindInfer α}

theorem pure (a : α) : KindResolves v own (Pure.pure a : KindInfer α) where
  bound _ _ he := by cases he
  provides hs hk ha := by
    obtain ⟨-, rfl, rfl⟩ := kindReturns_pure.mp ha
    exact ⟨hs, hk⟩

theorem lift {act : Infer α} (h : Resolves v act v) :
    KindResolves v own (liftM act : KindInfer α) where
  bound hs _ he := by
    rcases fails_bind.mp he with he | ⟨a, s₁, -, he⟩
    · exact h.bound hs he
    · cases he
  provides hs hk hact := by
    obtain ⟨rfl, ha⟩ := kindReturns_lift.mp hact
    exact ⟨h.provides hs ha, hk⟩

theorem bind {f : α → KindInfer β} (h : KindResolves v own act)
    (h' : ∀ a, KindResolves v own (f a)) : KindResolves v own (act >>= f) where
  bound hs hk he := by
    rcases kindFails_bind.mp he with he | ⟨a, k₁, s₁, ha, he⟩
    · exact h.bound hs hk he
    · obtain ⟨hs₁, hk₁⟩ := h.provides hs hk ha
      exact (h' a).bound hs₁ hk₁ he
  provides hs hk hb := by
    obtain ⟨a, k₁, s₁, ha, hb⟩ := kindReturns_bind.mp hb
    obtain ⟨hs₁, hk₁⟩ := h.provides hs hk ha
    exact (h' a).provides hs₁ hk₁ hb

theorem get_bind {f : Kinding → KindInfer β}
    (h : ∀ {k : Kinding}, k.Declares own → KindResolves v own (f k)) :
    KindResolves v own (get >>= f) where
  bound hs hk he := (h hk).bound hs hk he
  provides hs hk ha := (h hk).provides hs hk ha

theorem getState_bind {f : State → KindInfer β}
    (h : ∀ {c : Context} {s : State}, Provides v c s → KindResolves v own (f s)) :
    KindResolves v own (getThe State >>= f) where
  bound hs hk he := (h hs).bound hs hk he
  provides hs hk ha := (h hs).provides hs hk ha

theorem modify {f : Kinding → Kinding} (h : ∀ {k : Kinding}, k.Declares own →
    (f k).Declares own) : KindResolves v own (modify f : KindInfer PUnit) where
  bound _ _ he := by cases he
  provides hs hk ha := by
    obtain ⟨rfl, rfl⟩ := kindReturns_modify.mp ha
    exact ⟨hs, h hk⟩

theorem modifyState {f : State → State} (h : ∀ {c : Context} {s : State}, Provides v c s →
    Provides v c (f s)) : KindResolves v own (modifyThe State f : KindInfer PUnit) where
  bound _ _ he := by cases he
  provides hs hk ha := by
    cases ha
    exact ⟨h hs, hk⟩

theorem located {r : Range} (h : KindResolves v own act) :
    KindResolves v own (Kinding.located r act) where
  bound hs hk he := h.bound (hs.located r) hk he
  provides hs hk ha := by
    obtain ⟨hs', hk'⟩ := h.provides (hs.located r) hk (kindReturns_located.mp ha)
    exact ⟨{ hs' with }, hk'⟩

theorem ite {p : Prop} [Decidable p] {act' : KindInfer α} (h : KindResolves v own act)
    (h' : KindResolves v own act') : KindResolves v own (if p then act else act') := by
  split
  · exact h
  · exact h'

/-- A run of a check; what follows may use that it has kept the parameters. -/
theorem run_bind {f : α × Kinding → Infer β} {k : Kinding} (h : KindResolves v own act)
    (hk : k.Declares own) (h' : ∀ a k', k'.Declares own → Resolves v (f (a, k')) w) :
    Resolves v (act.run k >>= f) w where
  bound hs he := by
    rcases fails_bind.mp he with he | ⟨⟨a, k'⟩, s₁, ha, he⟩
    · exact h.bound hs hk he
    · obtain ⟨hs₁, hk'⟩ := h.provides hs hk ha
      exact (h' a k' hk').bound hs₁ he
  provides hs hb := by
    obtain ⟨⟨a, k'⟩, s₁, ha, hb⟩ := returns_bind.mp hb
    obtain ⟨hs₁, hk'⟩ := h.provides hs hk ha
    exact (h' a k' hk').provides hs₁ hb

end KindResolves

namespace Kinding

theorem resolves_emit (src : GoalSource) (ps : List Ty) : KindResolves v own (emit src ps) :=
  (KindResolves.lift <| (nameless_currentRange.resolves respects_currentRange fun _ =>
    steady_currentRange.follows)).bind fun _ => .modify fun hk => hk

theorem resolves_placeholder (kd : Kind) : KindResolves v own (placeholder kd) :=
  (KindResolves.lift (resolves_freshType ..)).bind fun _ => .pure _

theorem resolves_atKind (kd : Kind) (r : Ty × Kind) : KindResolves v own (atKind kd r) :=
  .ite ((KindResolves.lift (resolves_recordError _)).bind fun _ => .lift (resolves_freshType ..))
    (.pure _)

theorem resolves_existential (ident : String) (kd : Kind) :
    KindResolves v own (existential ident kd) := by
  have hnew : ∀ innermost outer, KindResolves v own (do
      let t ← freshType kd (.existential ident)
      modifyThe State fun s => { s with existentials := ((ident, t) :: innermost) :: outer }
      return t) := by
    intro innermost outer
    refine (KindResolves.lift (resolves_freshType ..)).bind fun t =>
      .bind (.modifyState fun hs => ?_) fun _ => .pure _
    exact { hs with }
  refine .getState_bind fun {_ s} _ => ?_
  split
  · exact (KindResolves.lift (resolves_recordError _)).bind fun _ => .lift (resolves_freshType ..)
  · split
    · exact .pure _
    · split
      · exact (KindResolves.lift (resolves_recordWarning _)).bind fun _ => hnew _ _
      · exact hnew _ _

/-- What a name refers to that is no parameter of the declaration at hand: what the tables and scopes
of the run have. -/
def outerReferent (c : Context) (s : State) (n : Name) (arity : Nat) : KindInfer Referent :=
  match if arity = 0 then (s.typeVars.find? n.id).or
      ((Scope.lookup Core.Module.paramTypes [] n.id s.scopes).map ModuleParam.param) else none with
  | some p => return .param p
  | none => match Scope.lookup Core.Module.synonyms c.external.synonyms n.id s.scopes with
    | some ts => return .head (.synonym ts)
    | none => match Scope.lookup Core.Module.newtypes c.external.newtypes n.id s.scopes with
      | some nt => return .head (.newtype nt)
      | none => match Scope.lookup Core.Module.primTypes c.external.primTypes n.id s.scopes with
        | some pt => return .head (.primitive pt)
        | none => throw (InternalError.unboundType n)

theorem exec_resolve {n : Name} {arity : Nat} {kd : Kind} {k : Kinding}
    (h : k.params.find? n.id = none) :
    ((resolve n arity kd).run k).exec c s = ((outerReferent c s n arity).run k).exec c s := by
  have hget : ∀ f : Kinding → KindInfer Referent,
      ((get >>= f).run k).exec c s = ((f k).run k).exec c s := fun _ => rfl
  have hlookup : ∀ {α : Type} (g : Context → State → α) (f : α → KindInfer Referent),
      ((liftM (do return g (← read) (← get) : Infer α) >>= f).run k).exec c s =
        ((f (g c s)).run k).exec c s := fun _ _ => rfl
  rw [resolve, hget, h, outerReferent]
  refine (hlookup (fun _ s => s) _).trans ((hlookup (fun _ s => Scope.lookup _ [] n.id s.scopes)
    _).trans ?_)
  dsimp only
  cases (if arity = 0 then _ else none : Option Param) with
  | some p => rfl
  | none =>
    refine (hlookup (fun c s => Scope.lookup _ c.external.synonyms n.id s.scopes) _).trans ?_
    cases Scope.lookup Core.Module.synonyms c.external.synonyms n.id s.scopes with
    | some ts => rfl
    | none =>
      refine (hlookup (fun c s => Scope.lookup _ c.external.newtypes n.id s.scopes) _).trans ?_
      cases Scope.lookup Core.Module.newtypes c.external.newtypes n.id s.scopes with
      | some nt => rfl
      | none =>
        refine (hlookup (fun c s => Scope.lookup _ c.external.primTypes n.id s.scopes) _).trans ?_
        cases Scope.lookup Core.Module.primTypes c.external.primTypes n.id s.scopes with
        | some pt => rfl
        | none => rfl

theorem kindReturns_outerReferent {n : Name} {arity : Nat} {k k' : Kinding} {r : Referent}
    (h : KindReturns (outerReferent c s n arity) c k s r k' s') : k' = k := by
  unfold outerReferent at h
  repeat' split at h
  all_goals first
    | exact (kindReturns_pure.mp h).2.1
    | exact absurd h not_kindReturns_throw

theorem kindFails_outerReferent {n : Name} {arity : Nat} {k : Kinding} {e : InternalError}
    (hn : (arity = 0 ∧ s.FindsParam n.id) ∨ s.FindsType c.external n.id) :
    ¬KindFails (outerReferent c s n arity) c k s e := by
  intro h
  unfold outerReferent at h
  split at h
  · cases h
  · rename_i hvars
    split at h
    · cases h
    · rename_i hsynonyms
      split at h
      · cases h
      · rename_i hnewtypes
        split at h
        · cases h
        · rename_i hprimTypes
          rcases hn with ⟨rfl, hparam⟩ | htype
          · rw [if_pos rfl, Option.or_eq_none_iff, Option.map_eq_none_iff] at hvars
            simp [State.FindsParam, hvars] at hparam
          · simp [State.FindsType, hsynonyms, hnewtypes, hprimTypes] at htype

theorem resolves_resolve {n : Name} {arity : Nat} (kd : Kind)
    (h : own.contains n.id = true ∨ (arity = 0 ∧ v.param n.id = true) ∨ v.type n.id = true) :
    KindResolves v own (resolve n arity kd) where
  bound {c k s e} hs hk he := by
    cases hparams : k.params.find? n.id with
    | some p =>
      unfold resolve at he
      rw [kindFails_get_bind, hparams] at he
      dsimp only at he
      split at he <;> cases he
    | none =>
      have hown : n.id ∉ own := fun hmem => by simpa [hparams] using hk n.id hmem
      have hfound := (h.resolve_left (mt List.contains_iff_mem.mp hown)).imp
        (And.imp_right hs.finds_param) hs.finds_type
      refine absurd ?_ (kindFails_outerReferent (e := e) (k := k) hfound)
      exact (congrArg Prod.fst (exec_resolve hparams)).symm.trans he
  provides {c k k' s s' r} hs hk ha := by
    have hlive : s'.cancelled = false :=
      hs.uncancelled_after
        (fun _ => (steady_kindInfer (fun _ => ignores_resolve n arity kd) k).follows) ha
    refine ⟨hs.of_sameScope ((respects_resolve n arity kd).step ha) hlive, ?_⟩
    cases hparams : k.params.find? n.id with
    | some p =>
      unfold resolve at ha
      rw [kindReturns_get_bind, hparams] at ha
      dsimp only at ha
      split at ha
      · exact (kindReturns_pure.mp ha).2.1 ▸ hk
      · obtain ⟨⟨⟩, k₁, s₁, hinsert, ha⟩ := kindReturns_bind.mp ha
        obtain ⟨rfl, -⟩ := kindReturns_modify.mp hinsert
        obtain ⟨-, rfl, -⟩ := kindReturns_pure.mp ha
        exact fun id hid => hk.insert n.id _ id (List.mem_cons_of_mem _ hid)
    | none =>
      have houter : KindReturns (outerReferent c s n arity) c k s r k' s' :=
        (exec_resolve hparams).symm.trans ha
      exact kindReturns_outerReferent houter ▸ hk

mutual
theorem resolves_infer : ∀ (t : TypeExpr) (hint : Kind), t.inScope v own = true →
    KindResolves v own (infer t hint)
  | .located r t, hint, ht => by
    rw [infer]
    exact .located (resolves_infer t hint ht)
  | .bit, _, _ | .num _, _, _ | .char _, _, _ => by
    rw [infer]
    exact .pure _
  | .seq len elem, _, ht => by
    rw [TypeExpr.inScope, Bool.and_eq_true] at ht
    rw [infer]
    exact (resolves_infer len _ ht.1).bind fun _ => (resolves_atKind ..).bind fun _ =>
      (resolves_infer elem _ ht.2).bind fun _ => (resolves_atKind ..).bind fun _ => .pure _
  | .arrow a b, _, ht => by
    rw [TypeExpr.inScope, Bool.and_eq_true] at ht
    rw [infer]
    exact (resolves_infer a _ ht.1).bind fun _ => (resolves_atKind ..).bind fun _ =>
      (resolves_infer b _ ht.2).bind fun _ => (resolves_atKind ..).bind fun _ => .pure _
  | .tuple ts, _, ht => by
    rw [infer]
    exact (resolves_checkEach ts ht).bind fun _ => .pure _
  | .record fs, _, ht => by
    rw [infer]
    exact (resolves_checkFields fs ht).bind fun _ => .pure _
  | .wildcard, hint, _ => by
    have hfresh : KindResolves v own (do
        return (← freshType (hint.orElse .type) .wildcard, hint.orElse .type) :
          KindInfer (Ty × Kind)) :=
      (KindResolves.lift (resolves_freshType ..)).bind fun _ => .pure _
    rw [infer]
    refine .get_bind fun _ => .ite ?_ hfresh
    exact (KindResolves.lift (resolves_recordError _)).bind fun _ => hfresh
  | .existential ident, hint, _ => by
    rw [infer]
    exact (resolves_existential ..).bind fun _ => .pure _
  | .builtin c args, hint, ht => by
    rw [infer]
    refine .ite ?_ ?_
    · exact (KindResolves.lift (resolves_recordError _)).bind fun _ => resolves_placeholder _
    · exact (resolves_checkArgs args _ ht).bind fun _ => (resolves_emit ..).bind fun _ => .pure _
  | .named n args, hint, ht => by
    rw [TypeExpr.inScope, Bool.and_eq_true] at ht
    rw [infer]
    refine (resolves_resolve hint (by simpa [or_assoc] using ht.1)).bind fun r => ?_
    split
    · exact .pure _
    · exact (KindResolves.lift (resolves_recordError _)).bind fun _ => resolves_placeholder _
    · refine .ite ?_ ?_
      · exact (KindResolves.lift (resolves_recordError _)).bind fun _ => resolves_placeholder _
      · exact (resolves_checkArgs args _ ht.2).bind fun _ => (resolves_emit ..).bind fun _ => .pure _

theorem resolves_checkEach : ∀ ts : List TypeExpr, typesInScope v own ts = true →
    KindResolves v own (Kinding.checkEach ts)
  | [], _ => by
    rw [Kinding.checkEach]
    exact .pure _
  | t :: ts, ht => by
    rw [typesInScope, Bool.and_eq_true] at ht
    rw [Kinding.checkEach]
    exact (resolves_infer t _ ht.1).bind fun _ => (resolves_atKind ..).bind fun _ =>
      (resolves_checkEach ts ht.2).bind fun _ => .pure _

theorem resolves_checkFields : ∀ fs : List (String × TypeExpr),
    typeFieldsInScope v own fs = true → KindResolves v own (checkFields fs)
  | [], _ => by
    rw [checkFields]
    exact .pure _
  | (l, t) :: fs, ht => by
    rw [typeFieldsInScope, Bool.and_eq_true] at ht
    rw [checkFields]
    exact (resolves_infer t _ ht.1).bind fun _ => (resolves_atKind ..).bind fun _ =>
      (resolves_checkFields fs ht.2).bind fun _ => .pure _

theorem resolves_checkArgs : ∀ (ts : List TypeExpr) (kd : Kind), typesInScope v own ts = true →
    KindResolves v own (checkArgs kd ts)
  | [], kd, _ => by
    rw [checkArgs]
    exact .pure _
  | t :: ts, .arrow dom cod, ht => by
    rw [typesInScope, Bool.and_eq_true] at ht
    rw [checkArgs]
    exact (resolves_infer t _ ht.1).bind fun _ => (resolves_atKind ..).bind fun _ =>
      (resolves_checkArgs ts cod ht.2).bind fun _ => .pure _
  | _ :: _, .type, _ | _ :: _, .num, _ | _ :: _, .prop, _ | _ :: _, .unknown, _ => by
    rw [checkArgs]
    · exact .pure _
    · simp
end

theorem resolves_check {t : TypeExpr} (kd : Kind) (h : t.inScope v own = true) :
    KindResolves v own (check t kd) :=
  (resolves_infer t kd h).bind fun _ => resolves_atKind ..

theorem resolves_checkProps {ts : List TypeExpr} (h : typesInScope v own ts = true) :
    KindResolves v own (checkProps ts) := by
  induction ts with
  | nil => exact .pure _
  | cons t ts ih =>
    rw [typesInScope, Bool.and_eq_true] at h
    exact (resolves_check _ h.1).bind fun _ => (ih h.2).bind fun _ => .pure _

/-- The parameters of a declaration are declared under their names. -/
theorem declares_declare {ps : List TypeParam} {k k' : Kinding} {out : List Param}
    (h : KindReturns (declare ps) c k s out k' s') (hk : k.Declares own) :
    k'.Declares (paramIds ps ++ own) := by
  induction ps generalizing k s out own with
  | nil =>
    unfold declare at h
    rw [List.mapM_nil, kindReturns_pure] at h
    exact h.2.1 ▸ hk
  | cons p ps ih =>
    obtain ⟨q, rest, ws, -, -, hrest⟩ := kindReturns_declare_cons h
    refine fun id hid => ih hrest (hk.insert p.name.id q) id ?_
    simp only [paramIds, List.map_cons, List.mem_append, List.mem_cons] at hid ⊢
    grind

theorem resolves_declare (ps : List TypeParam) : KindResolves v own (declare ps) := by
  unfold declare
  induction ps with
  | nil => exact .pure _
  | cons p ps ih =>
    rw [List.mapM_cons]
    refine .bind (.getState_bind fun {_ s} _ => ?_) fun _ => ih.bind fun _ => .pure _
    have hrest : KindResolves v own (do
        let tp ← freshParam p.kind (some p.name)
        modify fun k => { k with params := k.params.insert p.name.id tp }
        return tp) :=
      (KindResolves.lift (resolves_freshParam ..)).bind fun tp => (KindResolves.modify fun hk =>
        fun id hid => hk.insert p.name.id tp id (List.mem_cons_of_mem _ hid)).bind fun _ => .pure _
    dsimp only
    split
    · exact .ite ((KindResolves.lift (resolves_recordWarning _)).bind fun _ => hrest) hrest
    · exact hrest

/-- A declaration may use the parameters that it has declared. -/
theorem resolves_declare_bind {α : Type} {ps : List TypeParam} {k : Kinding}
    {f : List Param × Kinding → Infer α}
    (h : ∀ out k', k'.Declares (paramIds ps) → Resolves v (f (out, k')) w) :
    Resolves v ((declare ps).run k >>= f) w := by
  have hdeclare : Resolves v ((declare ps).run k) v := by
    have hps : KindResolves v [] (declare ps) := resolves_declare ps
    simpa using hps.run_bind (List.forall_mem_nil _) fun a k' _ => .pure (a, k')
  refine hdeclare.andThen fun {_ _ _ r} _ hr => h r.1 r.2 ?_
  have hk : Declares [] k := List.forall_mem_nil _
  simpa using declares_declare hr hk

end Kinding

theorem resolves_checkType {t : TypeExpr} (kd : Kind) (h : t.inScope v [] = true) :
    Resolves v (checkType t kd) v :=
  (Kinding.resolves_check kd h).run_bind (List.forall_mem_nil _) fun _ _ _ =>
    (resolves_modifyGoals _).bind fun _ => .pure _

theorem resolves_checkSignature {sig : Signature} (h : sig.inScope v = true) :
    Resolves v (checkSignature sig) v := by
  rw [Signature.inScope, Bool.and_eq_true] at h
  exact .withRange <| Kinding.resolves_declare_bind fun _ _ hk =>
    (Kinding.resolves_checkProps h.1).run_bind hk fun _ _ hk =>
    (Kinding.resolves_check _ h.2).run_bind hk fun _ _ _ => .pure _

end Infer
end SizedTypes
