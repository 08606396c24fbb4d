import SizedTypes.Proofs.Infer.ClosedTypes
import SizedTypes.Proofs.Infer.Kinding.Saturation

/-!
# Checks at a kind

A check gives a type of the kind that is asked for. A parameter that is declared without a kind has the
kind at which its first use stands, the uses ordered as they are written. Arguments that do not fit the
arity of what they are applied to are not visited.
-/

set_option autoImplicit false

namespace SizedTypes

open Surface (TypeExpr)

section Uses

variable (own : Int → Bool) (declared : Int → Option Kind)

mutual
/-- The kinds that the surroundings demand of unapplied names, from left to right, in a type that
stands at the given kind. `own` are the parameters of the declaration, which take no arguments, and
`declared` has the kinds of declared types. -/
def Surface.TypeExpr.demands : TypeExpr → Kind → List (Int × Kind)
  | .located _ t, kd => t.demands kd
  | .bit, _ | .num _, _ | .char _, _ | .wildcard, _ | .existential _, _ => []
  | .seq len elem, _ => len.demands .num ++ elem.demands .type
  | .arrow a b, _ => a.demands .type ++ b.demands .type
  | .tuple ts, _ => demandsOfEach ts
  | .record fs, _ => demandsOfFields fs
  | .builtin c args, _ => if c.kind.arity = args.length then demandsOfArgs c.kind args else []
  | .named n [], kd => [(n.id, kd)]
  | .named n (a :: as), _ =>
    if own n.id then []
    else match declared n.id with
      | some kd => if kd.arity = (a :: as).length then demandsOfArgs kd (a :: as) else []
      | none => []

def Surface.demandsOfEach : List TypeExpr → List (Int × Kind)
  | [] => []
  | t :: ts => t.demands .type ++ demandsOfEach ts

def Surface.demandsOfFields : List (String × TypeExpr) → List (Int × Kind)
  | [] => []
  | (_, t) :: fs => t.demands .type ++ demandsOfFields fs

def Surface.demandsOfArgs : Kind → List TypeExpr → List (Int × Kind)
  | _, [] => []
  | .arrow dom cod, t :: ts => t.demands dom ++ demandsOfArgs cod ts
  | _, _ :: _ => []
end

end Uses

open Surface (demandsOfEach demandsOfFields demandsOfArgs)

namespace Kind

@[simp] theorem orElse_unknown (k : Kind) : k.orElse .unknown = k := by
  cases k <;> rfl

theorem orElse_assoc (a b c : Kind) : (a.orElse b).orElse c = a.orElse (b.orElse c) := by
  cases a <;> rfl

end Kind

namespace Infer

namespace Kinding

/-- A demand fixes the kind of a parameter whose kind is open. -/
def demand (params : Table Int Param) (d : Int × Kind) : Table Int Param :=
  match params.find? d.1 with
  | some p => params.insert d.1 { p with kind := p.kind.orElse d.2 }
  | none => params

/-- The first known kind that is demanded of the name with this id. -/
def firstDemand (id : Int) (ds : List (Int × Kind)) : Kind :=
  ((ds.find? fun d => d.1 == id && d.2.isKnown).map Prod.snd).getD .unknown

theorem firstDemand_cons (id : Int) (d : Int × Kind) (ds : List (Int × Kind)) :
    firstDemand id (d :: ds) =
      if d.1 = id then d.2.orElse (firstDemand id ds) else firstDemand id ds := by
  rw [firstDemand, List.find?_cons]
  by_cases hid : d.1 = id
  · cases hknown : d.2.isKnown <;> simp [hid, hknown, firstDemand, Kind.orElse]
  · have hfalse : (d.1 == id && d.2.isKnown) = false := by simp [hid]
    rw [hfalse, if_neg hid, firstDemand]

theorem find?_demand {params : Table Int Param} {id : Int} {p : Param} (d : Int × Kind)
    (h : params.find? id = some p) : (demand params d).find? id =
      some { p with kind := p.kind.orElse (if d.1 = id then d.2 else .unknown) } := by
  unfold demand
  split
  · rename_i q hq
    rw [Table.find?_insert]
    by_cases hid : d.1 = id
    · subst hid
      obtain rfl : q = p := Option.some.inj (hq.symm.trans h)
      simp
    · simp [hid, Ne.symm hid, h]
  · rename_i hnone
    have hid : d.1 ≠ id := by
      rintro rfl
      rw [hnone] at h
      cases h
    simp [hid, h]

theorem isSome_find?_demand (params : Table Int Param) (d : Int × Kind) (id : Int) :
    ((demand params d).find? id).isSome = (params.find? id).isSome := by
  unfold demand
  split
  · rename_i p hp
    rw [Table.find?_insert]
    split
    · rename_i hid
      rw [hid, hp]
      rfl
    · rfl
  · rfl

theorem isSome_find?_foldl_demand (ds : List (Int × Kind)) (params : Table Int Param) (id : Int) :
    ((ds.foldl demand params).find? id).isSome = (params.find? id).isSome := by
  induction ds generalizing params with
  | nil => rfl
  | cons d ds ih => rw [List.foldl_cons, ih, isSome_find?_demand]

/-- After all demands a parameter has its kind or, where this was open, the first that is known. -/
theorem find?_foldl_demand (ds : List (Int × Kind)) {params : Table Int Param} {id : Int} {p : Param}
    (h : params.find? id = some p) : (ds.foldl demand params).find? id =
      some { p with kind := p.kind.orElse (firstDemand id ds) } := by
  induction ds generalizing params p with
  | nil => simp [h, firstDemand]
  | cons d ds ih =>
    rw [List.foldl_cons, ih (find?_demand d h), firstDemand_cons]
    dsimp only
    rw [Kind.orElse_assoc]
    split <;> rfl

end Kinding

/-- The kind of the declared type with this id. -/
def declaredKind (E : External) (s : State) (id : Int) : Option Kind :=
  ((Scope.lookup Core.Module.synonyms E.synonyms id s.scopes).map TypeSynonym.kind).or
    (((Scope.lookup Core.Module.newtypes E.newtypes id s.scopes).map Newtype.kind).or
      ((Scope.lookup Core.Module.primTypes E.primTypes id s.scopes).map PrimType.kind))

theorem declaredKind_of_sameScope {E : External} {s s' : State} (h : SameScope s s') :
    declaredKind E s' = declaredKind E s := by
  funext id
  rw [declaredKind, declaredKind, h.scopes]

variable {own : Int → Bool} {declared : Int → Option Kind}

/-- All that a check does to the parameters of the declaration is to meet the demands `ds`. -/
structure Meets (own : Int → Bool) (declared : Int → Option Kind) {α : Type} (act : KindInfer α)
    (ds : List (Int × Kind)) : Prop where
  respects : KindRespects SameScope act
  step : ∀ {c : Context} {k k' : Kinding} {s s' : State} {a : α}, KindReturns act c k s a k' s' →
    (∀ id, own id = (k.params.find? id).isSome) → declared = declaredKind c.external s →
    k'.params = ds.foldl Kinding.demand k.params

namespace Meets

variable {α β : Type} {ds ds' : List (Int × Kind)}

theorem pure (a : α) : Meets own declared (Pure.pure a : KindInfer α) [] where
  respects := .pure a
  step ha _ _ := by rw [(kindReturns_pure.mp ha).2.1]; rfl

theorem lift {act : Infer α} (h : Respects SameScope act) :
    Meets own declared (liftM act : KindInfer α) [] where
  respects := .lift h
  step ha _ _ := by rw [(kindReturns_lift.mp ha).1]; rfl

theorem bind {act : KindInfer α} {f : α → KindInfer β} (h : Meets own declared act ds)
    (h' : ∀ a, Meets own declared (f a) ds') : Meets own declared (act >>= f) (ds ++ ds') where
  respects := h.respects.bind fun a => (h' a).respects
  step hb hown hdeclared := by
    obtain ⟨a, k₁, s₁, ha, hb⟩ := kindReturns_bind.mp hb
    have hparams := h.step ha hown hdeclared
    rw [List.foldl_append, ← hparams]
    refine (h' a).step hb (fun id => ?_) ?_
    · rw [hparams, Kinding.isSome_find?_foldl_demand, hown]
    · rw [declaredKind_of_sameScope (h.respects.step ha), hdeclared]

theorem bind_nil {act : KindInfer α} {f : α → KindInfer β} (h : Meets own declared act ds)
    (h' : ∀ a, Meets own declared (f a) []) : Meets own declared (act >>= f) ds :=
  List.append_nil ds ▸ h.bind h'

theorem get_bind {f : Kinding → KindInfer α} (h : ∀ k, Meets own declared (f k) ds) :
    Meets own declared (get >>= f) ds where
  respects := .bind .get fun k => (h k).respects
  step ha := (h _).step ha

theorem located {r : Range} {act : KindInfer α} (h : Meets own declared act ds) :
    Meets own declared (Kinding.located r act) ds where
  respects := .located h.respects
  step {c _ _ _ _ _} ha := h.step (c := { c with range := r.orElse c.range }) ha

theorem ite {p : Prop} [Decidable p] {act act' : KindInfer α} (h : Meets own declared act ds)
    (h' : Meets own declared act' ds) : Meets own declared (if p then act else act') ds := by
  split
  · exact h
  · exact h'

end Meets

namespace Kinding

theorem meets_emit (src : GoalSource) (ps : List Ty) : Meets own declared (emit src ps) [] where
  respects := respects_emit src ps
  step h _ _ := by
    unfold emit currentRange at h
    simp only [kindReturns_lift_bind, kindReturns_modify, returns_read_bind, returns_pure] at h
    obtain ⟨_, _, ⟨-, rfl⟩, rfl, rfl⟩ := h
    rfl

theorem meets_placeholder (e : TypeError) (kd : Kind) :
    Meets own declared (do recordError e; placeholder kd) [] :=
  (Meets.lift (respects_recordError e)).bind_nil fun _ =>
    (Meets.lift (respects_freshType ..)).bind_nil fun _ => .pure _

theorem meets_atKind (kd : Kind) (r : Ty × Kind) : Meets own declared (atKind kd r) [] :=
  .ite ((Meets.lift (respects_recordError _)).bind_nil fun _ => .lift (respects_freshType ..))
    (.pure _)

theorem meets_existential (ident : String) (kd : Kind) :
    Meets own declared (existential ident kd) [] where
  respects := respects_existential ident kd
  step {c k k' s s' t} h _ _ := by
    unfold existential at h
    rw [kindReturns_getState_bind] at h
    repeat' split at h
    all_goals
      simp only [kindReturns_lift_bind, kindReturns_modifyState_bind, kindReturns_lift,
        kindReturns_pure] at h
    · obtain ⟨_, _, _, rfl, _⟩ := h
      rfl
    · obtain ⟨_, rfl, _⟩ := h
      rfl
    · obtain ⟨_, _, _, _, _, _, _, rfl, _⟩ := h
      rfl
    · obtain ⟨_, _, _, _, rfl, _⟩ := h
      rfl

/-! ## Names -/

/-- A parameter of the declaration takes no arguments; without them it has the kind demanded. -/
theorem returns_resolve_own {n : Name} {arity : Nat} {kd : Kind} {c : Context} {k k' : Kinding}
    {s s' : State} {r : Referent} {p : Param} (h : KindReturns (resolve n arity kd) c k s r k' s')
    (hp : k.params.find? n.id = some p) :
    s' = s ∧ ((arity = 0 ∧ k'.params = demand k.params (n.id, kd) ∧ ∃ q, r = .param q) ∨
      (arity ≠ 0 ∧ k' = k ∧ r = .appliedParam)) := by
  unfold resolve at h
  rw [kindReturns_get_bind, hp] at h
  dsimp only at h
  split at h
  · rename_i harity
    obtain ⟨rfl, rfl, rfl⟩ := kindReturns_pure.mp h
    exact ⟨rfl, Or.inr ⟨harity.ne', rfl, rfl⟩⟩
  · rename_i harity
    obtain ⟨⟨⟩, k₁, s₁, hinsert, h⟩ := kindReturns_bind.mp h
    obtain ⟨rfl, rfl⟩ := kindReturns_modify.mp hinsert
    obtain ⟨rfl, rfl, rfl⟩ := kindReturns_pure.mp h
    exact ⟨rfl, Or.inl ⟨Nat.eq_zero_of_not_pos harity, by rw [demand, hp], _, rfl⟩⟩

/-- Any other name stands for a parameter without arguments, or for a declared type. -/
theorem returns_resolve_outer {n : Name} {arity : Nat} {kd : Kind} {c : Context} {k k' : Kinding}
    {s s' : State} {r : Referent} (h : KindReturns (resolve n arity kd) c k s r k' s')
    (hp : k.params.find? n.id = none) :
    s' = s ∧ k' = k ∧ ((arity = 0 ∧ ∃ q, r = .param q) ∨
      ∃ hd, r = .head hd ∧ declaredKind c.external s n.id = some hd.kind) := by
  replace h : KindReturns (outerReferent c s n arity) c k s r k' s' :=
    (exec_resolve hp).symm.trans h
  unfold outerReferent at h
  split at h
  · rename_i q hq
    obtain ⟨rfl, rfl, rfl⟩ := kindReturns_pure.mp h
    rw [Option.ite_none_right_eq_some] at hq
    exact ⟨rfl, rfl, Or.inl ⟨hq.1, q, rfl⟩⟩
  · split at h
    · rename_i ts hts
      obtain ⟨rfl, rfl, rfl⟩ := kindReturns_pure.mp h
      exact ⟨rfl, rfl, Or.inr ⟨_, rfl, by rw [declaredKind, hts]; rfl⟩⟩
    · rename_i hts
      split at h
      · rename_i nt hnt
        obtain ⟨rfl, rfl, rfl⟩ := kindReturns_pure.mp h
        exact ⟨rfl, rfl, Or.inr ⟨_, rfl, by rw [declaredKind, hts, hnt]; rfl⟩⟩
      · rename_i hnt
        split at h
        · rename_i pt hpt
          obtain ⟨rfl, rfl, rfl⟩ := kindReturns_pure.mp h
          exact ⟨rfl, rfl, Or.inr ⟨_, rfl, by rw [declaredKind, hts, hnt, hpt]; rfl⟩⟩
        · exact absurd h not_kindReturns_throw

/-! ## Written types -/

/-- The arguments of a constructor are visited if there are as many as it takes. -/
theorem meets_applied {kd hint : Kind} {args : List TypeExpr} {ds : List (Int × Kind)}
    {e : TypeError} {f : List Ty × Kind → KindInfer (Ty × Kind)}
    (hargs : Meets own declared (checkArgs kd args) ds) (hf : ∀ r, Meets own declared (f r) []) :
    Meets own declared
      (if kd.arity ≠ args.length then do recordError e; placeholder hint else checkArgs kd args >>= f)
      (if kd.arity = args.length then ds else []) := by
  by_cases harity : kd.arity = args.length
  · rw [if_neg (not_not.mpr harity), if_pos harity]
    exact hargs.bind_nil hf
  · rw [if_pos harity, if_neg harity]
    exact meets_placeholder e hint

mutual
theorem meets_infer : ∀ (t : TypeExpr) (hint : Kind),
    Meets own declared (infer t hint) (t.demands own declared hint)
  | .located r t, hint => by
    rw [infer, TypeExpr.demands]
    exact .located (meets_infer t hint)
  | .bit, _ | .num _, _ | .char _, _ => by
    rw [infer, TypeExpr.demands]
    exact .pure _
  | .seq len elem, _ => by
    rw [infer, TypeExpr.demands]
    exact (meets_infer len _).bind fun _ => (meets_atKind ..).bind fun _ =>
      (meets_infer elem _).bind_nil fun _ => (meets_atKind ..).bind_nil fun _ => .pure _
  | .arrow a b, _ => by
    rw [infer, TypeExpr.demands]
    exact (meets_infer a _).bind fun _ => (meets_atKind ..).bind fun _ =>
      (meets_infer b _).bind_nil fun _ => (meets_atKind ..).bind_nil fun _ => .pure _
  | .tuple ts, _ => by
    rw [infer, TypeExpr.demands]
    exact (meets_checkEach ts).bind_nil fun _ => .pure _
  | .record fs, _ => by
    rw [infer, TypeExpr.demands]
    exact (meets_checkFields fs).bind_nil fun _ => .pure _
  | .wildcard, hint => by
    have hfresh : Meets own declared (do
        return (← freshType (hint.orElse .type) .wildcard, hint.orElse .type) :
          KindInfer (Ty × Kind)) [] :=
      (Meets.lift (respects_freshType ..)).bind_nil fun _ => .pure _
    rw [infer, TypeExpr.demands]
    refine .get_bind fun _ => .ite ?_ hfresh
    exact (Meets.lift (respects_recordError _)).bind_nil fun _ => hfresh
  | .existential ident, hint => by
    rw [infer, TypeExpr.demands]
    exact (meets_existential ..).bind_nil fun _ => .pure _
  | .builtin con args, hint => by
    rw [infer, TypeExpr.demands]
    exact meets_applied (meets_checkArgs args con.kind) fun r =>
      (meets_emit ..).bind_nil fun _ => .pure _
  | .named n args, hint => by
    refine ⟨respects_infer _ _, fun {c k k' s s' t} h hown hdeclared => ?_⟩
    rw [infer, kindReturns_bind] at h
    obtain ⟨r, k₁, s₁, hres, h⟩ := h
    cases hparam : k.params.find? n.id with
    | some p =>
      obtain ⟨rfl, ⟨harity, hparams, q, rfl⟩ | ⟨harity, rfl, rfl⟩⟩ := returns_resolve_own hres hparam
      · obtain rfl : args = [] := List.eq_nil_of_length_eq_zero harity
        rw [(kindReturns_pure.mp h).2.1, hparams, TypeExpr.demands, List.foldl_cons, List.foldl_nil]
      · obtain ⟨a, as, rfl⟩ := List.exists_cons_of_ne_nil (mt (congrArg List.length) harity)
        rw [TypeExpr.demands, if_pos ((hown n.id).trans (by rw [hparam]; rfl))]
        exact (meets_placeholder ..).step h hown hdeclared
    | none =>
      obtain ⟨rfl, rfl, houter⟩ := returns_resolve_outer hres hparam
      have hfree : own n.id = false := (hown n.id).trans (by rw [hparam]; rfl)
      cases args with
      | nil =>
        rw [TypeExpr.demands, List.foldl_cons, List.foldl_nil, demand, hparam]
        obtain ⟨-, q, rfl⟩ | ⟨hd, rfl, -⟩ := houter
        · rw [(kindReturns_pure.mp h).2.1]
        · refine (meets_applied (meets_checkArgs [] hd.kind) fun r => (meets_emit ..).bind_nil fun _ =>
            .pure _).step h hown hdeclared |>.trans ?_
          simp [demandsOfArgs]
      | cons a as =>
        obtain ⟨harity, -⟩ | ⟨hd, rfl, hkind⟩ := houter
        · cases harity
        · have hknown : declared n.id = some hd.kind := hdeclared ▸ hkind
          rw [TypeExpr.demands, if_neg (by simp [hfree]), hknown]
          exact (meets_applied (meets_checkArgs (a :: as) hd.kind) fun r => (meets_emit ..).bind_nil
            fun _ => .pure _).step h hown hdeclared

theorem meets_checkEach : ∀ ts : List TypeExpr,
    Meets own declared (Kinding.checkEach ts) (demandsOfEach own declared ts)
  | [] => by
    rw [Kinding.checkEach, demandsOfEach]
    exact .pure _
  | t :: ts => by
    rw [Kinding.checkEach, demandsOfEach]
    exact (meets_infer t _).bind fun _ => (meets_atKind ..).bind fun _ =>
      (meets_checkEach ts).bind_nil fun _ => .pure _

theorem meets_checkFields : ∀ fs : List (String × TypeExpr),
    Meets own declared (checkFields fs) (demandsOfFields own declared fs)
  | [] => by
    rw [checkFields, demandsOfFields]
    exact .pure _
  | (l, t) :: fs => by
    rw [checkFields, demandsOfFields]
    exact (meets_infer t _).bind fun _ => (meets_atKind ..).bind fun _ =>
      (meets_checkFields fs).bind_nil fun _ => .pure _

theorem meets_checkArgs : ∀ (ts : List TypeExpr) (kd : Kind),
    Meets own declared (checkArgs kd ts) (demandsOfArgs own declared kd ts)
  | [], kd => by
    rw [checkArgs, demandsOfArgs]
    exact .pure _
  | t :: ts, .arrow dom cod => by
    rw [checkArgs, demandsOfArgs]
    exact (meets_infer t _).bind fun _ => (meets_atKind ..).bind fun _ =>
      (meets_checkArgs ts cod).bind_nil fun _ => .pure _
  | _ :: _, .type | _ :: _, .num | _ :: _, .prop | _ :: _, .unknown => by
    rw [checkArgs, demandsOfArgs]
    · exact .pure _
    all_goals simp
end

theorem meets_check (t : TypeExpr) (kd : Kind) :
    Meets own declared (check t kd) (t.demands own declared kd) :=
  (meets_infer t kd).bind_nil fun _ => meets_atKind ..

/-- The demands that a check of `t` at the kind `kd` makes of names, given the parameters of the
declaration and the declared types. -/
def demandsOf (c : Context) (k : Kinding) (s : State) (t : TypeExpr) (kd : Kind) : List (Int × Kind) :=
  t.demands (fun id => (k.params.find? id).isSome) (declaredKind c.external s) kd

/-! ## Checks at a kind -/

variable {syn : Int → List Kind} {c : Context} {k k' : Kinding} {s s' : State} {t : TypeExpr}
  {kd : Kind} {u : Ty}

/-- Where declared types are well-kinded and synonyms proper, the type has the kind that is asked for
and is saturated, and the state stays well-kinded. A parameter of the declaration whose kind was open
has the kind that is demanded of it first. -/
theorem check_saturated (h : KindReturns (check t kd) c k s u k' s')
    (hs : s.WellKinded syn c.external) (hproper : s.Proper c.external) (hkd : kd.isKnown = true)
    (ht : ∀ con ∈ t.builtins, con.kind.isDeclared = true) :
    u.kindOf = kd ∧ u.Saturated syn (fun _ => True) ∧ s'.WellKinded syn c.external ∧
      ∀ id p, k.params.find? id = some p → p.kind = .unknown →
        k'.params.find? id = some { p with kind := firstDemand id (demandsOf c k s t kd) } := by
  obtain ⟨hs', -, hsat, hkind⟩ := (saturates_check hkd ht).step h hs hproper
  refine ⟨hkind, hsat, hs', fun id p hp hopen => ?_⟩
  have hparams := (meets_check t kd).step h (fun _ => rfl) rfl
  rw [hparams, find?_foldl_demand _ hp, hopen]
  rfl

/-! ## Sequences of pairs -/

/-- Pairs of two values of one type. -/
def pairSynonym : TypeSynonym where
  name := { id := 5, ident := "Pair" }
  params := [{ id := 9, kind := .type }]
  body := .tuple [.bound { id := 9, kind := .type }, .bound { id := 9, kind := .type }]

/-- The kinds of the parameters of the synonym for pairs. -/
def pairKinds (id : Int) : List Kind := if id = 5 then [.type] else []

def kindingContext : Context :=
  { options := {}, solver := Solver.localRules, range := .empty, prims := [], external := {} }

/-- A module that declares the synonym for pairs. -/
def pairState : State :=
  { (default : State) with
    scopes := [⟨.top, { Core.Module.empty { id := 0, ident := "Main" } with
      synonyms := [(5, pairSynonym)] }⟩] }

/-- Two parameters, the kinds of which are open. -/
def openParams : Kinding :=
  { params := [(1, { id := 7, kind := .unknown }), (2, { id := 8, kind := .unknown })]
    allowWildcards := false }

theorem lookup_pairState {id : Int} {ts : TypeSynonym}
    (h : Scope.lookup Core.Module.synonyms [] id pairState.scopes = some ts) : ts = pairSynonym := by
  rcases Scope.mem_of_lookup h with hmem | ⟨sc, hsc, hmem⟩
  · cases hmem
  · obtain rfl := List.mem_singleton.mp hsc
    exact (Prod.mk.inj (List.mem_singleton.mp hmem)).2

theorem wellKinded_pairState : pairState.WellKinded pairKinds {} where
  typeVars id p h := by cases h
  moduleParams id p h := by cases h
  synonyms id ts h := by
    obtain rfl := lookup_pairState h
    refine ⟨rfl, List.forall_mem_singleton.mpr rfl, .con .type ?_ rfl rfl rfl⟩
    refine List.forall_mem_cons.mpr ⟨?_, List.forall_mem_singleton.mpr ?_⟩
    all_goals exact .bound rfl (List.forall_mem_singleton.mpr fun _ => rfl)
  newtypes id nt h := by cases h
  primTypes id pt h := by cases h
  existentials := List.forall_mem_nil _

/-- Sequences of pairs, with the parameters for the length and for the type of the components. -/
def seqOfPairs : TypeExpr :=
  .seq (.named { id := 1, ident := "n" } [])
    (.named { id := 5, ident := "Pair" } [.named { id := 2, ident := "a" } []])

/-- The length is a size, and the components are values. -/
theorem check_saturated_seqOfPairs : ∃ u k' s',
    KindReturns (check seqOfPairs .type) kindingContext openParams pairState u k' s' ∧
    u.kindOf = .type ∧ u.Saturated pairKinds (fun _ => True) ∧
    k'.params.find? 1 = some { id := 7, kind := .num } ∧
    k'.params.find? 2 = some { id := 8, kind := .type } := by
  have hproper : pairState.Proper {} := fun id ts h => by
    obtain rfl := lookup_pairState h
    rfl
  obtain ⟨u, k', s', h⟩ : ∃ u k' s',
      KindReturns (check seqOfPairs .type) kindingContext openParams pairState u k' s' :=
    ⟨_, _, _, rfl⟩
  obtain ⟨hkind, hsat, -, hparams⟩ :=
    check_saturated h wellKinded_pairState hproper rfl (List.forall_mem_nil _)
  exact ⟨u, k', s', h, hkind, hsat, hparams 1 _ rfl rfl, hparams 2 _ rfl rfl⟩

/-! ## Synonyms of constructors -/

/-- A type parameter of a module that is a constructor. -/
def constructorParam : Param := { id := 7, kind := .arrow .num .type }

/-- A module with such a parameter and a synonym for it. -/
def constructorState : State :=
  { (default : State) with
    scopes := [⟨.submodule, { Core.Module.empty { id := 50, ident := "M" } with
      paramTypes := [(51, ⟨{ id := 51, ident := "g" }, constructorParam⟩)]
      synonyms := [(52, { name := { id := 52, ident := "S" }, body := .bound constructorParam })] }⟩] }

theorem wellKinded_constructorState : constructorState.WellKinded (fun _ => []) {} where
  typeVars id p h := by cases h
  moduleParams id p h := by
    rcases Scope.mem_of_lookup h with hmem | ⟨sc, hsc, hmem⟩
    · cases hmem
    · obtain rfl := List.mem_singleton.mp hsc
      rw [(Prod.mk.inj (List.mem_singleton.mp hmem)).2]
      rfl
  synonyms id ts h := by
    rcases Scope.mem_of_lookup h with hmem | ⟨sc, hsc, hmem⟩
    · cases hmem
    · obtain rfl := List.mem_singleton.mp hsc
      obtain rfl := (Prod.mk.inj (List.mem_singleton.mp hmem)).2
      exact ⟨rfl, List.forall_mem_nil _, .bound rfl (List.forall_mem_nil _)⟩
  newtypes id nt h := by cases h
  primTypes id pt h := by cases h
  existentials := List.forall_mem_nil _

/-- A synonym for a constructor takes the arguments of the constructor. They are not put to use, so
that what is checked as a type of values is a constructor. -/
theorem check_constructorSynonym : constructorState.WellKinded (fun _ => []) {} ∧ ∃ u k' s',
    KindReturns (check (.named { id := 52, ident := "S" } [.num 3]) .type) kindingContext
      { allowWildcards := true } constructorState u k' s' ∧
    u.kindOf = .arrow .num .type ∧ ¬u.Saturated (fun _ => []) fun _ => True := by
  refine ⟨wellKinded_constructorState, _, _, _, rfl, rfl, fun hsat => ?_⟩
  cases hsat with
  | synonym _ _ hargs => cases hargs

end Kinding
end Infer
end SizedTypes
