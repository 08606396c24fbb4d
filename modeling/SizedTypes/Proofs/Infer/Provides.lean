import SizedTypes.Proofs.Infer.InForce
import SizedTypes.Proofs.Infer.Mirror
import SizedTypes.Proofs.Infer.Names
import SizedTypes.Proofs.Surface.Scoping

/-!
# States that provide names

A state provides what is visible to a program: each variable is in the table of variables or
external, each type is in a scope or external. From such a state a computation that refers only to
what is visible finds every name. The run must not be cancelled, since a cancelled run leaves out
declarations.
-/

set_option autoImplicit false

namespace SizedTypes

/-- The content of a scope declares a type with this id. -/
def Core.Module.DeclaresType (m : Core.Module) (id : Int) : Prop :=
  (m.synonyms.find? id).isSome ∨ (m.newtypes.find? id).isSome ∨ (m.primTypes.find? id).isSome

/-- Of what is visible, what is external and the type parameters of signatures. -/
def Surface.Visible.outer (v : Visible) : Visible :=
  { external := v.external, prims := v.prims, typeVars := v.typeVars }

namespace Infer

open Surface (Visible)

variable {c : Context} {s s₁ s' : State} {v w u : Visible}

/-! ## Names in a state -/

/-- In both states the same names are in scope. -/
structure SameScope (s s' : State) : Prop where
  vars : s'.vars = s.vars
  scopes : s'.scopes = s.scopes
  typeVars : s'.typeVars = s.typeVars

theorem SameScope.refl (s : State) : SameScope s s := ⟨rfl, rfl, rfl⟩

theorem SameScope.trans (h : SameScope s s₁) (h' : SameScope s₁ s') : SameScope s s' :=
  ⟨h'.vars.trans h.vars, h'.scopes.trans h.scopes, h'.typeVars.trans h.typeVars⟩

instance : Rules SameScope where
  refl := .refl
  trans := .trans
  error _ _ := ⟨rfl, rfl, rfl⟩
  message _ _ _ := ⟨rfl, rfl, rfl⟩
  draw _ _ _ _ := ⟨rfl, rfl, rfl⟩
  goals _ _ := ⟨rfl, rfl, rfl⟩
  bind _ _ _ := ⟨rfl, rfl, rfl⟩
  existential _ _ _ := ⟨rfl, rfl, rfl⟩
  select h := by
    have hframe : Frame _ _ := Rules.select h
    have hforce : InForce _ _ := Rules.select h
    exact ⟨hframe.vars, hframe.scopes, hforce.typeVars⟩

instance : SelectorRules SameScope where
  solution _ _ := ⟨rfl, rfl, rfl⟩
  pending _ _ := ⟨rfl, rfl, rfl⟩

instance : SolvingRules SameScope where
  solve h := respects_selectorRounds.step h
  ask _ _ _ := ⟨rfl, rfl, rfl⟩

/-- All that is visible in `v` is found from `s`, and the run is never cancelled. -/
structure Provides (v : Visible) (c : Context) (s : State) : Prop where
  external : c.external = v.external
  prims : c.prims = v.prims
  uncancelling : ∀ k b q, (c.solver.ask k b q).cancels = false
  uncancelled : s.cancelled = false
  sorted : s.vars.Sorted
  values : ∀ id ∈ v.values, (s.vars.find? id).isSome
  types : ∀ id ∈ v.types, ∃ sc ∈ s.scopes, sc.content.DeclaresType id
  moduleParams : ∀ id ∈ v.moduleParams, ∃ sc ∈ s.scopes, (sc.content.paramTypes.find? id).isSome
  sortedTypeVars : s.typeVars.Sorted
  typeVars : ∀ id ∈ v.typeVars, (s.typeVars.find? id).isSome

/-- A solver that never cancels leaves a run as cancelled as it is. -/
theorem cancelledAfter_of_uncancelling {r : Course}
    (h : ∀ k b q, (r.solver.ask k b q).cancels = false) (qs : List Query) :
    r.cancelledAfter qs = r.cancelled := by
  unfold Course.cancelledAfter
  generalize r.cancelled = b
  induction qs.zipIdx generalizing b with
  | nil => rfl
  | cons q qs ih => rw [List.foldl_cons, h, Bool.or_false, ih]

namespace Provides

/-- Places do not matter. -/
theorem located (h : Provides v c s) (r : Range) :
    Provides v { c with range := r.orElse c.range } s := { h with }

theorem of_sameScope (h : Provides v c s) (hsame : SameScope s s') (hlive : s'.cancelled = false) :
    Provides v c s' where
  external := h.external
  prims := h.prims
  uncancelling := h.uncancelling
  uncancelled := hlive
  sorted := hsame.vars ▸ h.sorted
  values := hsame.vars ▸ h.values
  types := hsame.scopes ▸ h.types
  moduleParams := hsame.scopes ▸ h.moduleParams
  sortedTypeVars := hsame.typeVars ▸ h.sortedTypeVars
  typeVars := hsame.typeVars ▸ h.typeVars

theorem uncancelled_after {α : Type} {act : Infer α} {a : α} (h : Provides v c s)
    (hact : ∀ r, Follows r act) (ha : Returns act c s a s') : s'.cancelled = false := by
  let r : Course := ⟨c.solver, false, []⟩
  have hafter := cancelledAfter_of_uncancelling (r := r) h.uncancelling
  have hs' := (hact r).record_of_returns rfl (h.uncancelled.trans (hafter _).symm) ha
  exact hs'.trans (hafter _)

/-- Of the values and types, fewer may be visible. -/
theorem anti (h : Provides w c s) (hexternal : v.external = w.external) (hprims : v.prims = w.prims)
    (hvalues : v.values ⊆ w.values) (htypes : v.types ⊆ w.types)
    (hparams : v.moduleParams ⊆ w.moduleParams) (hvars : v.typeVars ⊆ w.typeVars) :
    Provides v c s :=
  { h with
    external := h.external.trans hexternal.symm
    prims := h.prims.trans hprims.symm
    values := fun id hid => h.values id (hvalues hid)
    types := fun id hid => h.types id (htypes hid)
    moduleParams := fun id hid => h.moduleParams id (hparams hid)
    typeVars := fun id hid => h.typeVars id (hvars hid) }

theorem outer (h : Provides v c s) : Provides v.outer c s :=
  h.anti rfl rfl (List.nil_subset _) (List.nil_subset _) (List.nil_subset _) (List.Subset.refl _)

theorem of_withValues {ids : List Int} (h : Provides (v.withValues ids) c s) : Provides v c s :=
  h.anti rfl rfl (List.subset_append_left ..) (List.Subset.refl _) (List.Subset.refl _)
    (List.Subset.refl _)

/-- What is neither in scope after a computation nor a parameter comes from before it. -/
theorem of_frame (h : Provides v c s) (hframe : Frame s s') (h' : Provides w c s')
    (hvars : v.typeVars ⊆ w.typeVars) : Provides v c s' where
  external := h.external
  prims := h.prims
  uncancelling := h.uncancelling
  uncancelled := h'.uncancelled
  sorted := h'.sorted
  values := hframe.vars ▸ h.values
  types := hframe.scopes ▸ h.types
  moduleParams := hframe.scopes ▸ h.moduleParams
  sortedTypeVars := h'.sortedTypeVars
  typeVars id hid := h'.typeVars id (hvars hid)

end Provides

/-! ## Computations that find every name -/

/-- From a state that provides `v`, the computation finds every name. Then the state provides `w`. -/
structure Resolves (v : Visible) {α : Type} (act : Infer α) (w : Visible) : Prop where
  bound : ∀ {c : Context} {s : State} {e : InternalError}, Provides v c s → Fails act c s e →
    e.isUnbound = false
  provides : ∀ {c : Context} {s s' : State} {a : α}, Provides v c s → Returns act c s a s' →
    Provides w c s'

/-- A computation that looks up no names and brings none into scope. -/
theorem Nameless.resolves {α : Type} {act : Infer α} (h : Nameless act)
    (hsame : Respects SameScope act) (hfollows : ∀ r, Follows r act) : Resolves v act v where
  bound _ he := h.bound he
  provides hs ha := hs.of_sameScope (hsame.step ha) (hs.uncancelled_after hfollows ha)

namespace Resolves

variable {α β : Type} {act : Infer α}

theorem pure (a : α) : Resolves v (Pure.pure a : Infer α) v where
  bound _ he := absurd he not_fails_pure
  provides hs ha := (returns_pure.mp ha).2 ▸ hs

theorem throw {e : InternalError} (h : e.isUnbound = false) :
    Resolves v (MonadExcept.throw e : Infer α) w where
  bound _ he := fails_throw.mp he ▸ h
  provides _ ha := absurd ha not_returns_throw

/-- Nothing follows an error. -/
theorem throw_bind {e : InternalError} {f : α → Infer β} (h : e.isUnbound = false) :
    Resolves v (MonadExcept.throw e >>= f) w where
  bound _ he := by
    rcases fails_bind.mp he with he | ⟨a, s₁, ha, -⟩
    · exact fails_throw.mp he ▸ h
    · exact absurd ha not_returns_throw
  provides _ hb := by
    obtain ⟨a, s₁, ha, -⟩ := returns_bind.mp hb
    exact absurd ha not_returns_throw

/-- What follows may depend on what has been returned. -/
theorem andThen {f : α → Infer β} (h : Resolves v act w)
    (h' : ∀ {c : Context} {s s₁ : State} {a : α}, Provides v c s → Returns act c s a s₁ →
      Resolves w (f a) u) : Resolves v (act >>= f) u where
  bound hs he := by
    rcases fails_bind.mp he with he | ⟨a, s₁, ha, he⟩
    · exact h.bound hs he
    · exact (h' hs ha).bound (h.provides hs ha) he
  provides hs hb := by
    obtain ⟨a, s₁, ha, hb⟩ := returns_bind.mp hb
    exact (h' hs ha).provides (h.provides hs ha) hb

theorem bind {f : α → Infer β} (h : Resolves v act w) (h' : ∀ a, Resolves w (f a) u) :
    Resolves v (act >>= f) u := h.andThen fun _ _ => h' _

theorem get_bind {f : State → Infer β} (h : ∀ {c : Context} {s : State}, Provides v c s →
    Resolves v (f s) w) : Resolves v (get >>= f) w where
  bound hs he := (h hs).bound hs he
  provides hs ha := (h hs).provides hs ha

theorem read_bind {f : Context → Infer β} (h : ∀ {c : Context} {s : State}, Provides v c s →
    Resolves v (f c) w) : Resolves v (read >>= f) w where
  bound hs he := (h hs).bound hs he
  provides hs ha := (h hs).provides hs ha

theorem modify {f : State → State} (h : ∀ {c : Context} {s : State}, Provides v c s →
    Provides w c (f s)) : Resolves v (modify f : Infer PUnit) w where
  bound _ he := by cases he
  provides hs ha := returns_modify.mp ha ▸ h hs

theorem withRange {r : Range} (h : Resolves v act w) : Resolves v (withRange r act) w where
  bound hs he := h.bound (hs.located r) (fails_withRange.mp he)
  provides hs ha := { h.provides (hs.located r) (returns_withReader.mp ha) with }

theorem ite {p : Prop} [Decidable p] {act' : Infer α} (h : Resolves v act w)
    (h' : Resolves v act' w) : Resolves v (if p then act else act') w := by
  split
  · exact h
  · exact h'

theorem weaken (h : Resolves v act w) (hw : ∀ {c : Context} {s : State}, Provides w c s →
    Provides u c s) : Resolves v act u := ⟨h.bound, fun hs ha => hw (h.provides hs ha)⟩

theorem mapM {xs : List α} {f : α → Infer β} (h : ∀ x ∈ xs, Resolves v (f x) v) :
    Resolves v (xs.mapM f) v := by
  induction xs with
  | nil => exact pure []
  | cons x xs ih =>
    rw [List.mapM_cons]
    exact (h x (by simp)).bind fun _ => (ih fun y hy => h y (by simp [hy])).bind fun _ => pure _

/-- Where a computation takes back what it declares, the same is visible after it as before. -/
theorem restored (h : Resolves v act w) (hscoped : Scoped act) (hvars : v.typeVars ⊆ w.typeVars) :
    Resolves v act v where
  bound := h.bound
  provides hs ha := hs.of_frame (hscoped.step ha hs.sorted) (h.provides hs ha) hvars

end Resolves

/-! ## Small computations -/

theorem resolves_recordError (e : TypeError) : Resolves v (recordError e) v :=
  (nameless_recordError e).resolves (respects_recordError e) fun _ => (steady_recordError e).follows

theorem resolves_recordWarning (warning : Warning) : Resolves v (recordWarning warning) v :=
  (nameless_recordWarning _).resolves (respects_recordWarning _) fun _ =>
    (steady_recordWarning _).follows

theorem resolves_trace (e : Event) : Resolves v (trace e) v :=
  (nameless_trace e).resolves (respects_trace e) fun _ => (steady_trace e).follows

theorem resolves_freshVar (k : Kind) (src : TypeSource) : Resolves v (freshVar k src) v :=
  (nameless_freshVar k src).resolves (respects_freshVar k src) fun _ => (steady_freshVar k src).follows

theorem resolves_freshType (k : Kind) (src : TypeSource) : Resolves v (freshType k src) v :=
  (nameless_freshType k src).resolves (respects_freshType k src) fun _ =>
    (steady_freshType k src).follows

theorem resolves_freshParam (k : Kind) (n : Option Name) : Resolves v (freshParam k n) v :=
  (nameless_freshParam k n).resolves (respects_freshParam k n) fun _ =>
    (steady_freshParam k n).follows

theorem resolves_freshName (ident : String) : Resolves v (freshName ident) v :=
  (nameless_freshName ident).resolves (respects_freshName ident) fun _ =>
    (steady_freshName ident).follows

theorem resolves_prim (ident : String) : Resolves v (prim ident) v :=
  (nameless_prim ident).resolves (respects_prim ident) fun _ => (steady_prim ident).follows

theorem resolves_newSelectorGoal (sel : Selector) (record field : Ty) :
    Resolves v (newSelectorGoal sel record field) v :=
  (nameless_newSelectorGoal ..).resolves (respects_newSelectorGoal ..) fun _ =>
    (steady_newSelectorGoal ..).follows

theorem resolves_addGoals (src : GoalSource) (ps : List Ty) : Resolves v (addGoals src ps) v :=
  (nameless_addGoals ..).resolves (respects_addGoals ..) fun _ => (steady_addGoals ..).follows

/-- Only the goals of the store change. -/
theorem resolves_modifyGoals (f : State → List Goal) :
    Resolves v (modify fun s => { s with goals := f s } : Infer PUnit) v where
  bound _ he := by cases he
  provides hs ha := by
    rw [returns_modify.mp ha]
    exact { hs with }

theorem resolves_unifyFrom (src : GoalSource) (exp : Expected) (actual : Ty) :
    Resolves v (unifyFrom src exp actual) v :=
  (nameless_unifyFrom ..).resolves (respects_unifyFrom ..) fun _ => (steady_unifyFrom ..).follows

theorem resolves_unifyExact (exp : Expected) (actual : Ty) : Resolves v (unifyExact exp actual) v :=
  resolves_unifyFrom ..

theorem resolves_expectArrow (src : TypeSource) (n i : Nat) (t : Ty) :
    Resolves v (expectArrow src n i t) v :=
  (nameless_expectArrow ..).resolves (respects_expectArrow ..) fun _ =>
    (steady_expectArrow ..).follows

theorem resolves_expectTuple (n : Nat) (exp : Expected) : Resolves v (expectTuple n exp) v :=
  (nameless_expectTuple ..).resolves (respects_expectTuple ..) fun _ =>
    (steady_expectTuple ..).follows

theorem resolves_expectRecord (labels : List String) (exp : Expected) :
    Resolves v (expectRecord labels exp) v :=
  (nameless_expectRecord ..).resolves (respects_expectRecord ..) fun _ =>
    (steady_expectRecord ..).follows

theorem resolves_expectSeq (exp : Expected) : Resolves v (expectSeq exp) v :=
  (nameless_expectSeq _).resolves (respects_expectSeq _) fun _ => (steady_expectSeq _).follows

theorem resolves_simplifyGoals (gs : List Goal) : Resolves v (simplifyGoals gs) v :=
  (nameless_simplifyGoals _).resolves (respects_simplifyGoals _) fun _ =>
    (steady_simplifyGoals _).follows

theorem resolves_simplifyStore (ask : Bool) : Resolves v (simplifyStore ask) v :=
  (nameless_simplifyStore _).resolves (respects_simplifyStore _) fun _ =>
    (mirrored_simplifyStore (δ := Unit) ask).toFollows

theorem resolves_proveSignature (src : GoalSource) (params : List Param) (gs : List Goal) :
    Resolves v (proveSignature src params gs) v :=
  (nameless_proveSignature ..).resolves (respects_proveSignature ..) fun _ =>
    (mirrored_proveSignature (δ := Unit) src params gs).toFollows

theorem resolves_generalize (ds : List Core.Decl) (goals : List Goal) (group : List (Int × Int)) :
    Resolves v (generalize ds goals group) v :=
  (nameless_generalize ..).resolves (respects_generalize ..) fun _ => (steady_generalize ..).follows

theorem resolves_instantiate (sc : Schema) (given : Table Int Ty)
    (source : Nat → Param → TypeSource) : Resolves v (instantiate sc given source) v :=
  (nameless_instantiate ..).resolves (respects_instantiate ..) fun _ =>
    (steady_instantiate ..).follows

theorem resolves_monoDecl (n : Name) (t : Ty) (e : Core.Term) : Resolves v (monoDecl n t e) v :=
  (nameless_monoDecl ..).resolves (respects_monoDecl ..) fun _ => (steady_monoDecl ..).follows

theorem resolves_part (whole : Matched) (sel : Selector) (t : Ty) (m : Matched) :
    Resolves v (whole.part sel t m) v :=
  (nameless_part ..).resolves (respects_part ..) fun _ => (steady_part ..).follows

theorem resolves_openSpine (k : Nat) (exp : Expected) (slots : List (Ty × Nat)) :
    Resolves v (openSpine k exp slots) v :=
  (nameless_openSpine ..).resolves (respects_openSpine ..) fun _ => (steady_openSpine ..).follows

theorem resolves_checkRepeated (seen : List Int) (vs : List (Name × Ty)) :
    Resolves v (checkRepeated seen vs) v :=
  (nameless_checkRepeated ..).resolves (respects_checkRepeated ..) fun _ =>
    (steady_checkRepeated ..).follows

end Infer
end SizedTypes
