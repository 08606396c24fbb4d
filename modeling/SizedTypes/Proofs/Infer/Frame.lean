import SizedTypes.Proofs.Infer.Respects
import SizedTypes.Proofs.Infer.Respects.Checks

/-!
# What a check leaves as it was

Checks that declare nothing leave the variables and the scopes of a run as they were, keep the
errors and the types of existential variables, and extend the substitution one binding at a time. So
do solving and simplifying goals, taking defaults, generalizing a group, using a variable and
checking a pattern.
-/

set_option autoImplicit false

namespace SizedTypes.Infer

open Surface (Enumeration Pattern TypeArg TypeExpr)

/-- The type of an existential variable in an open scope. -/
def State.existential (s : State) (ident : String) : Option Ty :=
  s.existentials.findSome? fun scope => scope.lookup ident

/-- What every computation keeps from `s` to `s'`. -/
structure Kept (s s' : State) : Prop where
  errors : s.errors <+: s'.errors
  triangular : s.subst.Triangular → s'.subst.Triangular
  /-- Existential variables are added to the innermost scope only. -/
  outer : s'.existentials.tail = s.existentials.tail
  closed : s.existentials = [] → s'.existentials = []
  kept : ∀ ident t, s.existential ident = some t → s'.existential ident = some t

namespace Kept

variable {s s₁ s' : State}

theorem trans (h : Kept s s₁) (h' : Kept s₁ s') : Kept s s' where
  errors := h.errors.trans h'.errors
  triangular hs := h'.triangular (h.triangular hs)
  outer := h'.outer.trans h.outer
  closed hs := h'.closed (h.closed hs)
  kept ident t ht := h'.kept ident t (h.kept ident t ht)

theorem of_fields (herrors : s.errors <+: s'.errors) (hsubst : s'.subst = s.subst)
    (hex : s'.existentials = s.existentials) : Kept s s' where
  errors := herrors
  triangular h := hsubst ▸ h
  outer := congrArg List.tail hex
  closed h := hex.trans h
  kept ident t ht := by
    rw [State.existential, hex]
    exact ht

theorem refl (s : State) : Kept s s := of_fields List.prefix_rfl rfl rfl

end Kept

/-- `s'` comes after `s` by a computation that declares nothing. -/
structure Frame (s s' : State) : Prop extends Kept s s' where
  vars : s'.vars = s.vars
  stash : s'.stash = s.stash
  scopes : s'.scopes = s.scopes

namespace Frame

variable {s s₁ s' : State}

theorem refl (s : State) : Frame s s := ⟨.refl s, rfl, rfl, rfl⟩

theorem trans (h : Frame s s₁) (h' : Frame s₁ s') : Frame s s' :=
  ⟨h.toKept.trans h'.toKept, h'.vars.trans h.vars, h'.stash.trans h.stash,
    h'.scopes.trans h.scopes⟩

/-- A state that differs in counters, goals, assumptions and messages only. -/
theorem of_fields (hvars : s'.vars = s.vars) (hstash : s'.stash = s.stash)
    (hscopes : s'.scopes = s.scopes) (herrors : s.errors <+: s'.errors)
    (hsubst : s'.subst = s.subst) (hex : s'.existentials = s.existentials) : Frame s s' :=
  ⟨.of_fields herrors hsubst hex, hvars, hstash, hscopes⟩

theorem of_subst {θ : Subst} (h : s.subst.Triangular → θ.Triangular) :
    Frame s { s with subst := θ } :=
  { refl s with triangular := h }

/-- A new existential variable goes to the innermost scope. -/
theorem existential {s : State} {innermost : List (String × Ty)}
    {outer : List (List (String × Ty))} (hs : s.existentials = innermost :: outer) {ident : String}
    (hnew : s.existential ident = none) (t : Ty) :
    Frame s { s with existentials := ((ident, t) :: innermost) :: outer } :=
  { refl s with
    outer := by rw [hs]; rfl
    closed := fun hnil => by rw [hs] at hnil; cases hnil
    kept := fun name u hu => by
      have hne : name ≠ ident := by
        rintro rfl
        rw [hnew] at hu
        cases hu
      rw [State.existential, hs, List.findSome?_cons] at hu
      rw [State.existential, List.findSome?_cons, List.lookup_cons, beq_false_of_ne hne]
      exact hu }

end Frame

instance : Rules Frame where
  refl := .refl
  trans := .trans
  error _ _ := .of_fields rfl rfl rfl (List.prefix_append ..) rfl rfl
  message _ _ _ := .of_fields rfl rfl rfl List.prefix_rfl rfl rfl
  draw _ _ _ _ := .of_fields rfl rfl rfl List.prefix_rfl rfl rfl
  goals _ _ := .of_fields rfl rfl rfl List.prefix_rfl rfl rfl
  bind _ _ h := .of_subst h
  existential t hs hnew := .existential hs hnew t
  select h := by
    simp only [newSelectorGoal, freshGoal, currentRange, bind_assoc, returns_get_bind,
      returns_set_bind, pure_bind, returns_read_bind, returns_modify_bind, returns_pure] at h
    rw [h.2]
    exact .of_fields rfl rfl rfl List.prefix_rfl rfl rfl

instance : NamingRules Frame where
  name _ _ := .of_fields rfl rfl rfl List.prefix_rfl rfl rfl

/-- A computation that declares nothing. -/
structure Framed {α : Type} (act : Infer α) : Prop where
  step : ∀ {c : Context} {s s' : State} {a : α}, Returns act c s a s' → Frame s s'

theorem Respects.framed {α : Type} {act : Infer α} (h : Respects Frame act) : Framed act := ⟨h.step⟩

namespace Framed

variable {α β : Type}

theorem respects {act : Infer α} (h : Framed act) : Respects Frame act := ⟨h.step⟩

@[simp] theorem pure (a : α) : Framed (Pure.pure a : Infer α) := (Respects.pure a).framed

theorem bind {act : Infer α} {f : α → Infer β} (h : Framed act) (h' : ∀ a, Framed (f a)) :
    Framed (act >>= f) := (h.respects.bind fun a => (h' a).respects).framed

@[simp] theorem get : Framed (MonadState.get : Infer State) := Respects.get.framed

@[simp] theorem read : Framed (MonadReader.read : Infer Context) := Respects.read.framed

@[simp] theorem throw (e : InternalError) : Framed (MonadExcept.throw e : Infer α) :=
  (Respects.throw e).framed

theorem throw_bind {e : InternalError} {f : α → Infer β} :
    Framed (MonadExcept.throw e >>= f) := Respects.throw_bind.framed

theorem modify {f : State → State} (h : ∀ s, Frame s (f s)) :
    Framed (modify f : Infer PUnit) := (Respects.modify h).framed

theorem withRange {r : Range} {act : Infer α} (h : Framed act) : Framed (withRange r act) :=
  h.respects.withRange.framed

theorem discard {act : Infer α} (h : Framed act) : Framed (Functor.discard act) :=
  h.respects.discard.framed

theorem ite {p : Prop} [Decidable p] {act act' : Infer α} (h : Framed act) (h' : Framed act') :
    Framed (if p then act else act') := (h.respects.ite h'.respects).framed

theorem forM {xs : List α} {f : α → Infer PUnit} (h : ∀ x ∈ xs, Framed (f x)) :
    Framed (xs.forM f) := (Respects.forM fun x hx => (h x hx).respects).framed

theorem mapM {xs : List α} {f : α → Infer β} (h : ∀ x ∈ xs, Framed (f x)) :
    Framed (xs.mapM f) := (Respects.mapM fun x hx => (h x hx).respects).framed

/-- A computation that looks at the state and replaces it. -/
theorem getSet {f : State → State} {g : State → α} (h : ∀ s, Frame s (f s)) :
    Framed (do let s ← MonadState.get; set (f s); return g s : Infer α) :=
  (Respects.getSet h).framed

end Framed

/-! ## Messages, fresh things and goals -/

@[simp] theorem framed_currentRange : Framed currentRange := respects_currentRange.framed

@[simp] theorem framed_recordError (e : TypeError) : Framed (recordError e) :=
  (respects_recordError ..).framed

@[simp] theorem framed_recordWarning (w : Warning) : Framed (recordWarning w) :=
  (respects_recordWarning ..).framed

@[simp] theorem framed_trace (e : Event) : Framed (trace e) := (respects_trace ..).framed

@[simp] theorem framed_freshVar (k : Kind) (src : TypeSource) : Framed (freshVar k src) :=
  (respects_freshVar ..).framed

@[simp] theorem framed_freshType (k : Kind) (src : TypeSource) : Framed (freshType k src) :=
  (respects_freshType ..).framed

@[simp] theorem framed_freshParam (k : Kind) (n : Option Name) : Framed (freshParam k n) :=
  (respects_freshParam ..).framed

@[simp] theorem framed_freshName (ident : String) : Framed (freshName ident) :=
  (respects_freshName ..).framed

@[simp] theorem framed_prim (ident : String) : Framed (prim ident) := (respects_prim ..).framed

@[simp] theorem framed_applied (t : Ty) : Framed (applied t) := (respects_applied ..).framed

@[simp] theorem framed_newSelectorGoal (sel : Selector) (record field : Ty) :
    Framed (newSelectorGoal sel record field) := (respects_newSelectorGoal ..).framed

/-- Only the goals of the store change. -/
theorem framed_modifyGoals (f : State → List Goal) :
    Framed (modify fun s => { s with goals := f s } : Infer PUnit) :=
  (respects_modifyGoals ..).framed

@[simp] theorem framed_addGoals (src : GoalSource) (ps : List Ty) : Framed (addGoals src ps) :=
  (respects_addGoals ..).framed

@[simp] theorem framed_nameParam (p : Param) : Framed (nameParam p) :=
  (respects_nameParam ..).framed

@[simp] theorem framed_lookupVar (n : Name) : Framed (lookupVar n) := (respects_lookupVar ..).framed

/-! ## Unification and expected types -/

@[simp] theorem framed_unifyFrom (src : GoalSource) (exp : Expected) (actual : Ty) :
    Framed (unifyFrom src exp actual) := (respects_unifyFrom ..).framed

@[simp] theorem framed_unifyExact (exp : Expected) (actual : Ty) :
    Framed (unifyExact exp actual) := (respects_unifyExact ..).framed

@[simp] theorem framed_expectArrow (src : TypeSource) (n i : Nat) (t : Ty) :
    Framed (expectArrow src n i t) := (respects_expectArrow ..).framed

@[simp] theorem framed_expectTuple (n : Nat) (exp : Expected) : Framed (expectTuple n exp) :=
  (respects_expectTuple ..).framed

@[simp] theorem framed_expectRecord (labels : List String) (exp : Expected) :
    Framed (expectRecord labels exp) := (respects_expectRecord ..).framed

@[simp] theorem framed_expectSeq (exp : Expected) : Framed (expectSeq exp) :=
  (respects_expectSeq ..).framed

/-! ## Written types -/

/-- A check of a written type that leaves the run as it was. -/
structure KindFramed {α : Type} (act : KindInfer α) : Prop where
  step : ∀ {c : Context} {k k' : Kinding} {s s' : State} {a : α},
    KindReturns act c k s a k' s' → Frame s s'

theorem KindRespects.framed {α : Type} {act : KindInfer α} (h : KindRespects Frame act) :
    KindFramed act := ⟨h.step⟩

namespace KindFramed

variable {α β : Type}

theorem respects {act : KindInfer α} (h : KindFramed act) : KindRespects Frame act := ⟨h.step⟩

@[simp] theorem pure (a : α) : KindFramed (Pure.pure a : KindInfer α) :=
  (KindRespects.pure a).framed

theorem bind {act : KindInfer α} {f : α → KindInfer β} (h : KindFramed act)
    (h' : ∀ a, KindFramed (f a)) : KindFramed (act >>= f) :=
  (h.respects.bind fun a => (h' a).respects).framed

@[simp] theorem get : KindFramed (MonadState.get : KindInfer Kinding) := KindRespects.get.framed

@[simp] theorem modify (f : Kinding → Kinding) : KindFramed (modify f : KindInfer PUnit) :=
  (KindRespects.modify f).framed

@[simp] theorem getState : KindFramed (getThe State : KindInfer State) :=
  KindRespects.getState.framed

theorem lift {act : Infer α} (h : Framed act) : KindFramed (liftM act : KindInfer α) :=
  (KindRespects.lift h.respects).framed

@[simp] theorem throw (e : InternalError) : KindFramed (MonadExcept.throw e : KindInfer α) :=
  (KindRespects.throw e).framed

theorem located {r : Range} {act : KindInfer α} (h : KindFramed act) :
    KindFramed (Kinding.located r act) := h.respects.located.framed

end KindFramed

namespace Kinding

theorem framed_declare (ps : List Surface.TypeParam) : KindFramed (declare ps) :=
  (respects_declare ..).framed

theorem framed_emit (src : GoalSource) (ps : List Ty) : KindFramed (emit src ps) :=
  (respects_emit ..).framed

theorem framed_placeholder (k : Kind) : KindFramed (placeholder k) :=
  (respects_placeholder ..).framed

theorem framed_existential (ident : String) (kd : Kind) : KindFramed (existential ident kd) :=
  (respects_existential ..).framed

theorem framed_infer (t : TypeExpr) (hint : Kind) : KindFramed (infer t hint) :=
  (respects_infer ..).framed

theorem framed_checkFields (fs : List (String × TypeExpr)) : KindFramed (checkFields fs) :=
  (respects_checkFields ..).framed

theorem framed_check (t : TypeExpr) (k : Kind) : KindFramed (check t k) :=
  (respects_check ..).framed

theorem framed_checkProps (ts : List TypeExpr) : KindFramed (checkProps ts) :=
  (respects_checkProps ..).framed

end Kinding

@[simp] theorem framed_checkType (t : TypeExpr) (k : Kind) : Framed (checkType t k) :=
  (respects_checkType ..).framed

@[simp] theorem framed_checkSignature (sig : Surface.Signature) : Framed (checkSignature sig) :=
  (respects_checkSignature ..).framed

/-! ## Selector goals -/

instance : SelectorRules Frame where
  solution _ _ := .of_fields rfl rfl rfl List.prefix_rfl rfl rfl
  pending _ _ := .of_fields rfl rfl rfl List.prefix_rfl rfl rfl

theorem framed_modifyPending (f : State → List SelectorGoal) :
    Framed (modify fun s => { s with pending := f s } : Infer PUnit) :=
  (respects_modifyPending f).framed

@[simp] theorem framed_solveSelectors : Framed solveSelectors := respects_selectorRounds.framed

instance : SolvingRules Frame where
  solve h := framed_solveSelectors.step h
  ask _ _ _ := .of_fields rfl rfl rfl List.prefix_rfl rfl rfl

/-! ## Goals -/

@[simp] theorem framed_simplifyGoals (gs : List Goal) : Framed (simplifyGoals gs) :=
  (respects_simplifyGoals ..).framed

@[simp] theorem framed_simplifyStore (ask : Bool) : Framed (simplifyStore ask) :=
  (respects_simplifyStore ..).framed

@[simp] theorem framed_proveSignature (src : GoalSource) (params : List Param) (gs : List Goal) :
    Framed (proveSignature src params gs) := (respects_proveSignature ..).framed

@[simp] theorem framed_defaultVars (vs : List TyVar) (goals : List Goal) :
    Framed (defaultVars vs goals) := (respects_defaultVars ..).framed

/-! ## Generalization -/

@[simp] theorem framed_generalize (ds : List Core.Decl) (goals : List Goal)
    (group : List (Int × Int)) : Framed (generalize ds goals group) :=
  (respects_generalize ..).framed

/-! ## Uses and literals -/

@[simp] theorem framed_checkVar (n : Name) (args : List TypeArg) (exp : Expected) :
    Framed (checkVar n args exp) := (respects_checkVar ..).framed

@[simp] theorem framed_checkPrim (src : GoalSource) (ident : String) (args : List (String × Ty))
    (exp : Expected) : Framed (checkPrim src ident args exp) := (respects_checkPrim ..).framed

@[simp] theorem framed_checkNum (value base digits : Int) (exp : Expected) :
    Framed (checkNum value base digits exp) := (respects_checkNum ..).framed

@[simp] theorem framed_checkString (str : String) (exp : Expected) :
    Framed (checkString str exp) := (respects_checkString ..).framed

theorem framed_checkBound (label : String) (t : Option TypeExpr) : Framed (checkBound label t) :=
  (respects_checkBound ..).framed

@[simp] theorem framed_checkEnumeration (e : Enumeration) (exp : Expected) :
    Framed (checkEnumeration e exp) := (respects_checkEnumeration ..).framed

/-! ## Patterns -/

@[simp] theorem framed_monoDecl (n : Name) (t : Ty) (e : Core.Term) : Framed (monoDecl n t e) :=
  (respects_monoDecl ..).framed

theorem framed_checkPattern (p : Pattern) (exp : Expected) : Framed (checkPattern p exp) :=
  (respects_checkPattern ..).framed

end SizedTypes.Infer
