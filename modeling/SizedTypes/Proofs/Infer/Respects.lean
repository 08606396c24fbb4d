import SizedTypes.Proofs.Infer.Kinding

/-!
# Relations that small computations respect

Almost all computations of a run are put together from a few steps: a message, something fresh, a
goal, a binding. A relation between the state before and the state after that every such step
respects is respected by whatever is put together from them.
-/

set_option autoImplicit false

namespace SizedTypes.Infer

open Surface (TypeExpr)

/-- What the steps are that small computations are put together from. -/
class Rules (R : State → State → Prop) : Prop where
  refl (s : State) : R s s
  trans {s s₁ s' : State} : R s s₁ → R s₁ s' → R s s'
  error (s : State) (e : Diagnostic) : R s { s with errors := s.errors ++ [e] }
  message (s : State) (warnings : List WarningAt) (events : List Event) :
    R s { s with warnings, events }
  draw (s : State) (supply : Supply) (nextTypeVar : Int) (draws : Nat) :
    R s { s with supply, nextTypeVar, draws }
  goals (s : State) (goals : List Goal) : R s { s with goals }
  bind (s : State) (θ : Subst) : (s.subst.Triangular → θ.Triangular) → R s { s with subst := θ }
  /-- A new existential variable goes to the innermost scope. -/
  existential {s : State} {innermost : List (String × Ty)} {outer : List (List (String × Ty))}
    {ident : String} (t : Ty) : s.existentials = innermost :: outer →
    (s.existentials.findSome? fun scope => scope.lookup ident) = none →
    R s { s with existentials := ((ident, t) :: innermost) :: outer }
  select {sel : Selector} {record field : Ty} {c : Context} {s s' : State} {id : Int} :
    Returns (newSelectorGoal sel record field) c s id s' → R s s'

/-- Besides, type parameters can be brought into scope. -/
class NamingRules (R : State → State → Prop) : Prop extends Rules R where
  name (s : State) (typeVars : Table Int Param) : R s { s with typeVars }

/-- The states before and after the computation are in the relation. -/
structure Respects (R : State → State → Prop) {α : Type} (act : Infer α) : Prop where
  step : ∀ {c : Context} {s s' : State} {a : α}, Returns act c s a s' → R s s'

variable {R : State → State → Prop}

namespace Respects

variable {α β : Type}

@[simp] theorem throw (e : InternalError) : Respects R (MonadExcept.throw e : Infer α) where
  step h := absurd h not_returns_throw

theorem throw_bind {e : InternalError} {f : α → Infer β} :
    Respects R (MonadExcept.throw e >>= f) where
  step h := by
    obtain ⟨a, s₁, h, -⟩ := returns_bind.mp h
    exact absurd h not_returns_throw

theorem modify {f : State → State} (h : ∀ s, R s (f s)) :
    Respects R (modify f : Infer PUnit) where
  step hf := returns_modify.mp hf ▸ h _

theorem withRange {r : Range} {act : Infer α} (h : Respects R act) :
    Respects R (withRange r act) where
  step ha := h.step (returns_withReader.mp ha)

theorem discard {act : Infer α} (h : Respects R act) : Respects R (Functor.discard act) where
  step ha := by
    obtain ⟨b, hb⟩ := returns_discard.mp ha
    exact h.step hb

theorem ite {p : Prop} [Decidable p] {act act' : Infer α} (h : Respects R act)
    (h' : Respects R act') : Respects R (if p then act else act') := by
  split
  · exact h
  · exact h'

/-- A computation that looks at the state and replaces it. -/
theorem getSet {f : State → State} {g : State → α} (h : ∀ s, R s (f s)) :
    Respects R (do let s ← MonadState.get; set (f s); return g s : Infer α) where
  step hr := by
    simp only [returns_get_bind, returns_set_bind, returns_pure] at hr
    rw [hr.2]
    exact h _

variable [Rules R]

@[simp] theorem pure (a : α) : Respects R (Pure.pure a : Infer α) where
  step h := (returns_pure.mp h).2 ▸ Rules.refl _

theorem bind {act : Infer α} {f : α → Infer β} (h : Respects R act) (h' : ∀ a, Respects R (f a)) :
    Respects R (act >>= f) where
  step hb := by
    obtain ⟨a, s₁, ha, hb⟩ := returns_bind.mp hb
    exact Rules.trans (h.step ha) ((h' a).step hb)

@[simp] theorem get : Respects R (MonadState.get : Infer State) where
  step h := (returns_get.mp h).2 ▸ Rules.refl _

@[simp] theorem read : Respects R (MonadReader.read : Infer Context) where
  step h := (returns_read.mp h).2 ▸ Rules.refl _

theorem forM {xs : List α} {f : α → Infer PUnit} (h : ∀ x ∈ xs, Respects R (f x)) :
    Respects R (xs.forM f) := by
  induction xs with
  | nil => exact pure PUnit.unit
  | cons x xs ih =>
    rw [List.forM_eq_forM, List.forM_cons]
    exact (h x (by simp)).bind fun _ => ih fun y hy => h y (by simp [hy])

theorem mapM {xs : List α} {f : α → Infer β} (h : ∀ x ∈ xs, Respects R (f x)) :
    Respects R (xs.mapM f) := by
  induction xs with
  | nil => exact pure []
  | cons x xs ih =>
    rw [List.mapM_cons]
    exact (h x (by simp)).bind fun _ => (ih fun y hy => h y (by simp [hy])).bind fun _ => pure _

end Respects

/-- The states before and after a check of a written type are in the relation. -/
structure KindRespects (R : State → State → Prop) {α : Type} (act : KindInfer α) : Prop where
  step : ∀ {c : Context} {k k' : Kinding} {s s' : State} {a : α},
    KindReturns act c k s a k' s' → R s s'

namespace KindRespects

variable {α β : Type}

theorem lift {act : Infer α} (h : Respects R act) : KindRespects R (liftM act : KindInfer α) where
  step ha := h.step (kindReturns_lift.mp ha).2

@[simp] theorem throw (e : InternalError) : KindRespects R (MonadExcept.throw e : KindInfer α) where
  step h := absurd h not_kindReturns_throw

theorem located {r : Range} {act : KindInfer α} (h : KindRespects R act) :
    KindRespects R (Kinding.located r act) where
  step ha := h.step (kindReturns_located.mp ha)

theorem ite {p : Prop} [Decidable p] {act act' : KindInfer α} (h : KindRespects R act)
    (h' : KindRespects R act') : KindRespects R (if p then act else act') := by
  split
  · exact h
  · exact h'

theorem run {act : KindInfer α} (h : KindRespects R act) (k : Kinding) :
    Respects R (act.run k) where
  step ha := h.step ha

variable [Rules R]

@[simp] theorem pure (a : α) : KindRespects R (Pure.pure a : KindInfer α) where
  step h := (kindReturns_pure.mp h).2.2 ▸ Rules.refl _

theorem bind {act : KindInfer α} {f : α → KindInfer β} (h : KindRespects R act)
    (h' : ∀ a, KindRespects R (f a)) : KindRespects R (act >>= f) where
  step hb := by
    obtain ⟨a, k₁, s₁, ha, hb⟩ := kindReturns_bind.mp hb
    exact Rules.trans (h.step ha) ((h' a).step hb)

@[simp] theorem get : KindRespects R (MonadState.get : KindInfer Kinding) where
  step h := by
    cases h
    exact Rules.refl _

@[simp] theorem modify (f : Kinding → Kinding) : KindRespects R (modify f : KindInfer PUnit) where
  step h := (kindReturns_modify.mp h).2 ▸ Rules.refl _

@[simp] theorem getState : KindRespects R (getThe State : KindInfer State) where
  step h := by
    cases h
    exact Rules.refl _

theorem mapM {xs : List α} {f : α → KindInfer β} (h : ∀ x ∈ xs, KindRespects R (f x)) :
    KindRespects R (xs.mapM f) := by
  induction xs with
  | nil => exact pure []
  | cons x xs ih =>
    rw [List.mapM_cons]
    exact (h x (by simp)).bind fun _ => (ih fun y hy => h y (by simp [hy])).bind fun _ => pure _

end KindRespects

variable [Rules R]

/-! ## Messages, fresh things and goals -/

@[simp] theorem respects_currentRange : Respects R currentRange :=
  Respects.read.bind fun _ => .pure _

@[simp] theorem respects_recordError (e : TypeError) : Respects R (recordError e) :=
  respects_currentRange.bind fun _ => .modify fun s => Rules.error s _

@[simp] theorem respects_recordWarning (w : Warning) : Respects R (recordWarning w) :=
  .ite (respects_currentRange.bind fun _ => .modify fun s => Rules.message s _ _) (.pure _)

@[simp] theorem respects_trace (e : Event) : Respects R (trace e) :=
  .modify fun s => Rules.message s _ _

@[simp] theorem respects_freshVar (k : Kind) (src : TypeSource) : Respects R (freshVar k src) :=
  .getSet fun s => Rules.draw s _ _ _

@[simp] theorem respects_freshType (k : Kind) (src : TypeSource) : Respects R (freshType k src) :=
  (respects_freshVar k src).bind fun _ => .pure _

@[simp] theorem respects_freshParam (k : Kind) (n : Option Name) : Respects R (freshParam k n) :=
  .getSet fun s => Rules.draw s _ _ _

@[simp] theorem respects_freshName (ident : String) : Respects R (freshName ident) :=
  .getSet fun s => Rules.draw s _ _ _

@[simp] theorem respects_prim (ident : String) : Respects R (prim ident) := by
  refine Respects.read.bind fun c => ?_
  split <;> simp

@[simp] theorem respects_applied (t : Ty) : Respects R (applied t) :=
  Respects.get.bind fun _ => .pure _

@[simp] theorem respects_newSelectorGoal (sel : Selector) (record field : Ty) :
    Respects R (newSelectorGoal sel record field) where
  step h := Rules.select h

/-- Only the goals of the store change. -/
theorem respects_modifyGoals (f : State → List Goal) :
    Respects R (modify fun s => { s with goals := f s } : Infer PUnit) :=
  .modify fun s => Rules.goals s _

@[simp] theorem respects_addGoals (src : GoalSource) (ps : List Ty) :
    Respects R (addGoals src ps) := by
  refine .forM fun p _ => ?_
  unfold addGoal
  split
  · exact .discard (respects_newSelectorGoal ..)
  · exact respects_currentRange.bind fun _ => respects_modifyGoals _

omit [Rules R] in
@[simp] theorem respects_nameParam [NamingRules R] (p : Param) : Respects R (nameParam p) := by
  unfold nameParam
  split
  · exact .pure _
  · have hinsert : ∀ n : Name, Respects R (modify fun s => { s with
        typeVars := s.typeVars.insert n.id p } : Infer PUnit) := fun _ =>
      .modify fun s => NamingRules.name s _
    exact Respects.get.bind fun _ => .ite ((respects_recordWarning _).bind fun _ => hinsert _)
      (hinsert _)

@[simp] theorem respects_lookupVar (n : Name) : Respects R (lookupVar n) := by
  refine Respects.get.bind fun _ => ?_
  split
  · exact .pure _
  · refine Respects.read.bind fun _ => ?_
    split <;> simp

/-! ## Unification and expected types -/

@[simp] theorem respects_mergeSubst (δ : Subst) : Respects R (mergeSubst δ) where
  step {_ s _ _} h := by
    unfold mergeSubst at h
    rw [returns_get_bind] at h
    split at h
    · rename_i θ hθ
      rw [returns_modify.mp h]
      exact Rules.bind s _ fun hs => Subst.triangular_merge hs hθ
    · exact absurd h not_returns_throw

@[simp] theorem respects_unifyFrom (src : GoalSource) (exp : Expected) (actual : Ty) :
    Respects R (unifyFrom src exp actual) := by
  refine Respects.get.bind fun s => ?_
  dsimp only
  split
  · exact respects_recordError _
  · exact (respects_mergeSubst _).bind fun _ => respects_addGoals ..

@[simp] theorem respects_unifyExact (exp : Expected) (actual : Ty) :
    Respects R (unifyExact exp actual) := respects_unifyFrom ..

@[simp] theorem respects_expectArrow (src : TypeSource) (n i : Nat) (t : Ty) :
    Respects R (expectArrow src n i t) := by
  induction n generalizing i t with
  | zero => exact .pure _
  | succ n ih =>
    refine (respects_applied t).bind fun u => ?_
    split
    · exact (ih ..).bind fun _ => .pure _
    · exact (respects_freshType ..).bind fun _ => (respects_freshType ..).bind fun _ =>
        (respects_unifyExact ..).bind fun _ => (ih ..).bind fun _ => .pure _

@[simp] theorem respects_expectTuple (n : Nat) (exp : Expected) :
    Respects R (expectTuple n exp) := by
  refine (respects_applied _).bind fun u => ?_
  split
  · exact .pure _
  · exact (Respects.mapM fun _ _ => respects_freshType ..).bind fun _ =>
      (respects_unifyExact ..).bind fun _ => .pure _

@[simp] theorem respects_expectRecord (labels : List String) (exp : Expected) :
    Respects R (expectRecord labels exp) := by
  refine (respects_applied _).bind fun u => ?_
  dsimp only
  split
  · exact .pure _
  · exact (Respects.mapM fun _ _ => (respects_freshType ..).bind fun _ => .pure _).bind fun _ =>
      (respects_unifyExact ..).bind fun _ => .pure _

@[simp] theorem respects_expectSeq (exp : Expected) : Respects R (expectSeq exp) := by
  refine (respects_applied _).bind fun u => ?_
  split
  · exact .pure _
  · exact (respects_freshType ..).bind fun _ => (respects_freshType ..).bind fun _ =>
      (respects_unifyExact ..).bind fun _ => .pure _

/-! ## Written types -/

/-- Only the warnings change. -/
theorem eq_of_recordWarning {w : Warning} {c : Context} {s s' : State} {a : Unit}
    (h : Returns (recordWarning w) c s a s') : ∃ ws, s' = { s with warnings := ws } := by
  unfold recordWarning currentRange at h
  split at h
  · simp only [bind_assoc, returns_read_bind, pure_bind, returns_modify] at h
    exact ⟨_, h⟩
  · exact ⟨s.warnings, (returns_pure.mp h).2⟩

namespace Kinding

theorem respects_declare (ps : List Surface.TypeParam) : KindRespects R (declare ps) := by
  refine .mapM fun p _ => KindRespects.getState.bind fun s => ?_
  have hrest : KindRespects R (do
      let tp ← freshParam p.kind (some p.name)
      modify fun k => { k with params := k.params.insert p.name.id tp }
      return tp) :=
    (KindRespects.lift (respects_freshParam ..)).bind fun _ => (KindRespects.modify _).bind fun _ =>
      .pure _
  dsimp only
  split
  · exact .ite ((KindRespects.lift (respects_recordWarning _)).bind fun _ => hrest) hrest
  · exact hrest

theorem respects_emit (src : GoalSource) (ps : List Ty) : KindRespects R (emit src ps) :=
  (KindRespects.lift respects_currentRange).bind fun _ => .modify _

theorem respects_placeholder (k : Kind) : KindRespects R (placeholder k) :=
  (KindRespects.lift (respects_freshType ..)).bind fun _ => .pure _

theorem respects_atKind (k : Kind) (r : Ty × Kind) : KindRespects R (atKind k r) :=
  .ite ((KindRespects.lift (respects_recordError _)).bind fun _ => .lift (respects_freshType ..))
    (.pure _)

theorem respects_resolve (n : Name) (arity : Nat) (k : Kind) :
    KindRespects R (resolve n arity k) := by
  have hlookup : ∀ {α : Type} (f : Context → State → α),
      Respects R (do return f (← read) (← get) : Infer α) :=
    fun f => Respects.read.bind fun _ => Respects.get.bind fun _ => .pure _
  refine KindRespects.get.bind fun s => ?_
  split
  · exact .ite (.pure _) ((KindRespects.modify _).bind fun _ => .pure _)
  · refine KindRespects.getState.bind fun s => ?_
    refine (KindRespects.lift (Respects.get.bind fun _ => .pure _)).bind fun p => ?_
    dsimp only
    generalize (if arity = 0 then _ else none) = outer
    split
    · exact .pure _
    · refine (KindRespects.lift (hlookup _)).bind fun ts => ?_
      split
      · exact .pure _
      · refine (KindRespects.lift (hlookup _)).bind fun nt => ?_
        split
        · exact .pure _
        · refine (KindRespects.lift (hlookup _)).bind fun pt => ?_
          split <;> simp

theorem existentials_freshType {kd : Kind} {src : TypeSource} {c : Context} {s s' : State} {t : Ty}
    (h : Returns (freshType kd src) c s t s') : s'.existentials = s.existentials := by
  unfold freshType freshVar at h
  simp only [bind_assoc, returns_get_bind, returns_set_bind, pure_bind, returns_pure] at h
  rw [h.2]

theorem existentials_recordWarning {w : Warning} {c : Context} {s s' : State} {a : Unit}
    (h : Returns (recordWarning w) c s a s') : s'.existentials = s.existentials := by
  obtain ⟨ws, rfl⟩ := eq_of_recordWarning h
  rfl

theorem respects_existential (ident : String) (kd : Kind) :
    KindRespects R (existential ident kd) where
  step {c k k' s s' t} h := by
    unfold existential at h
    rw [kindReturns_getState_bind] at h
    split at h
    · simp only [kindReturns_lift_bind, kindReturns_lift] at h
      obtain ⟨⟨⟩, s₁, herr, rfl, hfresh⟩ := h
      exact Rules.trans ((respects_recordError _).step herr) ((respects_freshType ..).step hfresh)
    · rename_i innermost outer hscopes
      split at h
      · rw [kindReturns_pure] at h
        exact h.2.2 ▸ Rules.refl _
      · rename_i hnone
        -- with or without a warning, a fresh variable enters the innermost scope
        have hnew : ∀ {s₁ s₂ : State} {t : Ty}, R s s₁ → s₁.existentials = s.existentials →
            Returns (freshType kd (.existential ident)) c s₁ t s₂ →
            R s { s₂ with existentials := ((ident, t) :: innermost) :: outer } := by
          intro s₁ s₂ t h₁ hsame hfresh
          have hs₂ := (existentials_freshType hfresh).trans hsame
          refine Rules.trans (Rules.trans h₁ ((respects_freshType ..).step hfresh)) ?_
          refine Rules.existential t (hs₂.trans hscopes) ?_
          rw [hs₂, hscopes]
          exact hnone
        split at h
        · simp only [kindReturns_lift_bind, kindReturns_modifyState_bind, kindReturns_pure] at h
          obtain ⟨⟨⟩, s₁, hwarn, t, s₂, hfresh, rfl, rfl, rfl⟩ := h
          exact hnew ((respects_recordWarning _).step hwarn) (existentials_recordWarning hwarn)
            hfresh
        · simp only [kindReturns_lift_bind, kindReturns_modifyState_bind, kindReturns_pure] at h
          obtain ⟨t, s₂, hfresh, rfl, rfl, rfl⟩ := h
          exact hnew (Rules.refl s) rfl hfresh

mutual
theorem respects_infer : ∀ (t : TypeExpr) (hint : Kind), KindRespects R (infer t hint)
  | .located r t, hint => by
    rw [infer]
    exact .located (respects_infer t hint)
  | .bit, _ | .num _, _ | .char _, _ => by
    rw [infer]
    exact .pure _
  | .seq len elem, _ => by
    rw [infer]
    exact (respects_infer len _).bind fun _ => (respects_atKind ..).bind fun _ =>
      (respects_infer elem _).bind fun _ => (respects_atKind ..).bind fun _ => .pure _
  | .arrow a b, _ => by
    rw [infer]
    exact (respects_infer a _).bind fun _ => (respects_atKind ..).bind fun _ =>
      (respects_infer b _).bind fun _ => (respects_atKind ..).bind fun _ => .pure _
  | .tuple ts, _ => by
    rw [infer]
    exact (respects_checkEach ts).bind fun _ => .pure _
  | .record fs, _ => by
    rw [infer]
    exact (respects_checkFields fs).bind fun _ => .pure _
  | .wildcard, hint => by
    have hfresh : KindRespects R (do
        return (← freshType (hint.orElse .type) .wildcard, hint.orElse .type) :
          KindInfer (Ty × Kind)) :=
      (KindRespects.lift (respects_freshType ..)).bind fun _ => .pure _
    rw [infer]
    refine KindRespects.get.bind fun _ => .ite ?_ hfresh
    exact (KindRespects.lift (respects_recordError _)).bind fun _ => hfresh
  | .existential ident, hint => by
    rw [infer]
    exact (respects_existential ..).bind fun _ => .pure _
  | .builtin c args, hint => by
    rw [infer]
    refine .ite ?_ ?_
    · exact (KindRespects.lift (respects_recordError _)).bind fun _ => respects_placeholder _
    · exact (respects_checkArgs args _).bind fun _ => (respects_emit ..).bind fun _ => .pure _
  | .named n args, hint => by
    rw [infer]
    refine (respects_resolve ..).bind fun r => ?_
    split
    · exact .pure _
    · exact (KindRespects.lift (respects_recordError _)).bind fun _ => respects_placeholder _
    · refine .ite ?_ ?_
      · exact (KindRespects.lift (respects_recordError _)).bind fun _ => respects_placeholder _
      · exact (respects_checkArgs args _).bind fun _ => (respects_emit ..).bind fun _ => .pure _

theorem respects_checkEach : ∀ ts : List TypeExpr, KindRespects R (Kinding.checkEach ts)
  | [] => by
    rw [Kinding.checkEach]
    exact .pure _
  | t :: ts => by
    rw [Kinding.checkEach]
    exact (respects_infer t _).bind fun _ => (respects_atKind ..).bind fun _ =>
      (respects_checkEach ts).bind fun _ => .pure _

theorem respects_checkFields : ∀ fs : List (String × TypeExpr), KindRespects R (checkFields fs)
  | [] => by
    rw [checkFields]
    exact .pure _
  | (l, t) :: fs => by
    rw [checkFields]
    exact (respects_infer t _).bind fun _ => (respects_atKind ..).bind fun _ =>
      (respects_checkFields fs).bind fun _ => .pure _

theorem respects_checkArgs : ∀ (ts : List TypeExpr) (k : Kind), KindRespects R (checkArgs k ts)
  | [], k => by
    rw [checkArgs]
    exact .pure _
  | t :: ts, .arrow dom cod => by
    rw [checkArgs]
    exact (respects_infer t _).bind fun _ => (respects_atKind ..).bind fun _ =>
      (respects_checkArgs ts cod).bind fun _ => .pure _
  | _ :: _, .type | _ :: _, .num | _ :: _, .prop | _ :: _, .unknown => by
    simp [checkArgs]
end

theorem respects_check (t : TypeExpr) (k : Kind) : KindRespects R (check t k) :=
  (respects_infer t k).bind fun _ => respects_atKind ..

theorem respects_checkProps (ts : List TypeExpr) : KindRespects R (checkProps ts) := by
  induction ts with
  | nil => exact .pure _
  | cons t ts ih => exact (respects_check t _).bind fun _ => ih.bind fun _ => .pure _

end Kinding

@[simp] theorem respects_checkType (t : TypeExpr) (k : Kind) : Respects R (checkType t k) :=
  ((Kinding.respects_check t k).run _).bind fun _ => (respects_modifyGoals _).bind fun _ => .pure _

@[simp] theorem respects_checkSignature (sig : Surface.Signature) :
    Respects R (checkSignature sig) :=
  .withRange <| ((Kinding.respects_declare _).run _).bind fun _ =>
    ((Kinding.respects_checkProps _).run _).bind fun _ =>
    ((Kinding.respects_check ..).run _).bind fun _ => .pure _

end SizedTypes.Infer
