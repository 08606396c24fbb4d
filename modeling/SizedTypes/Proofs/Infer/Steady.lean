import SizedTypes.Infer.Expr
import SizedTypes.Proofs.Infer.Ignores
import SizedTypes.Run

/-!
# Computations apart from the solver

A run keeps a record of its solver: the queries asked so far and whether it has been cancelled.
Almost all computations neither look at the record nor change it, nor do they ask the solver. They
do the same whatever the solver and the record are.
-/

set_option autoImplicit false

namespace SizedTypes.Infer

open Surface (Enumeration Pattern TypeArg TypeExpr)

/-- The state with another record of the solver. -/
def State.under (s : State) (queries : List Query) (cancelled : Bool) : State :=
  { s with queries, cancelled }

@[simp] theorem under_subst (s : State) (qs : List Query) (b : Bool) :
    (s.under qs b).subst = s.subst := rfl

@[simp] theorem under_assumptions (s : State) (qs : List Query) (b : Bool) :
    (s.under qs b).assumptions = s.assumptions := rfl

/-- The context with another solver. -/
def Context.asking (c : Context) (solver : Solver) : Context := { c with solver }

/-- A computation that has nothing to do with the solver. -/
structure Steady {α : Type} (act : Infer α) : Prop where
  exec_under : ∀ (c : Context) (s : State) (S : Solver) (qs : List Query) (b : Bool),
    act.exec (c.asking S) (s.under qs b) = ((act.exec c s).1, (act.exec c s).2.under qs b)

namespace Steady

variable {α β : Type}

@[simp] theorem pure (a : α) : Steady (Pure.pure a : Infer α) := ⟨fun _ _ _ _ _ => rfl⟩

@[simp] theorem throw (e : InternalError) : Steady (MonadExcept.throw e : Infer α) :=
  ⟨fun _ _ _ _ _ => rfl⟩

theorem throw_bind (e : InternalError) (f : α → Infer β) :
    Steady ((MonadExcept.throw e : Infer α) >>= f) := ⟨fun _ _ _ _ _ => rfl⟩

theorem bind {act : Infer α} {f : α → Infer β} (h : Steady act) (h' : ∀ a, Steady (f a)) :
    Steady (act >>= f) where
  exec_under c s S qs b := by
    rw [exec_bind, exec_bind, h.exec_under]
    rcases act.exec c s with ⟨_ | a, s₁⟩
    · rfl
    · exact (h' a).exec_under c s₁ S qs b

theorem get_bind {f : State → Infer β} (hf : ∀ s qs b, f (s.under qs b) = f s)
    (h : ∀ s, Steady (f s)) : Steady (get >>= f) where
  exec_under c s S qs b := by
    show (f (s.under qs b)).exec (c.asking S) (s.under qs b) = _
    rw [hf]
    exact (h s).exec_under c s S qs b

/-- The computation may also put back the state at which it looks. -/
theorem of_get {f : State → Infer β} (h : ∀ c s S qs b,
    (f (s.under qs b)).exec (Context.asking c S) (s.under qs b) =
      (((f s).exec c s).1, ((f s).exec c s).2.under qs b)) : Steady (get >>= f) := ⟨h⟩

theorem read_bind {f : Context → Infer β} (hf : ∀ c S, f (c.asking S) = f c)
    (h : ∀ c, Steady (f c)) : Steady (read >>= f) where
  exec_under c s S qs b := by
    show (f (c.asking S)).exec (c.asking S) (s.under qs b) = _
    rw [hf]
    exact (h c).exec_under c s S qs b

theorem modify {f : State → State} (hf : ∀ s qs b, f (s.under qs b) = (f s).under qs b) :
    Steady (modify f : Infer PUnit) where
  exec_under c s S qs b := by
    show (Except.ok PUnit.unit, f (s.under qs b)) = (Except.ok PUnit.unit, (f s).under qs b)
    rw [hf]

theorem getSet {f : State → State} {g : State → α}
    (hf : ∀ s qs b, f (s.under qs b) = (f s).under qs b) (hg : ∀ s qs b, g (s.under qs b) = g s) :
    Steady (do let s ← get; set (f s); return g s : Infer α) where
  exec_under c s S qs b := by
    show (Except.ok (g (s.under qs b)), f (s.under qs b)) = (Except.ok (g s), (f s).under qs b)
    rw [hf, hg]

theorem withRange {r : Range} {act : Infer α} (h : Steady act) : Steady (withRange r act) :=
  ⟨fun c s S qs b => h.exec_under { c with range := r.orElse c.range } s S qs b⟩

theorem discard {act : Infer α} (h : Steady act) : Steady (Functor.discard act) := by
  show Steady ((Function.const α PUnit.unit) <$> act)
  rw [map_eq_pure_bind]
  exact h.bind fun _ => pure _

theorem ite {p : Prop} [Decidable p] {act act' : Infer α} (h : Steady act) (h' : Steady act') :
    Steady (if p then act else act') := by
  split
  · exact h
  · exact h'

theorem forM {xs : List α} {f : α → Infer PUnit} (h : ∀ x, Steady (f x)) :
    Steady (xs.forM f) := by
  induction xs with
  | nil => exact pure PUnit.unit
  | cons x xs ih =>
    rw [List.forM_eq_forM, List.forM_cons]
    exact (h x).bind fun _ => ih

theorem mapM {xs : List α} {f : α → Infer β} (h : ∀ x, Steady (f x)) : Steady (xs.mapM f) := by
  induction xs with
  | nil => exact pure []
  | cons x xs ih =>
    rw [List.mapM_cons]
    exact (h x).bind fun _ => ih.bind fun _ => pure _

theorem foldlM {xs : List α} {f : β → α → Infer β} (h : ∀ b x, Steady (f b x)) (b : β) :
    Steady (xs.foldlM f b) := by
  induction xs generalizing b with
  | nil => exact pure b
  | cons x xs ih =>
    rw [List.foldlM_cons]
    exact (h b x).bind fun b => ih b

end Steady

/-! ## Messages, fresh things and goals -/

theorem steady_currentRange : Steady currentRange := .read_bind (fun _ _ => rfl) fun _ => .pure _

theorem steady_recordError (e : TypeError) : Steady (recordError e) :=
  steady_currentRange.bind fun _ => .modify fun _ _ _ => rfl

theorem steady_recordWarning (w : Warning) : Steady (recordWarning w) :=
  .ite (steady_currentRange.bind fun _ => .modify fun _ _ _ => rfl) (.pure _)

theorem steady_trace (e : Event) : Steady (trace e) := .modify fun _ _ _ => rfl

theorem steady_freshVar (k : Kind) (src : TypeSource) : Steady (freshVar k src) :=
  .getSet (fun _ _ _ => rfl) fun _ _ _ => rfl

theorem steady_freshType (k : Kind) (src : TypeSource) : Steady (freshType k src) :=
  (steady_freshVar k src).bind fun _ => .pure _

theorem steady_freshParam (k : Kind) (n : Option Name) : Steady (freshParam k n) :=
  .getSet (fun _ _ _ => rfl) fun _ _ _ => rfl

theorem steady_freshName (ident : String) : Steady (freshName ident) :=
  .getSet (fun _ _ _ => rfl) fun _ _ _ => rfl

theorem steady_freshGoal : Steady freshGoal := .getSet (fun _ _ _ => rfl) fun _ _ _ => rfl

theorem steady_prim (ident : String) : Steady (prim ident) := by
  refine .read_bind (fun _ _ => rfl) fun c => ?_
  split <;> simp

theorem steady_applied (t : Ty) : Steady (applied t) :=
  .get_bind (fun _ _ _ => rfl) fun _ => .pure _

theorem steady_mergeSubst (δ : Subst) : Steady (mergeSubst δ) := by
  refine .get_bind (fun _ _ _ => rfl) fun s => ?_
  split
  · exact .modify fun _ _ _ => rfl
  · exact .throw _

theorem steady_newSelectorGoal (sel : Selector) (record field : Ty) :
    Steady (newSelectorGoal sel record field) :=
  steady_freshGoal.bind fun _ => steady_currentRange.bind fun _ =>
    (Steady.modify fun _ _ _ => rfl).bind fun _ => .pure _

theorem steady_addGoals (src : GoalSource) (ps : List Ty) : Steady (addGoals src ps) := by
  refine .forM fun p => ?_
  unfold addGoal
  split
  · exact .discard (steady_newSelectorGoal ..)
  · exact steady_currentRange.bind fun _ => .modify fun _ _ _ => rfl

theorem steady_nameParam (p : Param) : Steady (nameParam p) := by
  unfold nameParam
  split
  · exact .pure _
  · have hinsert := fun n : Name => Steady.modify (f := fun s => { s with
      typeVars := s.typeVars.insert n.id p }) fun _ _ _ => rfl
    refine .get_bind (fun _ _ _ => rfl) fun _ => .ite ?_ (hinsert _)
    exact (steady_recordWarning _).bind fun _ => hinsert _

theorem steady_lookupVar (n : Name) : Steady (lookupVar n) := by
  refine .get_bind (fun _ _ _ => rfl) fun s => ?_
  split
  · exact .pure _
  · refine .read_bind (fun _ _ => rfl) fun c => ?_
    split <;> simp

theorem steady_declare (n : Name) (v : VarType) : Steady (declare n v) := .modify fun _ _ _ => rfl

theorem steady_declareMono (n : Name) (t : Ty) : Steady (declareMono n t) := steady_declare ..

theorem unstash1_under (s : State) (qs : List Query) (b : Bool) :
    (s.under qs b).unstash1 = s.unstash1.under qs b := by
  rcases hst : s.stash with _ | ⟨⟨id, _ | v⟩, rest⟩
  · simp [State.unstash1, State.under, hst]
  · simp [State.unstash1, State.under, hst]
  · simp [State.unstash1, State.under, hst]

theorem steady_unstash (n : Nat) : Steady (unstash n) := by
  refine .modify fun s qs b => ?_
  induction n with
  | zero => rfl
  | succ n ih => rw [Nat.repeat, Nat.repeat, ih, unstash1_under]

theorem steady_openScope (kind : ScopeKind) (n : Name) : Steady (openScope kind n) :=
  .modify fun _ _ _ => rfl

theorem steady_popScope (kind : ScopeKind) : Steady (popScope kind) := by
  refine .get_bind (fun _ _ _ => rfl) fun s => ?_
  split
  · exact .throw _
  · exact .ite ((Steady.modify fun _ _ _ => rfl).bind fun _ => .pure _) (.throw _)

theorem steady_modifyScope (f : Core.Module → Core.Module) : Steady (modifyScope f) := by
  refine .get_bind (fun _ _ _ => rfl) fun s => ?_
  split
  · exact .throw _
  · exact .modify fun _ _ _ => rfl

theorem steady_closeBlock : Steady closeBlock := (steady_popScope _).bind fun _ => .pure _

theorem steady_closeSubmodule : Steady closeSubmodule :=
  (steady_popScope _).bind fun _ => steady_modifyScope _

theorem steady_closeTop : Steady closeTop :=
  .get_bind (fun _ _ _ => rfl) fun _ =>
    .ite (.throw_bind ..) (steady_popScope _)

/-! ## Unification and expected types -/

theorem steady_unifyFrom (src : GoalSource) (exp : Expected) (actual : Ty) :
    Steady (unifyFrom src exp actual) := by
  refine .get_bind (fun _ _ _ => rfl) fun s => ?_
  dsimp only
  split
  · exact steady_recordError _
  · exact (steady_mergeSubst _).bind fun _ => steady_addGoals ..

theorem steady_unifyExact (exp : Expected) (actual : Ty) : Steady (unifyExact exp actual) :=
  steady_unifyFrom ..

theorem steady_expectArrow (src : TypeSource) (n i : Nat) (t : Ty) :
    Steady (expectArrow src n i t) := by
  induction n generalizing i t with
  | zero => exact .pure _
  | succ n ih =>
    refine (steady_applied t).bind fun u => ?_
    split
    · exact (ih ..).bind fun _ => .pure _
    · exact (steady_freshType ..).bind fun _ => (steady_freshType ..).bind fun _ =>
        (steady_unifyExact ..).bind fun _ => (ih ..).bind fun _ => .pure _

theorem steady_expectTuple (n : Nat) (exp : Expected) : Steady (expectTuple n exp) := by
  refine (steady_applied _).bind fun u => ?_
  split
  · exact .pure _
  · exact (Steady.mapM fun _ => steady_freshType ..).bind fun _ =>
      (steady_unifyExact ..).bind fun _ => .pure _

theorem steady_expectRecord (labels : List String) (exp : Expected) :
    Steady (expectRecord labels exp) := by
  refine (steady_applied _).bind fun u => ?_
  dsimp only
  split
  · exact .pure _
  · exact (Steady.mapM fun _ => (steady_freshType ..).bind fun _ => .pure _).bind fun _ =>
      (steady_unifyExact ..).bind fun _ => .pure _

theorem steady_expectSeq (exp : Expected) : Steady (expectSeq exp) := by
  refine (steady_applied _).bind fun u => ?_
  split
  · exact .pure _
  · exact (steady_freshType ..).bind fun _ => (steady_freshType ..).bind fun _ =>
      (steady_unifyExact ..).bind fun _ => .pure _

/-! ## Written types -/

/-- Another solver with another record. -/
def Change.record (S : Solver) (qs : List Query) (b : Bool) : Change where
  solver _ := S
  queries _ := qs
  cancelled _ := b

theorem Change.state_record (S : Solver) (qs : List Query) (b : Bool) (s : State) :
    (record S qs b).state s = s.under qs b := by
  have hscopes : s.scopes.modifyHead (record S qs b).scope = s.scopes := by
    cases s.scopes <;> rfl
  rw [Change.state, hscopes]
  rfl

/-- The check of a written type has nothing to do with the solver. -/
theorem steady_kindInfer {α : Type} {act : KindInfer α} (h : ∀ σ, KindIgnores σ act)
    (k : Kinding) : Steady (act.run k) where
  exec_under c s S qs b := by
    rw [← Change.state_record S, ← Change.state_record S]
    refine ((h (.record S qs b)).exec_run k c s).trans ?_
    rcases (act.run k).exec c s with ⟨_ | _, _⟩ <;> rfl

theorem steady_checkType (t : TypeExpr) (k : Kind) : Steady (checkType t k) :=
  (steady_kindInfer (fun _ => Kinding.ignores_check t k) _).bind fun _ =>
    (Steady.modify fun _ _ _ => rfl).bind fun _ => .pure _

theorem steady_checkSignature (sig : Surface.Signature) : Steady (checkSignature sig) :=
  .withRange <| (steady_kindInfer (fun _ => Kinding.ignores_declare _) _).bind fun _ =>
    (steady_kindInfer (fun _ => Kinding.ignores_checkProps _) _).bind fun _ =>
    (steady_kindInfer (fun _ => Kinding.ignores_check ..) _).bind fun _ => .pure _

end SizedTypes.Infer
