import SizedTypes.Infer.Expr
import SizedTypes.Proofs.Infer.Monad
import SizedTypes.Proofs.Run.Stages

/-!
# Computations that look up no names

A run ends with an internal error where a name is not in scope. Most computations look up no names,
so they cannot find one missing. They may end with an error of another kind.
-/

set_option autoImplicit false

namespace SizedTypes

open SizedTypes.Core (Decl)

/-- A name was not in scope. -/
def InternalError.isUnbound : InternalError → Bool
  | .unboundVariable _ | .unboundType _ => true
  | _ => false

namespace Infer

section Runs

variable {α β : Type} {c : Context} {s : State} {e e' : InternalError}

/-- A computation, started in `s`, ends with an internal error. -/
def Fails (act : Infer α) (c : Context) (s : State) (e : InternalError) : Prop :=
  (act.exec c s).1 = .error e

@[simp] theorem not_fails_pure {a : α} : ¬Fails (pure a) c s e := nofun

@[simp] theorem fails_throw : Fails (throw e' : Infer α) c s e ↔ e = e' :=
  ⟨fun h => (Except.error.inj h).symm, fun h => h ▸ rfl⟩

@[simp] theorem fails_bind {act : Infer α} {f : α → Infer β} :
    Fails (act >>= f) c s e ↔
      Fails act c s e ∨ ∃ a s₁, Returns act c s a s₁ ∧ Fails (f a) c s₁ e := by
  unfold Fails Returns
  rw [exec_bind]
  rcases act.exec c s with ⟨_ | a, s₁⟩
  · simp
  · constructor
    · exact fun h => Or.inr ⟨a, s₁, rfl, h⟩
    · rintro (h | ⟨a', s₂, heq, h⟩)
      · cases h
      · cases heq
        exact h

theorem fails_get_bind {f : State → Infer α} : Fails (get >>= f) c s e ↔ Fails (f s) c s e := Iff.rfl

theorem fails_read_bind {f : Context → Infer α} : Fails (read >>= f) c s e ↔ Fails (f c) c s e :=
  Iff.rfl

theorem fails_withRange {r : Range} {act : Infer α} :
    Fails (withRange r act) c s e ↔ Fails act { c with range := r.orElse c.range } s e := Iff.rfl

end Runs

/-- A computation that finds no name missing. -/
structure Nameless {α : Type} (act : Infer α) : Prop where
  bound : ∀ {c : Context} {s : State} {e : InternalError}, Fails act c s e → e.isUnbound = false

namespace Nameless

variable {α β : Type}

@[simp] theorem pure (a : α) : Nameless (Pure.pure a : Infer α) := ⟨nofun⟩

theorem throw {e : InternalError} (h : e.isUnbound = false) :
    Nameless (MonadExcept.throw e : Infer α) := ⟨fun he => fails_throw.mp he ▸ h⟩

theorem get : Nameless (MonadState.get : Infer State) := ⟨nofun⟩

theorem read : Nameless (MonadReader.read : Infer Context) := ⟨nofun⟩

theorem set (s : State) : Nameless (MonadState.set s : Infer PUnit) := ⟨nofun⟩

theorem modify (f : State → State) : Nameless (modify f : Infer PUnit) := ⟨nofun⟩

theorem bind {act : Infer α} {f : α → Infer β} (h : Nameless act) (h' : ∀ a, Nameless (f a)) :
    Nameless (act >>= f) where
  bound he := by
    rcases fails_bind.mp he with he | ⟨a, s₁, -, he⟩
    · exact h.bound he
    · exact (h' a).bound he

theorem withRange {r : Range} {act : Infer α} (h : Nameless act) :
    Nameless (withRange r act) := ⟨fun he => h.bound (fails_withRange.mp he)⟩

theorem discard {act : Infer α} (h : Nameless act) : Nameless (Functor.discard act) := by
  show Nameless ((Function.const α PUnit.unit) <$> act)
  rw [map_eq_pure_bind]
  exact h.bind fun _ => pure _

theorem ite {p : Prop} [Decidable p] {act act' : Infer α} (h : Nameless act)
    (h' : Nameless act') : Nameless (if p then act else act') := by
  split
  · exact h
  · exact h'

theorem forM {xs : List α} {f : α → Infer PUnit} (h : ∀ x, Nameless (f x)) :
    Nameless (xs.forM f) := by
  induction xs with
  | nil => exact pure PUnit.unit
  | cons x xs ih =>
    rw [List.forM_eq_forM, List.forM_cons]
    exact (h x).bind fun _ => ih

theorem mapM {xs : List α} {f : α → Infer β} (h : ∀ x, Nameless (f x)) : Nameless (xs.mapM f) := by
  induction xs with
  | nil => exact pure []
  | cons x xs ih =>
    rw [List.mapM_cons]
    exact (h x).bind fun _ => ih.bind fun _ => pure _

end Nameless

/-! ## Messages, fresh things and goals -/

theorem nameless_currentRange : Nameless currentRange := Nameless.read.bind fun _ => .pure _

theorem nameless_recordError (e : TypeError) : Nameless (recordError e) :=
  nameless_currentRange.bind fun _ => .modify _

theorem nameless_recordWarning (w : Warning) : Nameless (recordWarning w) :=
  .ite (nameless_currentRange.bind fun _ => .modify _) (.pure _)

theorem nameless_trace (e : Event) : Nameless (trace e) := .modify _

theorem nameless_freshVar (k : Kind) (src : TypeSource) : Nameless (freshVar k src) :=
  Nameless.get.bind fun _ => (Nameless.set _).bind fun _ => .pure _

theorem nameless_freshType (k : Kind) (src : TypeSource) : Nameless (freshType k src) :=
  (nameless_freshVar k src).bind fun _ => .pure _

theorem nameless_freshParam (k : Kind) (n : Option Name) : Nameless (freshParam k n) :=
  Nameless.get.bind fun _ => (Nameless.set _).bind fun _ => .pure _

theorem nameless_freshName (ident : String) : Nameless (freshName ident) :=
  Nameless.get.bind fun _ => (Nameless.set _).bind fun _ => .pure _

theorem nameless_prim (ident : String) : Nameless (prim ident) := by
  refine Nameless.read.bind fun c => ?_
  split
  · exact .pure _
  · exact .throw rfl

theorem nameless_applied (t : Ty) : Nameless (applied t) := Nameless.get.bind fun _ => .pure _

theorem nameless_mergeSubst (δ : Subst) : Nameless (mergeSubst δ) := by
  refine Nameless.get.bind fun s => ?_
  split
  · exact .modify _
  · exact .throw rfl

theorem nameless_newSelectorGoal (sel : Selector) (record field : Ty) :
    Nameless (newSelectorGoal sel record field) :=
  (Nameless.get.bind fun _ => (Nameless.set _).bind fun _ => .pure _).bind fun _ =>
    nameless_currentRange.bind fun _ => (Nameless.modify _).bind fun _ => .pure _

theorem nameless_addGoals (src : GoalSource) (ps : List Ty) : Nameless (addGoals src ps) := by
  refine .forM fun p => ?_
  unfold addGoal
  split
  · exact .discard (nameless_newSelectorGoal ..)
  · exact nameless_currentRange.bind fun _ => .modify _

theorem nameless_nameParam (p : Param) : Nameless (nameParam p) := by
  unfold nameParam
  split
  · exact .pure _
  · exact Nameless.get.bind fun _ =>
      .ite ((nameless_recordWarning _).bind fun _ => .modify _) (.modify _)

/-! ## Unification and expected types -/

theorem nameless_unifyFrom (src : GoalSource) (exp : Expected) (actual : Ty) :
    Nameless (unifyFrom src exp actual) := by
  refine Nameless.get.bind fun s => ?_
  dsimp only
  split
  · exact nameless_recordError _
  · exact (nameless_mergeSubst _).bind fun _ => nameless_addGoals ..

theorem nameless_unifyExact (exp : Expected) (actual : Ty) : Nameless (unifyExact exp actual) :=
  nameless_unifyFrom ..

theorem nameless_expectArrow (src : TypeSource) (n i : Nat) (t : Ty) :
    Nameless (expectArrow src n i t) := by
  induction n generalizing i t with
  | zero => exact .pure _
  | succ n ih =>
    refine (nameless_applied t).bind fun u => ?_
    split
    · exact (ih ..).bind fun _ => .pure _
    · exact (nameless_freshType ..).bind fun _ => (nameless_freshType ..).bind fun _ =>
        (nameless_unifyExact ..).bind fun _ => (ih ..).bind fun _ => .pure _

theorem nameless_expectTuple (n : Nat) (exp : Expected) : Nameless (expectTuple n exp) := by
  refine (nameless_applied _).bind fun u => ?_
  split
  · exact .pure _
  · exact (Nameless.mapM fun _ => nameless_freshType ..).bind fun _ =>
      (nameless_unifyExact ..).bind fun _ => .pure _

theorem nameless_expectRecord (labels : List String) (exp : Expected) :
    Nameless (expectRecord labels exp) := by
  refine (nameless_applied _).bind fun u => ?_
  dsimp only
  split
  · exact .pure _
  · exact (Nameless.mapM fun _ => (nameless_freshType ..).bind fun _ => .pure _).bind fun _ =>
      (nameless_unifyExact ..).bind fun _ => .pure _

theorem nameless_expectSeq (exp : Expected) : Nameless (expectSeq exp) := by
  refine (nameless_applied _).bind fun u => ?_
  split
  · exact .pure _
  · exact (nameless_freshType ..).bind fun _ => (nameless_freshType ..).bind fun _ =>
      (nameless_unifyExact ..).bind fun _ => .pure _

/-! ## Selector goals -/

theorem nameless_setSolution (id : Int) (soln : Solution) : Nameless (setSolution id soln) :=
  .modify _

theorem nameless_solveSelectorAt (g : SelectorGoal) (record : Ty) :
    Nameless (solveSelectorAt g record) := by
  unfold solveSelectorAt
  split
  · exact (nameless_unifyFrom ..).bind fun _ => (nameless_addGoals ..).bind fun _ =>
      nameless_setSolution ..
  · exact (nameless_freshType ..).bind fun _ => (nameless_unifyFrom ..).bind fun _ =>
      (nameless_newSelectorGoal ..).bind fun _ => nameless_setSolution ..
  · exact (nameless_freshType ..).bind fun _ => (nameless_unifyFrom ..).bind fun _ =>
      (nameless_newSelectorGoal ..).bind fun _ => nameless_setSolution ..
  · exact (nameless_recordError _).bind fun _ => nameless_setSolution ..

theorem nameless_solveSelector (g : SelectorGoal) : Nameless (solveSelector g) := by
  refine (nameless_applied _).bind fun record => ?_
  split
  · exact .pure _
  · exact (nameless_solveSelectorAt g record).withRange.bind fun _ => .pure _

theorem nameless_solveSelectorsOnce (gs : List SelectorGoal) :
    Nameless (solveSelectorsOnce gs) := by
  induction gs with
  | nil => exact .pure _
  | cons g gs ih =>
    exact (nameless_solveSelector g).bind fun _ =>
      .ite ((Nameless.modify _).bind fun _ => ih.bind fun _ => .pure _) (ih.bind fun _ => .pure _)

theorem nameless_solveSelectors : Nameless solveSelectors := by
  refine Nameless.get.bind fun s => ?_
  generalize selectorRounds s = fuel
  induction fuel with
  | zero => exact .pure _
  | succ fuel ih =>
    exact Nameless.get.bind fun _ => (Nameless.modify _).bind fun _ =>
      (nameless_solveSelectorsOnce _).bind fun _ => .ite ih (.pure _)

/-! ## The goal store -/

theorem nameless_simplifyGoal (g : Goal) : Nameless (simplifyGoal g) := by
  refine Nameless.get.bind fun s => ?_
  dsimp only
  split
  · exact (nameless_recordError _).withRange.bind fun _ => .pure _
  · exact (Nameless.set _).bind fun _ => .pure _

theorem nameless_simplifyPass (gs : List Goal) : Nameless (simplifyPass gs) := by
  induction gs with
  | nil => exact .pure _
  | cons g gs ih => exact (nameless_simplifyGoal g).bind fun _ => ih.bind fun _ => .pure _

theorem nameless_simplifyGoals (gs : List Goal) : Nameless (simplifyGoals gs) := by
  refine Nameless.get.bind fun s => ?_
  dsimp only
  generalize (Ty.freeIds (gs.map fun g => s.subst.apply g.prop)).length + 1 = fuel
  induction fuel generalizing gs with
  | zero => exact .pure _
  | succ fuel ih => exact (nameless_simplifyPass gs).bind fun _ => .ite (ih _) (.pure _)

theorem nameless_goalFor (gs : List Goal) (p : Ty) : Nameless (goalFor gs p) := by
  refine Nameless.get.bind fun s => ?_
  dsimp only
  split
  · exact .pure _
  · exact nameless_currentRange.bind fun _ => .pure _

theorem nameless_useAnswer (gs : List Goal) (ans : Answer) : Nameless (useAnswer gs ans) := by
  refine (Nameless.modify _).bind fun _ => ?_
  split
  · exact .pure _
  · refine (Nameless.withRange ?_).bind fun _ => .pure _
    exact (Nameless.forM fun r => (nameless_goalFor gs r).bind fun _ => nameless_recordError _).bind
      fun _ => .ite (nameless_recordError _) (.pure _)
  · exact .mapM fun r => nameless_goalFor gs r

theorem nameless_escalate (gs : List Goal) : Nameless (escalate gs) := by
  refine Nameless.get.bind fun s => ?_
  dsimp only
  refine (Nameless.read.bind fun _ => Nameless.get.bind fun _ => (Nameless.modify _).bind fun _ =>
    .pure _).bind fun r => ?_
  split
  · exact (nameless_trace _).bind fun _ => (nameless_recordError _).withRange.bind fun _ => .pure _
  · exact (nameless_trace _).bind fun _ => nameless_useAnswer gs _

theorem nameless_simplifyStore (ask : Bool) : Nameless (simplifyStore ask) :=
  nameless_solveSelectors.bind fun _ => Nameless.get.bind fun _ =>
    (nameless_simplifyGoals _).bind fun _ => (Nameless.modify _).bind fun _ =>
    .ite ((nameless_escalate _).bind fun _ => .modify _) (.pure _)

theorem nameless_proveSignature (src : GoalSource) (params : List Param) (gs : List Goal) :
    Nameless (proveSignature src params gs) := by
  have hreport : ∀ here : List Goal, Nameless (do
      if !here.isEmpty then
        withRange (firstRange here) (recordError (.unsolvedGoals here))
        trace (.unprovedGoals src.describe here.length)) := fun here =>
    .ite ((nameless_recordError _).withRange.bind fun _ => nameless_trace _) (.pure _)
  refine Nameless.get.bind fun s => (Nameless.modify _).bind fun _ =>
    (nameless_simplifyGoals _).bind fun here => .ite ?_ ?_
  · exact (Nameless.pure _).bind hreport
  · exact (nameless_escalate _).bind hreport

theorem nameless_defaultVars (vs : List TyVar) (goals : List Goal) :
    Nameless (defaultVars vs goals) := by
  refine .forM fun v => Nameless.get.bind fun s => ?_
  split
  · exact .pure _
  · exact (Nameless.set _).bind fun _ => (nameless_recordWarning _).bind fun _ => nameless_trace _

theorem nameless_generalize (ds : List Decl) (goals : List Goal) (group : List (Int × Int)) :
    Nameless (generalize ds goals group) :=
  nameless_solveSelectors.bind fun _ => Nameless.get.bind fun _ => (Nameless.modify _).bind fun _ =>
    (nameless_defaultVars ..).bind fun _ => (nameless_simplifyGoals _).bind fun _ =>
    Nameless.get.bind fun _ => (Nameless.modify _).bind fun _ =>
    (Nameless.mapM fun _ => Nameless.get.bind fun _ => (Nameless.set _).bind fun _ => .pure _).bind
      fun _ => (Nameless.forM fun _ => nameless_trace _).bind fun _ => .pure _

/-! ## Patterns, applications and comprehensions -/

theorem nameless_instantiate (sc : Schema) (given : Table Int Ty)
    (source : Nat → Param → TypeSource) : Nameless (instantiate sc given source) :=
  Nameless.get.bind fun _ => (Nameless.set _).bind fun _ => .pure _

theorem nameless_monoDecl (n : Name) (t : Ty) (e : Core.Term) : Nameless (monoDecl n t e) :=
  nameless_currentRange.bind fun _ => .pure _

theorem nameless_part (whole : Matched) (sel : Selector) (t : Ty) (m : Matched) :
    Nameless (whole.part sel t m) := (nameless_monoDecl ..).bind fun _ => .pure _

theorem nameless_openSpine (k : Nat) (exp : Expected) (slots : List (Ty × Nat)) :
    Nameless (openSpine k exp slots) := by
  unfold openSpine
  split
  · exact .pure _
  · exact (Nameless.mapM fun _ => nameless_freshType ..).bind fun _ =>
      (nameless_freshType ..).bind fun _ => .pure _

theorem nameless_checkRepeated (seen : List Int) (vs : List (Name × Ty)) :
    Nameless (checkRepeated seen vs) := by
  induction vs generalizing seen with
  | nil => exact .pure _
  | cons v vs ih => exact .ite ((nameless_recordError _).bind fun _ => ih _) (ih _)

/-! ## Scopes -/

theorem nameless_modifyScope (f : Core.Module → Core.Module) : Nameless (modifyScope f) := by
  refine Nameless.get.bind fun s => ?_
  split
  · exact .throw rfl
  · exact .modify _

theorem nameless_popScope (kind : ScopeKind) : Nameless (popScope kind) := by
  refine Nameless.get.bind fun s => ?_
  split
  · exact .throw rfl
  · exact .ite ((Nameless.modify _).bind fun _ => .pure _) (.throw rfl)

theorem nameless_closeTop : Nameless closeTop :=
  Nameless.get.bind fun _ =>
    .ite ((Nameless.throw rfl).bind fun _ => nameless_popScope _) (nameless_popScope _)

/-! ## The end of a run -/

theorem nameless_reportUnsolved (gs : List Goal) : Nameless (reportUnsolved gs) :=
  .ite (nameless_recordError _).withRange (.pure _)

theorem nameless_finish : Nameless finish := by
  have hreport : Nameless reportLeft :=
    Nameless.get.bind fun _ => (nameless_reportUnsolved _).bind fun _ =>
      (Nameless.modify _).bind fun _ => Nameless.get.bind fun _ =>
      (nameless_reportUnsolved _).bind fun _ => .modify _
  have hdischarge : Nameless discharge :=
    (nameless_simplifyStore true).bind fun _ => (Nameless.get.bind fun _ => .pure _).bind fun _ =>
      .ite (Nameless.get.bind fun _ => (nameless_defaultVars ..).bind fun _ =>
        (nameless_simplifyGoals _).bind fun _ => (Nameless.modify _).bind fun _ =>
        nameless_simplifyStore true) (.pure _)
  rw [finish_eq]
  exact hdischarge.bind fun _ => hreport

theorem nameless_moduleOutput (m : Surface.Module) : Nameless (moduleOutput m) := by
  have hresolved : ∀ ds : List Decl, Nameless (checkResolved ds) := fun ds =>
    Nameless.get.bind fun _ => .ite (.forM fun _ =>
      .ite (nameless_recordError _).withRange (.pure _)) (.pure _)
  have hmodule : ∀ content, Nameless (resolveModule content) := fun content =>
    (Nameless.get.bind fun _ => (Nameless.set _).bind fun _ => .pure _).bind fun _ =>
      Nameless.get.bind fun _ => (hresolved _).bind fun _ => .pure _
  refine nameless_closeTop.bind fun _ => (hmodule _).bind fun _ =>
    (Nameless.get.bind fun _ => (Nameless.set _).bind fun _ => .pure _).bind fun res => ?_
  cases res with
  | error f => exact .pure _
  | ok ws =>
    exact (nameless_trace _).bind fun _ =>
      (Nameless.get.bind fun _ => Nameless.get.bind fun _ => .pure _).bind fun _ => .pure _

end Infer
end SizedTypes
