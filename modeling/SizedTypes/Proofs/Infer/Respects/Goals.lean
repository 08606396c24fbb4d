import SizedTypes.Infer.Calls
import SizedTypes.Infer.Generalize
import SizedTypes.Proofs.Infer.Goals
import SizedTypes.Proofs.Infer.Respects

/-!
# Relations that the proof of goals respects

Simplifying goals, taking defaults and instantiating schemas respect what small computations
respect. Where the selector solver and the question to the solver respect it too, so does all that
is done with the goal store.
-/

set_option autoImplicit false

namespace SizedTypes

namespace Subst

theorem triangular_extendOrSkip {θ : Subst} (h : θ.Triangular) (v : TyVar) (t : Ty) :
    (θ.extendOrSkip v t).Triangular := by
  unfold extendOrSkip
  split
  · rename_i hext
    exact triangular_extend hext h
  · exact h

theorem triangular_extendOrSkipAll {θ : Subst} (h : θ.Triangular) (bs : List (TyVar × Ty)) :
    (bs.foldl (fun su b => su.extendOrSkip b.1 b.2) θ).Triangular := by
  induction bs generalizing θ with
  | nil => exact h
  | cons b bs ih => exact ih (triangular_extendOrSkip h b.1 b.2)

end Subst

namespace Infer

open Surface (TypeArg)

theorem varIds_defaultFor {v : TyVar} {goals : List Ty} {t : Ty}
    (h : defaultFor v goals = some t) : t.varIds = [] := by
  unfold defaultFor at h
  split at h
  · cases h
  · split at h
    · cases h
      rfl
    · obtain ⟨cs, -, rfl⟩ := Option.map_eq_some_iff.mp h
      split <;> rfl
    · cases h

/-- A default is a closed type, and it extends the substitution. -/
theorem defaulted?_eq_some {θ θ' : Subst} {asmps : Assumptions} {goals : List Goal} {v : TyVar}
    {t : Ty} (h : defaulted? θ asmps goals v = some (θ', t)) :
    θ.extend v t = .ok θ' ∧ t.varIds = [] := by
  unfold defaulted? at h
  split at h
  · cases h
  · simp only [Option.bind_eq_bind, Option.bind_eq_some_iff] at h
    obtain ⟨u, hu, trial, htrial, h⟩ := h
    split at h
    · cases h
      refine ⟨?_, varIds_defaultFor hu⟩
      cases hext : θ.extend v t with
      | error e =>
        rw [hext] at htrial
        cases htrial
      | ok θ₁ =>
        rw [hext] at htrial
        cases htrial
        rfl
    · cases h

section Rules

variable {R : State → State → Prop} [Rules R]

/-! ## Simplification and defaults -/

theorem respects_simplifyGoal (g : Goal) : Respects R (simplifyGoal g) where
  step {_ s _ _} h := by
    unfold simplifyGoal at h
    rw [returns_get_bind] at h
    dsimp only at h
    split at h
    · exact ((respects_recordError _).withRange.bind fun _ => .pure _).step h
    · rw [returns_set_bind, returns_pure] at h
      rw [h.2]
      exact Rules.bind s _ fun hs => (Improvement.from_foldl ..).triangular hs

theorem respects_simplifyPass (gs : List Goal) : Respects R (simplifyPass gs) := by
  induction gs with
  | nil => exact .pure _
  | cons g gs ih => exact (respects_simplifyGoal g).bind fun _ => ih.bind fun _ => .pure _

theorem respects_simplifyPasses (fuel : Nat) (gs : List Goal) :
    Respects R (simplifyPasses fuel gs) := by
  induction fuel generalizing gs with
  | zero => exact .pure _
  | succ fuel ih => exact (respects_simplifyPass gs).bind fun _ => .ite (ih _) (.pure _)

@[simp] theorem respects_simplifyGoals (gs : List Goal) : Respects R (simplifyGoals gs) :=
  Respects.get.bind fun _ => respects_simplifyPasses ..

theorem respects_goalFor (gs : List Goal) (p : Ty) : Respects R (goalFor gs p) := by
  refine Respects.get.bind fun s => ?_
  dsimp only
  split
  · exact .pure _
  · exact respects_currentRange.bind fun _ => .pure _

theorem respects_defaultVar (goals : List Goal) (v : TyVar) :
    Respects R (defaultVar goals v) where
  step {_ s _ _} h := by
    unfold defaultVar at h
    rw [returns_get_bind] at h
    split at h
    · exact (returns_pure.mp h).2 ▸ Rules.refl _
    · rename_i θ t hdefault
      rw [returns_set_bind] at h
      refine Rules.trans (Rules.bind s θ fun hs => ?_)
        (((respects_recordWarning _).bind fun _ => respects_trace _).step h)
      exact Subst.triangular_extend (defaulted?_eq_some hdefault).1 hs

@[simp] theorem respects_defaultVars (vs : List TyVar) (goals : List Goal) :
    Respects R (defaultVars vs goals) := .forM fun v _ => respects_defaultVar goals v

theorem respects_draw (cl : Closing) : Respects R cl.draw :=
  .getSet fun s => Rules.draw s _ _ _

/-! ## Uses -/

theorem respects_instantiate (sc : Schema) (given : Table Int Ty)
    (source : Nat → Param → TypeSource) : Respects R (instantiate sc given source) :=
  .getSet fun s => Rules.draw s _ _ _

theorem respects_positionalArgs (callee : Name) (params : List Param) (i : Nat)
    (args : List TypeArg) (given : Table Int Ty) :
    Respects R (positionalArgs callee params i args given) := by
  induction args generalizing i given with
  | nil => exact .pure _
  | cons a as ih =>
    unfold positionalArgs
    split
    · exact (respects_recordError _).bind fun _ => .pure _
    · exact (respects_checkType ..).bind fun _ => ih ..

theorem respects_namedArgs (callee : Name) (params : List Param) (args : List TypeArg)
    (given : Table Int Ty) : Respects R (namedArgs callee params args given) := by
  induction args generalizing given with
  | nil => exact .pure _
  | cons a as ih =>
    unfold namedArgs
    dsimp only
    split
    · exact (respects_recordError _).bind fun _ => ih _
    · exact (respects_checkType ..).bind fun _ => ih ..

theorem respects_typeArgs (callee : Name) (sc : Schema) (args : List TypeArg) :
    Respects R (typeArgs callee sc args) :=
  .ite (respects_positionalArgs ..) (.ite (respects_namedArgs ..)
    ((respects_recordError _).bind fun _ => .pure _))

end Rules

/-! ## The goal store -/

/-- What the steps are besides, where the goal store is worked on. -/
class SolvingRules (R : State → State → Prop) : Prop extends Rules R where
  solve {c : Context} {s s' : State} {a : Unit} : Returns solveSelectors c s a s' → R s s'
  ask (s : State) (queries : List Query) (cancelled : Bool) : R s { s with queries, cancelled }

variable {R : State → State → Prop} [SolvingRules R]

@[simp] theorem respects_solveSelectors : Respects R solveSelectors where
  step h := SolvingRules.solve h

theorem respects_askSolver (q : Query) : Respects R (askSolver q) :=
  Respects.read.bind fun _ => Respects.get.bind fun _ =>
    .bind (.modify fun s => SolvingRules.ask s _ _) fun _ => .pure _

theorem respects_useAnswer (gs : List Goal) (ans : Answer) : Respects R (useAnswer gs ans) := by
  unfold useAnswer
  refine .bind (.modify fun s => Rules.bind s _ fun hs => ?_) fun _ => ?_
  · exact Subst.triangular_extendOrSkipAll hs _
  · split
    · exact .pure _
    · refine (Respects.withRange ?_).bind fun _ => .pure _
      refine (Respects.forM fun r _ => ?_).bind fun _ => .ite (respects_recordError _) (.pure _)
      exact (respects_goalFor gs r).bind fun _ => respects_recordError _
    · exact .mapM fun r _ => respects_goalFor gs r

@[simp] theorem respects_escalate (gs : List Goal) : Respects R (escalate gs) := by
  refine Respects.get.bind fun s => ?_
  dsimp only
  refine (respects_askSolver _).bind fun r => ?_
  split
  · exact (respects_trace _).bind fun _ => (respects_recordError _).withRange.bind fun _ => .pure _
  · exact (respects_trace _).bind fun _ => respects_useAnswer gs _

@[simp] theorem respects_simplifyStore (ask : Bool) : Respects R (simplifyStore ask) :=
  respects_solveSelectors.bind fun _ => Respects.get.bind fun _ =>
    (respects_simplifyGoals _).bind fun _ => (respects_modifyGoals _).bind fun _ =>
    .ite ((respects_escalate _).bind fun _ => respects_modifyGoals _) (.pure _)

@[simp] theorem respects_proveSignature (src : GoalSource) (params : List Param) (gs : List Goal) :
    Respects R (proveSignature src params gs) := by
  have hreport : ∀ here : List Goal, Respects R (do
      if !here.isEmpty then
        withRange (firstRange here) (recordError (.unsolvedGoals here))
        trace (.unprovedGoals src.describe here.length)) := fun here =>
    .ite ((respects_recordError _).withRange.bind fun _ => respects_trace _) (.pure _)
  refine Respects.get.bind fun s => (respects_modifyGoals _).bind fun _ =>
    (respects_simplifyGoals _).bind fun here => .ite ?_ ?_
  · exact (Respects.pure _).bind hreport
  · exact (respects_escalate _).bind hreport

/-! ## Generalization -/

@[simp] theorem respects_generalize (ds : List Core.Decl) (goals : List Goal)
    (group : List (Int × Int)) : Respects R (generalize ds goals group) :=
  respects_solveSelectors.bind fun _ => Respects.get.bind fun _ =>
    (respects_modifyGoals _).bind fun _ => (respects_defaultVars ..).bind fun _ =>
    (respects_simplifyGoals _).bind fun _ => Respects.get.bind fun _ =>
    (respects_modifyGoals _).bind fun _ =>
    (Respects.mapM fun cl _ => respects_draw cl).bind fun _ =>
    (Respects.forM fun _ _ => respects_trace _).bind fun _ => .pure _

end Infer
end SizedTypes
