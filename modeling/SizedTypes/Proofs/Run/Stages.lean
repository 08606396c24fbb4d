import SizedTypes.Run

/-!
# The stages of the end of a run

What is left of the goals is discharged, what is left after that is reported, and then the output is
put together.
-/

set_option autoImplicit false

namespace SizedTypes.Infer

open SizedTypes.Core (Decl)

/-- What is done to discharge the goals before those that are left are reported. -/
def discharge : Infer Unit := do
  simplifyStore true
  let vs ← openVars
  if !vs.isEmpty then
    let stored := (← get).goals
    defaultVars vs stored
    let gs ← simplifyGoals stored
    modify fun s => { s with goals := gs }
    simplifyStore true

/-- The report of the goals that are left. -/
def reportLeft : Infer Unit := do
  reportUnsolved (← get).goals
  modify fun s => { s with goals := [] }
  let s ← get
  reportUnsolved (s.pending.map fun g => g.toGoal s.subst.apply)
  modify fun s => { s with pending := [] }

theorem finish_eq : finish = (do discharge; reportLeft) := by
  unfold finish discharge reportLeft
  simp only [bind_assoc]
  refine congrArg _ (funext fun _ => congrArg _ (funext fun vs => ?_))
  split <;> simp

/-- The output of the run of a module whose goals are discharged. -/
def moduleOutput (m : Surface.Module) : Infer (Except RunError ModuleOutput) := do
  let content ← closeTop
  let content ← resolveModule { content with imports := m.imports }
  match ← conclude with
  | .error f => return .error (.failed f)
  | .ok warnings =>
    trace (.moduleDone m.name.text content.groups.length warnings.length)
    return .ok ⟨content, ← seeds, warnings⟩

/-- The output of the run of an expression whose goals are discharged. -/
def exprOutput (ds : List Decl) : Infer (Except RunError ExprOutput) := do
  discard closeTop
  let ds ← resolving fun r => r.decls ds
  checkResolved ds
  match ← conclude, ds with
  | .error f, _ => return .error (.failed f)
  | .ok warnings, d :: _ =>
    return .ok ⟨d.body.getD default, d.schema, ← seeds, warnings⟩
  | .ok warnings, [] => return .ok ⟨default, default, ← seeds, warnings⟩

end SizedTypes.Infer
