import SizedTypes.Infer.Expr
import SizedTypes.Infer.Resolve
import SizedTypes.Core.Visit

/-!
# Runs

Checking a module or an expression from the start to its output. A run that records an error
fails; a run that is cancelled between declarations ends there.
-/

set_option autoImplicit false

namespace SizedTypes

open SizedTypes.Core (Decl Group Term)

/-- What a run starts from. -/
structure Input where
  options : Options := {}
  solver : Solver := Solver.localRules
  /-- The prelude and the modules checked before. -/
  external : External := {}
  /-- The names of well-known primitives. -/
  prims : List (String × Name) := []
  seeds : Seeds
  supply : Supply := .default
  /-- The run has been cancelled before its start. -/
  cancelled : Bool := false

/-- Why a run has no result. -/
inductive RunError where
  | failed (f : Failure)
  /-- Cancelled while doing what the text says. -/
  | canceled (doing : String)
  | internal (e : InternalError)
deriving Inhabited

/-- The text of a cancellation. -/
def RunError.canceledMessage (doing : String) : String := doing ++ ": " ++ Solver.canceledText

/-- What a run leaves behind, whether it succeeds or not. -/
structure Observations where
  supply : Supply
  events : List Event
  queries : List Query
  cancelled : Bool
deriving Inhabited

/-- The result of a successful module run. -/
structure ModuleOutput where
  content : Core.Module
  seeds : Seeds
  warnings : List WarningAt
deriving Inhabited

/-- The result of a successful expression run. -/
structure ExprOutput where
  term : Term
  schema : Schema
  seeds : Seeds
  warnings : List WarningAt
deriving Inhabited

namespace Infer

/-- The context of a run. -/
def contextOf (input : Input) : Context :=
  { options := input.options, solver := input.solver, prims := input.prims,
    external := input.external, range := .empty }

/-- The state in which a run starts. -/
def initial (input : Input) : State :=
  { supply := input.supply, nextTypeVar := input.seeds.typeVar, nextGoal := input.seeds.goal,
    cancelled := input.cancelled }

def seeds : Infer Seeds := return ⟨(← get).nextTypeVar, (← get).nextGoal⟩

/-! ## The end of a run -/

/-- Report goals that are left at the end. -/
def reportUnsolved (gs : List Goal) : Infer Unit := do
  if !gs.isEmpty then withRange (firstRange gs) (recordError (.unsolvedGoals gs))

/-- The open goals, those of selectors last. -/
def openVars : Infer (List TyVar) := do
  let s ← get
  return Ty.freeVars
    ((s.goals.map Goal.prop ++ s.pending.map SelectorGoal.prop).map s.subst.apply)

/-- Discharge what is left of the goals. Variables of open goals are defaulted first; goals that
still cannot be solved become errors. -/
def finish : Infer Unit := do
  simplifyStore true
  let vs ← openVars
  if !vs.isEmpty then
    let stored := (← get).goals
    defaultVars vs stored
    let gs ← simplifyGoals stored
    modify fun s => { s with goals := gs }
    simplifyStore true
  reportUnsolved (← get).goals
  modify fun s => { s with goals := [] }
  let s ← get
  reportUnsolved (s.pending.map fun g => g.toGoal s.subst.apply)
  modify fun s => { s with pending := [] }

/-- Report the variables of definitions that nothing has determined. After an earlier error they
are expected. -/
def checkResolved (ds : List Decl) : Infer Unit := do
  if (← get).errors.isEmpty then
    ds.forM fun d => do
      let vs := Core.freeVarsOf [d]
      if !vs.isEmpty then withRange d.range (recordError (.ambiguousType [d.name] vs))

/-- Resolve the content of a module. -/
def resolveModule (m : Core.Module) : Infer Core.Module := do
  let groups ← resolving fun r => r.groups m.groups
  let s := (← get).subst
  let m := { m with
    groups
    paramProps := m.paramProps.map (zonk s)
    paramFuns := m.paramFuns.mapValues (Schema.mapTypes (zonk s)) }
  checkResolved m.decls
  return m

/-- The messages of a run, by range: a failure, or the warnings. -/
def conclude : Infer (Except Failure (List WarningAt)) := do
  let s ← get
  let warnings := sortByRange WarningAt.range s.warnings
  set { s with warnings }
  return if s.errors.isEmpty then .ok warnings
    else .error ⟨sortByRange Diagnostic.range s.errors, warnings⟩

/-! ## Modules -/

/-- Check a module. -/
def inferModule (m : Surface.Module) : Infer (Except RunError ModuleOutput) := do
  trace (.checkingModule m.name.text)
  openScope .top m.name
  discard (checkDecls true m.decls)
  if (← get).cancelled then return .error (.canceled ("checking module " ++ m.name.text))
  finish
  let content ← closeTop
  let content ← resolveModule { content with imports := m.imports }
  match ← conclude with
  | .error f => return .error (.failed f)
  | .ok warnings =>
    trace (.moduleDone m.name.text content.groups.length warnings.length)
    return .ok ⟨content, ← seeds, warnings⟩

/-! ## Expressions -/

/-- Check an expression. Variables that only goals mention are defaulted; the others are
generalized. -/
def inferExpr (e : Surface.Expr) : Infer (Except RunError ExprOutput) := do
  openScope .top (← freshName "repl")
  let b : Surface.Bind := .mk (← freshName "it") [] (some e) none false false e.range
  let t ← freshType .type (.definition b.name)
  let (d, goals) ← collectGoals do
    let d ← checkMono b t fun exp => checkBody b exp
    simplifyStore false
    return d
  let s := (← get).subst
  defaultVars (Ty.freeVars (goals.map fun g => s.apply g.prop)) goals
  let goals ← simplifyGoals goals
  let ds ← generalize [d] goals []
  if (← get).cancelled then return .error (.canceled "checking expression")
  finish
  discard closeTop
  let ds ← resolving fun r => r.decls ds
  checkResolved ds
  match ← conclude, ds with
  | .error f, _ => return .error (.failed f)
  | .ok warnings, d :: _ =>
    return .ok ⟨d.body.getD default, d.schema, ← seeds, warnings⟩
  | .ok warnings, [] => return .ok ⟨default, default, ← seeds, warnings⟩

/-- Run a computation from the start and observe what it leaves. -/
def start {α : Type} (input : Input) (act : Infer (Except RunError α)) :
    Except RunError α × Observations :=
  let (r, s) := act.exec (contextOf input) (initial input)
  let result := match r with
    | .ok r => r
    | .error e => .error (.internal e)
  (result, ⟨s.supply, s.events, s.queries, s.cancelled⟩)

end Infer

/-- Check and elaborate a module. -/
def runModule (input : Input) (m : Surface.Module) : Except RunError ModuleOutput × Observations :=
  Infer.start input (Infer.inferModule m)

/-- Check and elaborate an expression. -/
def runExpr (input : Input) (e : Surface.Expr) : Except RunError ExprOutput × Observations :=
  Infer.start input (Infer.inferExpr e)

end SizedTypes
