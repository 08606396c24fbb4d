import SizedTypes.Infer.Selectors

/-!
# Proving goals

Goals are simplified under the assumptions in scope. What remains goes to the solver, or up to
the enclosing group. The goals of a binding with a signature must follow from it.
-/

set_option autoImplicit false

namespace SizedTypes.Infer

/-! ## Simplification -/

/-- Simplify one goal. The result is what is left of it, and whether a variable was bound. -/
def simplifyGoal (g : Goal) : Infer (List Goal × Bool) := do
  let s ← get
  let p := s.subst.apply g.prop
  match simplify p s.assumptions with
  | .error _ =>
    withRange g.range (recordError (.unsolvableGoal { g with prop := p }))
    return ([], false)
  | .ok residual =>
    let i := residual.foldl Improvement.absorb { subst := s.subst }
    set { s with subst := i.subst }
    return (i.rest.reverse.map fun r => { g with prop := r }, i.improved)

/-- Simplify each goal once. -/
def simplifyPass : List Goal → Infer (List Goal × Bool)
  | [] => return ([], false)
  | g :: gs => do
    let (left, improved) ← simplifyGoal g
    let (lefts, more) ← simplifyPass gs
    return (left ++ lefts, improved || more)

/-- Passes until one binds no variable. -/
def simplifyPasses : Nat → List Goal → Infer (List Goal)
  | 0, gs => return gs
  | fuel + 1, gs => do
    let (gs, improved) ← simplifyPass gs
    if improved then simplifyPasses fuel gs else return gs

/-- Simplify goals. Goals that can never hold become errors; equalities that force a variable
extend the substitution. A pass that binds removes a variable from the goals, so the number of
their variables bounds the passes. -/
def simplifyGoals (gs : List Goal) : Infer (List Goal) := do
  let s := (← get).subst
  simplifyPasses ((Ty.freeIds (gs.map fun g => s.apply g.prop)).length + 1) gs

/-! ## The solver -/

/-- The goal that a residual predicate comes from. -/
def goalFor (gs : List Goal) (p : Ty) : Infer Goal := do
  let s := (← get).subst
  match gs.find? fun g => (s.apply g.prop).same p with
  | some g => return { g with prop := p }
  | none => return ⟨.improvement, ← currentRange, p⟩

/-- Ask the solver. -/
def askSolver (q : Query) : Infer (Except String Answer) := do
  let solver := (← read).solver
  let s ← get
  let reply := solver.ask s.queries.length s.cancelled q
  modify fun s =>
    { s with queries := s.queries ++ [q], cancelled := s.cancelled || reply.cancels }
  return reply.result

/-- The range of the first goal. -/
def firstRange : List Goal → Range
  | [] => .empty
  | g :: _ => g.range

/-- Use the answer of the solver to goals. -/
def useAnswer (gs : List Goal) (ans : Answer) : Infer (List Goal) := do
  modify fun s =>
    { s with subst := ans.subst.entries.foldl (fun su b => su.extendOrSkip b.1 b.2) s.subst }
  match ans.status with
  | .solved => return []
  | .unsolvable =>
    withRange (firstRange gs) do
      ans.residual.forM fun r => do recordError (.unsolvableGoal (← goalFor gs r))
      if ans.residual.isEmpty then recordError (.unsolvedGoals gs)
    return []
  | .unknown => ans.residual.mapM (goalFor gs)

/-- Pass goals to the solver; the result is what it could not decide. A solver that fails leaves
the goals unsolved. -/
def escalate (gs : List Goal) : Infer (List Goal) := do
  let s ← get
  let goals := gs.map fun g => s.subst.apply g.prop
  match ← askSolver { params := s.params, assumptions := s.assumptions.props, goals } with
  | .error e =>
    trace (.solverFailed e gs.length)
    withRange (firstRange gs) (recordError (.unsolvedGoals gs))
    return []
  | .ok ans =>
    trace (.solverAnswered gs.length ans.status.text)
    useAnswer gs ans

/-- Solve selectors and simplify the goal store; with `ask` the rest goes to the solver. -/
def simplifyStore (ask : Bool) : Infer Unit := do
  solveSelectors
  let stored := (← get).goals
  let gs ← simplifyGoals stored
  modify fun s => { s with goals := gs }
  if ask && !gs.isEmpty then
    let gs ← escalate gs
    modify fun s => { s with goals := gs }

/-! ## Signatures -/

/-- All variables connected to `ids` through predicates that share variables, the `fixed` ones
left out. Each round that goes on uses up a predicate. A round takes in all predicates that mention
what is connected by then; taking them in one by one, and going over the rest again until nothing
changes, ends at the same variables, those of the least connected set. -/
def connectedVars (fixed : List Int) : Nat → List Int → List Ty → List Int
  | 0, ids, _ => ids
  | fuel + 1, ids, ps =>
    match ps.partition (Ty.mentions ids) with
    | ([], _) => ids
    | (near, far) =>
      connectedVars fixed fuel (ids ++ (Ty.freeIds near).filter fun i => !fixed.contains i) far

/-- Whether a predicate mentions one of the parameters. -/
def mentionsParam (params : List Param) (p : Ty) : Bool :=
  p.params.any fun q => params.any fun r => r.id == q.id

/-- Goals that mention one of the parameters, or share variables with goals that do, and the
others. -/
def splitGoals (params : List Param) (gs : List Goal) : List Goal × List Goal :=
  let props := gs.map Goal.prop
  let seeds := Ty.freeIds (props.filter (mentionsParam params))
  let ids := connectedVars [] (gs.length + 1) seeds props
  gs.partition fun g => mentionsParam params g.prop || g.prop.mentions ids

/-- Prove the goals of a binding with a signature. Goals about its parameters must follow here;
the others are left for the enclosing group. -/
def proveSignature (src : GoalSource) (params : List Param) (gs : List Goal) : Infer Unit := do
  let s := (← get).subst
  let (here, outer) := splitGoals params (gs.map fun g => { g with prop := s.apply g.prop })
  modify fun st => { st with goals := st.goals ++ outer }
  let here ← simplifyGoals here
  let here ← if here.isEmpty then pure [] else escalate here
  if !here.isEmpty then
    withRange (firstRange here) (recordError (.unsolvedGoals here))
    trace (.unprovedGoals src.describe here.length)

end SizedTypes.Infer
