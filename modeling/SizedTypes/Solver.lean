import SizedTypes.Simplify
import SizedTypes.Simplify.Improve

/-!
# Solvers

Goals that cannot be decided where they arise go to a solver, which replies to one query after the
other. The local one simplifies under the assumptions and binds what equalities force.
-/

set_option autoImplicit false

namespace SizedTypes

/-- Do the goals follow from the assumptions? The parameters are opaque. -/
structure Query where
  params : List Param
  assumptions : List Ty
  goals : List Ty
deriving Inhabited

inductive Status where
  | solved
  | unsolvable
  | unknown
deriving DecidableEq, Repr, Inhabited

def Status.text : Status → String
  | solved => "solved"
  | unsolvable => "unsolvable"
  | unknown => "unknown"

/-- A verdict, bindings under which it holds, and the goals that it is about. -/
structure Answer where
  status : Status
  subst : Subst := {}
  residual : List Ty := []
deriving Inhabited

/-- What comes back from a solver. A solver may fail with a text of its own, and it may cancel the
run that it works for. -/
structure Reply where
  result : Except String Answer
  cancels : Bool := false

/-- A solver sees whether its run has been cancelled, and how often the run has asked it before. -/
structure Solver where
  ask : (asked : Nat) → (cancelled : Bool) → Query → Reply

namespace Solver

/-- As a function, a solver answers the first query of a run. -/
instance : CoeFun Solver fun _ => Bool → Query → Reply := ⟨fun s => s.ask 0⟩

/-- The text of a cancellation. -/
def canceledText : String := "context canceled"

/-- One pass over the goals. The goal that is refuted, if there is one, ends it. -/
def pass (asmps : Assumptions) (i : Improvement) : List Ty → Except (Ty × Subst) Improvement
  | [] => .ok i
  | goal :: goals =>
    match simplify (i.subst.apply goal) asmps with
    | .error _ => .error (goal, i.subst)
    | .ok residual => pass asmps (residual.foldl Improvement.absorb i) goals

/-- Passes until one binds no variable. Each pass that goes on binds a variable of the goals, so
their number bounds the passes. -/
def passes (asmps : Assumptions) : Nat → Subst → List Ty → Answer
  | 0, s, goals => { status := .unknown, subst := s, residual := goals }
  | fuel + 1, s, goals =>
    match pass asmps { subst := s } goals with
    | .error (goal, s) => { status := .unsolvable, subst := s, residual := [goal] }
    | .ok i =>
      if i.improved then passes asmps fuel i.subst i.rest.reverse
      else if i.rest.isEmpty then { status := .solved, subst := i.subst }
      else { status := .unknown, subst := i.subst, residual := i.rest.reverse }

/-- The answer of the local solver. -/
def answer (q : Query) : Answer :=
  passes (Assumptions.ofList q.assumptions) ((Ty.freeIds q.goals).length + 1) .empty q.goals

/-- Simplify with the rules at hand. Goals that they do not decide come back. -/
def localRules : Solver where
  ask _ cancelled q :=
    if cancelled then ⟨.error canceledText, false⟩ else ⟨.ok (answer q), false⟩

end Solver
end SizedTypes
