import SizedTypes.Solver

/-!
# Canned solvers

Solvers with a fixed behaviour, to see how a run uses what comes back. No other module uses them:
they are for programs that try the checker out, such as a test driver.
-/

set_option autoImplicit false

namespace SizedTypes

inductive CannedSolver where
  | localRules
  /-- Fails. -/
  | down
  | solved
  /-- Refutes the goals. -/
  | unsolvable
  /-- Refutes without saying what. -/
  | unsolvableNone
  /-- Gives the goals back. -/
  | unknown
  /-- Gives back a goal that nobody asked about. -/
  | foreign
  /-- Refutes a goal that nobody asked about. -/
  | unsolvableForeign
  /-- Binds every variable: sizes to seven, all others to bits. -/
  | assign
  /-- Cancels the run. -/
  | cancel
deriving DecidableEq, Repr, Inhabited

namespace CannedSolver

/-- A goal of no query. -/
def foreignGoal : Ty := .prime (.num 4)

/-- Bind every variable of the goals. -/
def assignment (goals : List Ty) : Subst :=
  (Ty.freeVars goals).foldl
    (fun s v => s.extendOrSkip v (if v.kind = .num then .num 7 else .bit)) .empty

def reply (q : Query) : CannedSolver → Reply
  | localRules => ⟨.ok (Solver.answer q), false⟩
  | down => ⟨.error "solver down", false⟩
  | solved => ⟨.ok { status := .solved }, false⟩
  | unsolvable => ⟨.ok { status := .unsolvable, residual := q.goals }, false⟩
  | unsolvableNone => ⟨.ok { status := .unsolvable }, false⟩
  | unknown => ⟨.ok { status := .unknown, residual := q.goals }, false⟩
  | foreign => ⟨.ok { status := .unknown, residual := [foreignGoal] }, false⟩
  | unsolvableForeign => ⟨.ok { status := .unsolvable, residual := [foreignGoal] }, false⟩
  | assign => ⟨.ok { status := .solved, subst := assignment q.goals }, false⟩
  | cancel => ⟨.ok { status := .solved }, true⟩

/-- The solver that behaves so. -/
def solver : CannedSolver → Solver
  | localRules => Solver.localRules
  | mode => ⟨fun _ _ q => mode.reply q⟩

end CannedSolver
end SizedTypes
