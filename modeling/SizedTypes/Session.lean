import SizedTypes.Run

/-!
# Sessions

A session checks modules and expressions one after the other. A successful run continues the
seeds of the one before, and the interface of a checked module is visible to later runs.
-/

set_option autoImplicit false

namespace SizedTypes

structure Session where
  /-- What the next run starts from. -/
  input : Input
  /-- All runs draw from one supply of names; otherwise each has its own. -/
  sharesSupply : Bool := false
  /-- The warnings of the last run. -/
  warnings : List WarningAt := []
  /-- The last run failed. -/
  failed : Bool := false

namespace Session

/-- Cancel all runs from now on. -/
def cancel (s : Session) : Session := { s with input := { s.input with cancelled := true } }

/-- What a run leaves for the next one, whatever its result. -/
def observe (s : Session) (obs : Observations) : Session :=
  { s with input := { s.input with
      supply := if s.sharesSupply then obs.supply else s.input.supply
      cancelled := obs.cancelled } }

/-- Take note of a run without a result. An internal error leaves no note. -/
def noteError (s : Session) : RunError → Session
  | .failed f => { s with failed := true, warnings := f.warnings }
  | .canceled _ => { s with failed := true, warnings := [] }
  | .internal _ => s

/-- Take note of a successful run. -/
def noteSuccess (s : Session) (seeds : Seeds) (warnings : List WarningAt) : Session :=
  { s with failed := false, warnings, input := { s.input with seeds } }

/-- Check a module. -/
def checkModule (s : Session) (m : Surface.Module) :
    Except RunError ModuleOutput × Observations × Session :=
  let (result, obs) := runModule s.input m
  let s := s.observe obs
  match result with
  | .error e => (.error e, obs, s.noteError e)
  | .ok out =>
    let s := s.noteSuccess out.seeds out.warnings
    (.ok out, obs, { s with input := { s.input with
      external := s.input.external.expose out.content.interface } })

/-- Check an expression. -/
def checkExpr (s : Session) (e : Surface.Expr) :
    Except RunError ExprOutput × Observations × Session :=
  let (result, obs) := runExpr s.input e
  let s := s.observe obs
  match result with
  | .error e => (.error e, obs, s.noteError e)
  | .ok out => (.ok out, obs, s.noteSuccess out.seeds out.warnings)

end Session
end SizedTypes
