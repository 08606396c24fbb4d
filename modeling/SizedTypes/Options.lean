/-!
# Options of a run
-/

set_option autoImplicit false

namespace SizedTypes

/-- Options of a run. -/
structure Options where
  /-- Local bindings without a signature are not generalized. -/
  monoBinds : Bool := false
  /-- Terms keep their source ranges. -/
  callStacks : Bool := true
  /-- Passed through; the checker does not look at it. -/
  searchPath : List String := []
deriving DecidableEq, Repr, Inhabited

end SizedTypes
