import SizedTypes.Goal

/-!
# Messages

Errors and warnings about programs, and the faults that only an ill-formed input or a broken
invariant can raise. The messages of a failed run are sorted by their ranges.
-/

set_option autoImplicit false

namespace SizedTypes

/-- A problem of the program. -/
inductive TypeError where
  | typeMismatch (source : Option TypeSource) (expected actual : Ty)
  | kindMismatch (source : Option TypeSource) (expected actual : Kind)
  /-- A type would have to contain itself. -/
  | recursiveType (source : Option TypeSource) (expected actual : Ty)
  /-- A type mentions parameters outside their scope. -/
  | escapedParams (source : Option TypeSource) (t : Ty) (params : List Param)
  | unsolvedGoals (goals : List Goal)
  /-- A goal that can never hold. -/
  | unsolvableGoal (goal : Goal)
  /-- Variables that nothing determines. -/
  | ambiguousType (names : List Name) (vars : List TyVar)
  | tooManyPositionalArgs (callee : Name)
  /-- Type arguments for a value that has no schema yet. -/
  | unexpectedTypeArgs (extra : Nat) (kind : Kind)
  | undefinedTypeParam (callee : Name) (param : String)
  | mixedTypeArgs
  | typeArityMismatch (name : Name) (expected actual : Nat)
  | unexpectedWildcard
  | undefinedExistential (ident : String)
  /-- A name bound twice in one comprehension. -/
  | repeatedDefinition (name : Name)
  | missingField (sel : Selector) (t : Ty)
deriving Inhabited

namespace TypeError

/-- The source of an expectation, in parentheses. -/
def sourceNote : Option TypeSource → String
  | none => ""
  | some s => " (" ++ s.describe ++ ")"

def message : TypeError → String
  | typeMismatch src e a =>
    "type mismatch" ++ sourceNote src ++ ": expected " ++ e.text ++ ", got " ++ a.text
  | kindMismatch src e a =>
    "kind mismatch" ++ sourceNote src ++ ": expected " ++ e.text ++ ", got " ++ a.text
  | recursiveType src e a =>
    "matching would result in an infinite type" ++ sourceNote src ++ ": " ++ e.text ++ " ~ "
      ++ a.text
  | escapedParams _ t ps =>
    "the type " ++ t.text ++ " is not sufficiently polymorphic: it cannot depend on "
      ++ ", ".intercalate (ps.map Param.display)
  | unsolvedGoals gs => "unsolved constraints: " ++ "; ".intercalate (gs.map Goal.text)
  | unsolvableGoal g => "unsolvable constraint: " ++ g.text
  | ambiguousType names vars =>
    "ambiguous type: "
      ++ ", ".intercalate
        (vars.map fun v => v.display ++ " (" ++ TypeSource.describe? v.source ++ ")")
      ++ (if names.isEmpty then ""
        else " in the definition of " ++ ", ".intercalate (names.map Name.text))
  | tooManyPositionalArgs f => "too many positional type arguments for " ++ f.text
  | unexpectedTypeArgs n k =>
    toString n ++ " unexpected type argument(s) of kind " ++ k.text
  | undefinedTypeParam f p => f.text ++ " has no type parameter named " ++ p
  | mixedTypeArgs => "named and positional type arguments may not be combined"
  | typeArityMismatch n e a =>
    n.text ++ " expects " ++ toString e ++ " type argument(s), got " ++ toString a
  | unexpectedWildcard => "wildcard types are not allowed here"
  | undefinedExistential ident => "undefined existential type variable " ++ ident
  | repeatedDefinition n => n.text ++ " is defined more than once in the same comprehension"
  | missingField sel t => "type " ++ t.text ++ " has no field " ++ sel.text

/-- The goals that an error is about. -/
def goals : TypeError → List Goal
  | unsolvedGoals gs => gs
  | unsolvableGoal g => [g]
  | _ => []

end TypeError

/-- An error and its place. -/
structure Diagnostic where
  range : Range
  error : TypeError
deriving Inhabited

def Diagnostic.text (d : Diagnostic) : String := d.range.text ++ ": " ++ d.error.message

/-- An observation that does not fail a run. -/
inductive Warning where
  | defaulting (v : TyVar) (t : Ty)
  | shadowing (what : String) (name : Name)
deriving Inhabited

namespace Warning

def text : Warning → String
  | defaulting v t => "defaulting " ++ TypeSource.describe? v.source ++ " to " ++ t.text
  | shadowing what name => "this " ++ what ++ " shadows " ++ name.text

/-- Names of the checker's own are never warned about. -/
def isSilent : Warning → Bool
  | shadowing _ name => name.system
  | defaulting _ _ => false

end Warning

/-- A warning and its place. -/
structure WarningAt where
  range : Range
  warning : Warning
deriving Inhabited

/-- Why a run fails: at least one error. -/
structure Failure where
  errors : List Diagnostic
  warnings : List WarningAt
deriving Inhabited

def Failure.message (f : Failure) : String := "\n".intercalate (f.errors.map Diagnostic.text)

/-- Sort by range; entries of one range keep their order. -/
def sortByRange {α : Type} (range : α → Range) (entries : List α) : List α :=
  entries.mergeSort fun a b => !(range b).before (range a)

/-- The sorts of open scopes. -/
inductive ScopeKind where
  | block
  | submodule
  | top
deriving DecidableEq, Repr, Inhabited

def ScopeKind.text : ScopeKind → String
  | block => "local"
  | submodule => "submodule"
  | top => "top-level module"

/-- A fault of the input's earlier phases or of the checker, never of the program. -/
inductive InternalError where
  | missingPrimitive (ident : String)
  | primitiveUndefined (name : Name)
  | primitiveLacksParam (ident param : String)
  | primitiveWithoutSignature (name : Name)
  | unboundVariable (name : Name)
  | unboundType (name : Name)
  | typeAppOfNonVariable (form : String)
  | updatePath
  | noOpenScope
  | wrongScope (closing actual : ScopeKind)
  | nestedScopes
  | missingBody (name : Name)
  | mergeFailed (reason : String)
deriving Inhabited

namespace InternalError

def reason : InternalError → String
  | missingPrimitive ident => "missing primitive " ++ ident
  | primitiveUndefined n => "primitive is being defined: " ++ n.text
  | primitiveLacksParam ident param =>
    "primitive " ++ ident ++ " has no type parameter " ++ param
  | primitiveWithoutSignature n => "primitive without a signature: " ++ n.text
  | unboundVariable n => "variable not in scope: " ++ n.text
  | unboundType n => "type not in scope: " ++ n.text
  | typeAppOfNonVariable form => "explicit type application of a non-variable: " ++ form
  | updatePath => "record update must name exactly one field "
  | noOpenScope => "no open scope "
  | wrongScope closing actual =>
    "closing " ++ closing.text ++ " scope, but the open scope is " ++ actual.text
  | nestedScopes => "closing top-level module with nested scopes still open "
  | missingBody n => "binding without a body: " ++ n.text
  | mergeFailed reason => "merging substitution: " ++ reason

def message (e : InternalError) : String := "internal error: " ++ e.reason

end InternalError
end SizedTypes
