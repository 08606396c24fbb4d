import SizedTypes.Ty.Printer

/-!
# Goals

A goal is a predicate to prove, with the reason why it arose and the place.
-/

set_option autoImplicit false

namespace SizedTypes

/-- Why a goal arose. -/
inductive GoalSource where
  | comprehension
  | splitPattern
  | signature (name : Name)
  | use (name : Name)
  | selector
  | exactType
  | enumeration
  | partialFun (text : String)
  | improvement
  | pattern (what : String)
  | moduleParam
  | literal
deriving DecidableEq, Repr, Inhabited

namespace GoalSource

def describe : GoalSource → String
  | comprehension => "list comprehension"
  | splitPattern => "split (#) pattern"
  | signature n => "type signature of " ++ n.text
  | use n => "use of " ++ n.text
  | selector => "use of selector"
  | exactType => "matching types"
  | enumeration => "sequence enumeration"
  | partialFun text => "use of partial type function " ++ text
  | improvement => "examination of collected goals"
  | pattern what => what ++ " pattern"
  | moduleParam => "module parameter"
  | literal => "literal"

end GoalSource

structure Goal where
  source : GoalSource
  range : Range
  prop : Ty
deriving Inhabited

def Goal.text (g : Goal) : String := g.prop.text

/-- A selector goal. Terms refer to it by its id until it is solved. -/
structure SelectorGoal where
  id : Int
  range : Range
  sel : Selector
  record : Ty
  field : Ty
deriving Inhabited

namespace SelectorGoal

def prop (g : SelectorGoal) : Ty := .has g.sel g.record g.field

/-- The goal under a substitution of its types. -/
def toGoal (g : SelectorGoal) (f : Ty → Ty) : Goal :=
  { source := .selector, range := g.range, prop := f g.prop }

end SelectorGoal
end SizedTypes
