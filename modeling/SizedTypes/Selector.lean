/-!
# Selectors

A selector picks a component of a record, a tuple or a sequence.
-/

set_option autoImplicit false

namespace SizedTypes

inductive Selector where
  | field (label : String)
  | component (index : Int)
  | element (index : Int)
deriving DecidableEq, Repr, Inhabited

namespace Selector

def text : Selector → String
  | field label => label
  | component index => toString index
  | element index => toString index

end Selector
end SizedTypes
