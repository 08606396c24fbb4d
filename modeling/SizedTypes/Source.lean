import SizedTypes.Name
import SizedTypes.Text.Quoted

/-!
# Where a type variable comes from

Messages say why a type variable was introduced, or why a type is expected.
-/

set_option autoImplicit false

namespace SizedTypes

inductive TypeSource where
  | moduleParam (name : Name)
  | wildcard
  | recordField (label : String)
  | tupleField (index : Int)
  | seqElement
  | seqLength
  | typeArgNamed (callee : Name) (param : String)
  | typeArgAt (callee : Name) (index : Int)
  | definition (name : Name)
  | generatorLength
  | argument (index : Int)
  | result
  | call
  | existential (ident : String)
  | generator
  | errorPlaceholder
deriving DecidableEq, Repr, Inhabited

/-- The position `index` counted from one: `1st`, `2nd`, `3rd`, `4th`, `11th`. -/
def ordinal (index : Int) : String :=
  let n := Word.next index
  let suffix :=
    if 11 ≤ Int.tmod n 100 ∧ Int.tmod n 100 ≤ 13 then "th"
    else if Int.tmod n 10 = 1 then "st"
    else if Int.tmod n 10 = 2 then "nd"
    else if Int.tmod n 10 = 3 then "rd"
    else "th"
  toString n ++ suffix

namespace TypeSource

def describe : TypeSource → String
  | moduleParam n => "module parameter " ++ n.text
  | wildcard => "type wildcard (_)"
  | recordField label => "type of field " ++ Text.quoted label
  | tupleField i => "type of " ++ ordinal i ++ " tuple field"
  | seqElement => "type of sequence member"
  | seqLength => "length of sequence"
  | typeArgNamed callee param => "type argument " ++ param ++ " of " ++ callee.text
  | typeArgAt callee i => ordinal i ++ " type argument of " ++ callee.text
  | definition n => "the type of " ++ n.text
  | generatorLength => "length of comprehension generator"
  | argument i => "type of " ++ ordinal i ++ " argument"
  | result => "type of function result"
  | call => "function call"
  | existential ident => "existential type " ++ ident
  | generator => "generator in a comprehension"
  | errorPlaceholder => "type error place-holder"

/-- The description of a source that may be missing. -/
def describe? : Option TypeSource → String
  | none => "unknown"
  | some s => s.describe

end TypeSource
end SizedTypes
