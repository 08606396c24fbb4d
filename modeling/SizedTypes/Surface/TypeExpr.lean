import SizedTypes.Constructor

/-!
# Written types

Types as programs write them, before kinds are checked.
-/

set_option autoImplicit false

namespace SizedTypes.Surface

inductive TypeExpr where
  /-- A parameter, a synonym, a newtype or a primitive type. -/
  | named (name : Name) (args : List TypeExpr)
  /-- A constructor with a spelling of its own. -/
  | builtin (c : Con) (args : List TypeExpr)
  | arrow (a b : TypeExpr)
  | seq (len elem : TypeExpr)
  | bit
  | num (n : Int)
  /-- A character as a size. -/
  | char (code : Int)
  | tuple (elems : List TypeExpr)
  | record (fields : List (String × TypeExpr))
  | wildcard
  /-- A variable shared by the annotations of one body. -/
  | existential (ident : String)
  | located (range : Range) (t : TypeExpr)
deriving Inhabited, Repr

/-- Functions of several arguments. -/
def TypeExpr.arrows (args : List TypeExpr) (res : TypeExpr) : TypeExpr := args.foldr .arrow res

/-- A declared type parameter; its kind may be left open. -/
structure TypeParam where
  name : Name
  kind : Kind := .unknown
deriving Inhabited, Repr

/-- A written schema. -/
structure Signature where
  params : List TypeParam := []
  props : List TypeExpr := []
  body : TypeExpr
  range : Range := .empty
deriving Inhabited, Repr

/-- An explicit type argument, by position or by name. -/
structure TypeArg where
  name : Option String
  type : TypeExpr
deriving Inhabited, Repr

end SizedTypes.Surface
