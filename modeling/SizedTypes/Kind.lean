/-!
# Kinds

Kinds classify types: values, sizes, predicates and constructors. The kind of a parameter may
not be determined yet; `unknown` stands for it and equals no other kind.
-/

set_option autoImplicit false

namespace SizedTypes

inductive Kind where
  | type
  | num
  | prop
  | arrow (dom cod : Kind)
  | unknown
deriving DecidableEq, Repr, Inhabited

namespace Kind

/-- The kind of a constructor with the given argument kinds. -/
def arrows (args : List Kind) (res : Kind) : Kind := args.foldr arrow res

/-- The kind of an applied constructor, `unknown` where the argument does not fit. -/
def apply : Kind → Kind → Kind
  | arrow dom cod, arg => if dom = arg then cod else unknown
  | _, _ => unknown

/-- The kind after `n` arguments of whatever kind. -/
def afterArgs : Kind → Nat → Kind
  | k, 0 => k
  | arrow _ cod, n + 1 => cod.afterArgs n
  | _, _ + 1 => unknown

/-- The number of arguments that a constructor of this kind takes. -/
def arity : Kind → Nat
  | arrow _ cod => cod.arity + 1
  | _ => 0

def isKnown : Kind → Bool
  | unknown => false
  | _ => true

/-- `k`, or `other` where `k` is not determined. -/
def orElse (k other : Kind) : Kind := if k.isKnown then k else other

def isArrow : Kind → Bool
  | arrow _ _ => true
  | _ => false

def text : Kind → String
  | type => "*"
  | num => "#"
  | prop => "Prop"
  | unknown => "?"
  | arrow dom cod =>
    (if dom.isArrow then "(" ++ dom.text ++ ")" else dom.text) ++ " -> " ++ cod.text

end Kind
end SizedTypes
