import SizedTypes.Name
import SizedTypes.Kind
import SizedTypes.Selector

/-!
# Type constructors

Constructors of value types, functions on sizes and constructors of predicates, with their kinds
and the spelling under which programs refer to them.
-/

set_option autoImplicit false

namespace SizedTypes

/-- Functions on sizes. -/
inductive SizeOp where
  | add
  | sub
  | mul
  | div
  | mod
  | exp
  | width
  | min
  | max
  | ceilDiv
  | ceilMod
  | lengthFromThenTo
deriving DecidableEq, Repr, Inhabited

/-- Classes of value types. -/
inductive TyClass where
  | zero
  | logic
  | ring
  | integral
  | field
  | round
  | eq
  | cmp
  | signedCmp
  | literal
  | literalLessThan
  | fractionLiteral
deriving DecidableEq, Repr, Inhabited

/-- Comparisons of sizes. -/
inductive Comparison where
  | equal
  | neq
  | geq
deriving DecidableEq, Repr, Inhabited

/-- Constructors of predicates. -/
inductive PropCon where
  | compare (r : Comparison)
  | fin
  | prime
  | has (sel : Selector)
  | cls (c : TyClass)
  | conj
  | trivial
deriving DecidableEq, Repr, Inhabited

/-- Constructors of types. An abstract type carries its declared name and kind. -/
inductive Con where
  | num (n : Int)
  | inf
  | bit
  | integer
  | rational
  | intMod
  | seq
  | arrow
  | tuple (arity : Nat)
  | abstract (name : Name) (kind : Kind)
  | op (f : SizeOp)
  | prop (p : PropCon)
deriving DecidableEq, Repr, Inhabited

namespace SizeOp

def kind : SizeOp → Kind
  | width => .arrow .num .num
  | lengthFromThenTo => Kind.arrows [.num, .num, .num] .num
  | _ => Kind.arrows [.num, .num] .num

def text : SizeOp → String
  | add => "+"
  | sub => "-"
  | mul => "*"
  | div => "/"
  | mod => "%"
  | exp => "^^"
  | width => "width"
  | min => "min"
  | max => "max"
  | ceilDiv => "/^"
  | ceilMod => "%^"
  | lengthFromThenTo => "lengthFromThenTo"

/-- Written between its arguments. -/
def isInfix : SizeOp → Bool
  | add | sub | mul | div | mod | exp | ceilDiv | ceilMod => true
  | width | min | max | lengthFromThenTo => false

def all : List SizeOp :=
  [add, sub, mul, div, mod, exp, width, min, max, ceilDiv, ceilMod, lengthFromThenTo]

end SizeOp

namespace TyClass

def kind : TyClass → Kind
  | literal | literalLessThan => Kind.arrows [.num, .type] .prop
  | fractionLiteral => Kind.arrows [.num, .num, .num, .type] .prop
  | _ => .arrow .type .prop

def text : TyClass → String
  | zero => "Zero"
  | logic => "Logic"
  | ring => "Ring"
  | integral => "Integral"
  | field => "Field"
  | round => "Round"
  | eq => "Eq"
  | cmp => "Cmp"
  | signedCmp => "SignedCmp"
  | literal => "Literal"
  | literalLessThan => "LiteralLessThan"
  | fractionLiteral => "FLiteral"

def all : List TyClass :=
  [zero, logic, ring, integral, field, round, eq, cmp, signedCmp, literal, literalLessThan,
    fractionLiteral]

/-- The classes that a class extends directly. -/
def supers : TyClass → List TyClass
  | logic => [zero]
  | ring => [zero]
  | integral => [ring]
  | field => [ring]
  | round => [field, cmp]
  | cmp => [eq]
  | signedCmp => [eq]
  | _ => []

/-- All classes that a class extends, each before those that it extends in turn. -/
def ancestors : TyClass → List TyClass
  | logic => [zero]
  | ring => [zero]
  | integral => [ring, zero]
  | field => [ring, zero]
  | round => [field, ring, zero, cmp, eq]
  | cmp => [eq]
  | signedCmp => [eq]
  | _ => []

theorem ancestors_eq_flatMap (c : TyClass) :
    c.ancestors = c.supers.flatMap fun d => d :: d.ancestors := by
  cases c <;> rfl

end TyClass

namespace Comparison

def text : Comparison → String
  | equal => "=="
  | neq => "!="
  | geq => ">="

def all : List Comparison := [equal, neq, geq]

end Comparison

namespace PropCon

def kind : PropCon → Kind
  | compare _ => Kind.arrows [.num, .num] .prop
  | fin | prime => .arrow .num .prop
  | has _ => Kind.arrows [.type, .type] .prop
  | cls c => c.kind
  | conj => Kind.arrows [.prop, .prop] .prop
  | trivial => .prop

def text : PropCon → String
  | compare r => r.text
  | fin => "fin"
  | prime => "prime"
  | has _ => "Has"
  | cls c => c.text
  | conj => "&&"
  | trivial => "True"

/-- The constructors with a spelling of their own. A `Has` without a selector has the empty
label. -/
def all : List PropCon :=
  Comparison.all.map compare ++ [fin, prime, has (.field "")] ++ TyClass.all.map cls
    ++ [conj, trivial]

/-- A class of value types. -/
def isClass : PropCon → Bool
  | cls _ => true
  | _ => false

/-- About sizes only. -/
def isNumeric : PropCon → Bool
  | compare _ | fin | prime => true
  | _ => false

end PropCon

namespace Con

def kind : Con → Kind
  | num _ | inf => .num
  | bit | integer | rational => .type
  | intMod => .arrow .num .type
  | seq => Kind.arrows [.num, .type] .type
  | arrow => Kind.arrows [.type, .type] .type
  | tuple n => Kind.arrows (List.replicate n .type) .type
  | abstract _ k => k
  | op f => f.kind
  | prop p => p.kind

def text : Con → String
  | num n => toString n
  | inf => "inf"
  | bit => "Bit"
  | integer => "Integer"
  | rational => "Rational"
  | intMod => "Z"
  | seq => "[]"
  | arrow => "->"
  | tuple n => "(" ++ toString n ++ ")"
  | abstract n _ => n.ident
  | op f => f.text
  | prop p => p.text

/-- The same constructor; abstract types are compared by their names. -/
def same : Con → Con → Bool
  | abstract n _, abstract m _ => n.id == m.id
  | abstract _ _, _ | _, abstract _ _ => false
  | c, d => decide (c = d)

def isOp : Con → Bool
  | op _ => true
  | _ => false

def isProp : Con → Bool
  | prop _ => true
  | _ => false

def isClass : Con → Bool
  | prop p => p.isClass
  | _ => false

def isInfix : Con → Bool
  | op f => f.isInfix
  | prop (.compare _) => true
  | _ => false

/-- The constructors that programs refer to by their spelling. -/
def named : List Con :=
  [inf, bit, integer, rational, intMod] ++ SizeOp.all.map op ++ PropCon.all.map prop

/-- The constructor with the given spelling. -/
def ofText? (s : String) : Option Con := named.find? fun c => c.text == s

end Con
end SizedTypes
