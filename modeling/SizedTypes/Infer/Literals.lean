import SizedTypes.Infer.Calls
import SizedTypes.Surface.Expr

/-!
# Literals and enumerations

Literals are calls of primitives. A decimal literal takes the expected type as its
representation; other bases fix a word of as many bits as the written digits have.
-/

set_option autoImplicit false

namespace SizedTypes.Infer

open Surface (Enumeration TypeExpr)
open SizedTypes.Core (Term)

/-- Bits of one digit, for bases that are powers of two. -/
def bitsPerDigit (base : Int) : Option Int :=
  if base = 2 then some 1 else if base = 8 then some 3 else if base = 16 then some 4 else none

/-- The number `val` at the type `rep`. -/
def checkNumber (val rep : Ty) (exp : Expected) : Infer Term :=
  checkPrim .literal "number" [("val", val), ("rep", rep)] exp

def checkNum (value base digits : Int) (exp : Expected) : Infer Term :=
  let rep := match bitsPerDigit base with
    | some bits => .word (.num (Word.mul digits bits))
    | none => exp.type
  checkNumber (.num value) rep exp

def checkFrac (num den : Int) (exp : Expected) : Infer Term :=
  checkPrim .literal "fraction"
    [("m", .num num), ("n", .num den), ("r", .num 0), ("a", exp.type)] exp

/-- The type of characters. -/
def charType : Ty := .word (.num 8)

def checkChar (code : Int) (exp : Expected) : Infer Term := checkNumber (.num code) charType exp

def checkString (s : String) (exp : Expected) : Infer Term := do
  unifyExact exp (.seq (.num s.length) charType)
  let elems ← s.toList.mapM fun c => checkChar c.toNat ⟨charType, .seqElement⟩
  return .list elems charType

/-- A bound of an enumeration, if it is written. -/
def checkBound (label : String) : Option TypeExpr → Infer (List (String × Ty))
  | none => return []
  | some t => return [(label, ← checkType t .num)]

/-- The primitive for an enumeration, and how it names its bounds. -/
def enumerationPrim (e : Enumeration) : String × List (String × Option TypeExpr) :=
  match e.next, e.stride, e.down, e.strict with
  | some _, _, _, _ => ("fromThenTo", [("next", e.next), ("last", e.last)])
  | none, some _, false, true => ("fromToByLessThan", [("bound", e.last), ("stride", e.stride)])
  | none, some _, false, false => ("fromToBy", [("last", e.last), ("stride", e.stride)])
  | none, some _, true, true =>
    ("fromToDownByGreaterThan", [("bound", e.last), ("stride", e.stride)])
  | none, some _, true, false => ("fromToDownBy", [("last", e.last), ("stride", e.stride)])
  | none, none, _, true => ("fromToLessThan", [("bound", e.last)])
  | none, none, _, false => ("fromTo", [("last", e.last)])

def checkEnumeration (e : Enumeration) (exp : Expected) : Infer Term := do
  let elem ← match e.elem with
    | none => pure []
    | some t => pure [("a", ← checkType t .type)]
  let first ← checkBound "first" e.first
  let (ident, bounds) := enumerationPrim e
  let rest ← bounds.mapM fun b => checkBound b.1 b.2
  checkPrim .enumeration ident (first ++ elem ++ rest.flatten) exp

end SizedTypes.Infer
