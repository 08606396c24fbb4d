import SizedTypes.Ty

/-!
# Sizes

The values of numeric types: words and infinity. `eval` computes the value of a type without
variables; it has no value where a function on sizes is undefined or leaves the words.
-/

set_option autoImplicit false

namespace SizedTypes

inductive Size where
  | finite (n : Int)
  | inf
deriving DecidableEq, Repr, Inhabited

namespace Size

/-- The numeric type with this value. -/
def toTy : Size → Ty
  | finite n => .num n
  | inf => .inf

def geq : Size → Size → Bool
  | inf, _ => true
  | finite _, inf => false
  | finite a, finite b => decide (b ≤ a)

def isFinite : Size → Bool
  | finite _ => true
  | inf => false

def add : Size → Size → Option Size
  | finite a, finite b =>
    if Word.sub Word.maxValue b < a then none else some (finite (Word.add a b))
  | _, _ => some inf

def sub : Size → Size → Option Size
  | finite a, finite b => if a < b then none else some (finite (Word.sub a b))
  | inf, finite _ => some inf
  | _, inf => none

def mul : Size → Size → Option Size
  | finite a, finite b =>
    if a = 0 ∨ b = 0 then some (finite 0)
    else if Word.quot Word.maxValue b < a then none
    else some (finite (Word.mul a b))
  | finite a, inf | inf, finite a => if a = 0 then some (finite 0) else some inf
  | inf, inf => some inf

/-- `f` on finite sizes with a divisor other than zero. -/
def divided (f : Int → Int → Int) : Size → Size → Option Size
  | finite a, finite b => if b = 0 then none else some (finite (f a b))
  | _, _ => none

/-- The quotient, rounded up. -/
def ceilDiv (a b : Int) : Int := Word.quot (Word.sub (Word.add a b) 1) b

/-- What is missing to the next multiple of `b`. -/
def ceilMod (a b : Int) : Int := Word.sub (Word.mul (ceilDiv a b) b) a

/-- `acc * a ^ n`, unless a product leaves the words. -/
def power (a : Int) : Nat → Int → Option Int
  | 0, acc => some acc
  | n + 1, acc =>
    if a ≠ 0 ∧ Word.quot Word.maxValue a < acc then none else power a n (Word.mul acc a)

def exp : Size → Size → Option Size
  | _, finite 0 => some (finite 1)
  | inf, _ => some inf
  | finite a, inf => if 2 ≤ a then some inf else some (finite a)
  | finite a, finite b => (power a b.toNat 1).map finite

/-- The number of binary digits. -/
def width : Size → Size
  | inf => inf
  | finite n => finite (if n ≤ 0 then 0 else (Nat.log2 n.toNat : Int) + 1)

def min (a b : Size) : Size := if a.geq b then b else a

def max (a b : Size) : Size := if a.geq b then a else b

/-- The length of the enumeration that starts with `first` and `next` and does not pass `last`. -/
def lengthFromThenTo : Size → Size → Size → Option Size
  | finite first, finite next, finite last =>
    if first = next then none
    else if first < next then
      if last < first then some (finite 0)
      else some (finite (Word.add (Word.quot (Word.sub last first) (Word.sub next first)) 1))
    else if first < last then some (finite 0)
    else some (finite (Word.add (Word.quot (Word.sub first last) (Word.sub first next)) 1))
  | _, _, _ => none

end Size

/-- The value of a function on sizes, where it is defined. -/
def SizeOp.eval : SizeOp → List Size → Option Size
  | .width, a :: _ => some a.width
  | .lengthFromThenTo, a :: b :: c :: _ => Size.lengthFromThenTo a b c
  | .add, a :: b :: _ => a.add b
  | .sub, a :: b :: _ => a.sub b
  | .mul, a :: b :: _ => a.mul b
  | .div, a :: b :: _ => Size.divided Word.quot a b
  | .mod, a :: b :: _ => Size.divided Word.rem a b
  | .ceilDiv, a :: b :: _ => Size.divided Size.ceilDiv a b
  | .ceilMod, a :: b :: _ => Size.divided Size.ceilMod a b
  | .exp, a :: b :: _ => a.exp b
  | .min, a :: b :: _ => some (a.min b)
  | .max, a :: b :: _ => some (a.max b)
  | _, _ => none

namespace Ty

mutual
/-- The value of a numeric type built from literals, `inf` and functions on sizes. -/
def eval : Ty → Option Size
  | con (.num n) _ => some (.finite n)
  | con .inf _ => some .inf
  | con (.op f) args => (evalList args).bind f.eval
  | synonym _ _ body => eval body
  | _ => none

def evalList : List Ty → Option (List Size)
  | [] => some []
  | t :: ts => (eval t).bind fun a => (evalList ts).map (a :: ·)
end

mutual
/-- Put values in place of the applications of functions on sizes that have one. -/
def normalize : Ty → Ty
  | con (.op f) args =>
    let t := con (.op f) (normalizeList args)
    match t.eval with
    | some n => n.toTy
    | none => t
  | con c args => con c (normalizeList args)
  | record fields => record (normalizeFields fields)
  | synonym n args body => synonym n (normalizeList args) (normalize body)
  | newtype n ps fields args => newtype n ps fields (normalizeList args)
  | t => t

def normalizeList : List Ty → List Ty
  | [] => []
  | t :: ts => normalize t :: normalizeList ts

def normalizeFields : List (String × Ty) → List (String × Ty)
  | [] => []
  | (l, t) :: fs => (l, normalize t) :: normalizeFields fs
end

end Ty

/-! ## Primes -/

/-- No word from `d` on, up to the first whose square exceeds `n`, divides `n`. -/
def hasNoDivisorFrom (n d : Int) : Bool :=
  if Word.mul d d ≤ n then
    if Word.rem n d = 0 then false
    else if d < n then hasNoDivisorFrom n (d + 1)
    else true
  else true
termination_by (n - d).toNat

/-- Trial division. -/
def isPrime (n : Int) : Bool := if n < 2 then false else hasNoDivisorFrom n 2

end SizedTypes
