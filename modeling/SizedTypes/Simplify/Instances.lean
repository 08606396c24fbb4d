import SizedTypes.Size
import SizedTypes.Ty.Predicate

/-!
# Instances of the type classes

Which types belong to a class, and what has to hold for that. An unknown type decides nothing
yet; a type that can never belong to the class refutes the predicate.
-/

set_option autoImplicit false

namespace SizedTypes

/-- One step of simplification. -/
inductive Verdict where
  /-- Nothing can be said yet. -/
  | undecided
  /-- The predicate can never hold. -/
  | unsolvable
  /-- The predicate holds exactly if all of these hold. -/
  | reduced (subs : List Ty)
deriving Inhabited

namespace Verdict

/-- The predicate holds. -/
def holds : Verdict := reduced []

end Verdict

namespace TyClass

open Ty

/-- Holds of tuples and records whose components all belong to the class. -/
def isStructural : TyClass → Bool
  | zero | logic | ring | eq | cmp | signedCmp => true
  | _ => false

/-- Holds of functions whose results belong to the class. -/
def isPointwise : TyClass → Bool
  | zero | logic | ring => true
  | _ => false

def forBit (c : TyClass) (vals : List Ty) : Verdict :=
  match c, vals with
  | zero, _ | logic, _ | eq, _ | cmp, _ => .holds
  | literal, n :: _ => .reduced [fin n, geq (num 1) n]
  | literalLessThan, n :: _ => .reduced [geq (num 2) n]
  | _, _ => .unsolvable

def forInteger (c : TyClass) (vals : List Ty) : Verdict :=
  match c, vals with
  | zero, _ | ring, _ | integral, _ | eq, _ | cmp, _ | literalLessThan, _ => .holds
  | literal, n :: _ => .reduced [fin n]
  | _, _ => .unsolvable

def forRational (c : TyClass) (vals : List Ty) : Verdict :=
  match c, vals with
  | zero, _ | ring, _ | field, _ | round, _ | eq, _ | cmp, _ | literalLessThan, _ => .holds
  | literal, n :: _ => .reduced [fin n]
  | fractionLiteral, m :: n :: _ => .reduced [fin m, fin n, geq n (num 1)]
  | _, _ => .unsolvable

/-- Integers modulo `n`. -/
def forIntMod (c : TyClass) (vals : List Ty) (n : Ty) : Verdict :=
  match c, vals with
  | zero, _ | ring, _ | eq, _ => .reduced [fin n, geq n (num 1)]
  | field, _ => .reduced [prime n]
  | literal, m :: _ => .reduced [fin m, fin n, geq n (op .add [m, num 1])]
  | literalLessThan, m :: _ => .reduced [fin n, geq n (num 1), geq n m]
  | _, _ => .unsolvable

/-- What an instance for sequences needs to know about their elements. -/
inductive Element where
  | unknown
  | bit
  | other
deriving DecidableEq, Repr

def Element.of (elem : Ty) : Element :=
  match elem with
  | .free _ => .unknown
  | _ => if elem.same Ty.bit then .bit else .other

/-- Sequences of `n` elements; sequences of bits are numbers. -/
def forSeq (c : TyClass) (vals : List Ty) (n elem : Ty) : Verdict :=
  match c, Element.of elem, vals with
  | zero, _, _ | logic, _, _ => .reduced [cls c [elem]]
  | eq, _, _ | cmp, _, _ => .reduced [fin n, cls c [elem]]
  | ring, .bit, _ => .reduced [fin n]
  | ring, .unknown, _ => .undecided
  | ring, .other, _ => .reduced [cls c [elem]]
  | signedCmp, .bit, _ => .reduced [fin n, geq n (num 1)]
  | signedCmp, .unknown, _ => .undecided
  | signedCmp, .other, _ => .reduced [fin n, cls c [elem]]
  | integral, .unknown, _ | literal, .unknown, _ | literalLessThan, .unknown, _ => .undecided
  | integral, .bit, _ => .reduced [fin n]
  | literal, .bit, m :: _ => .reduced [fin m, fin n, geq n (op .width [m])]
  | literalLessThan, .bit, m :: _ => .reduced [fin n, geq (op .exp [num 2, n]) m]
  | _, _, _ => .unsolvable

/-- The instance for a type that is no synonym. Literal classes carry values before it. -/
def instanceFor (c : TyClass) (vals : List Ty) : Ty → Verdict
  | .free _ | .bound _ => .undecided
  | .record fields =>
    if c.isStructural then .reduced (fields.map fun f => cls c [f.2]) else .unsolvable
  | .con (.tuple _) ts =>
    if c.isStructural then .reduced (ts.map fun t => cls c [t]) else .unsolvable
  | .con .arrow (_ :: b :: _) => if c.isPointwise then .reduced [cls c [b]] else .unsolvable
  | .con .bit _ => c.forBit vals
  | .con .integer _ => c.forInteger vals
  | .con .rational _ => c.forRational vals
  | .con .intMod (n :: _) => c.forIntMod vals n
  | .con .seq (n :: a :: _) => c.forSeq vals n a.expand
  | _ => .unsolvable

/-- Simplify a class predicate with these arguments; the last one is the type. -/
def step (c : TyClass) (args : List Ty) : Verdict :=
  match args.getLast? with
  | some t => c.instanceFor args.dropLast t.expand
  | none => .undecided

end TyClass
end SizedTypes
