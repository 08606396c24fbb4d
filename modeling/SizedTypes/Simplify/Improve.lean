import SizedTypes.Size
import SizedTypes.Ty.Predicate
import SizedTypes.Subst

/-!
# Improvement

An equality of sizes can force the value of a variable: when one side is a number and the other
is the variable, alone or under sums, differences and products with numbers.
-/

set_option autoImplicit false

namespace SizedTypes

/-- The finite value of a numeric type. -/
def Ty.evalFinite (t : Ty) : Option Int :=
  match t.eval with
  | some (.finite n) => some n
  | _ => none

namespace Improve

/-- The value that the variable of a type takes where the type has the value `n`. -/
def invert : Ty → Int → Option (TyVar × Ty)
  | .free v, n => some (v, .num n)
  | .synonym _ _ body, n => invert body n
  | .con (.op .add) [a, b], n =>
    match a.evalFinite, b.evalFinite with
    | some m, k =>
      if m ≤ n then invert b (Word.sub n m)
      else match k with
        | some k => if k ≤ n then invert a (Word.sub n k) else none
        | none => none
    | none, some k => if k ≤ n then invert a (Word.sub n k) else none
    | none, none => none
  | .con (.op .sub) [a, b], n =>
    match a.evalFinite, b.evalFinite with
    | _, some k => invert a (Word.add n k)
    | some m, none => if n ≤ m then invert b (Word.sub m n) else none
    | none, none => none
  | .con (.op .mul) [a, b], n =>
    match a.evalFinite, b.evalFinite with
    | some m, k =>
      if 0 < m ∧ Word.rem n m = 0 then invert b (Word.quot n m)
      else match k with
        | some k => if 0 < k ∧ Word.rem n k = 0 then invert a (Word.quot n k) else none
        | none => none
    | none, some k => if 0 < k ∧ Word.rem n k = 0 then invert a (Word.quot n k) else none
    | none, none => none
  | _, _ => none

/-- What follows for `t` from the value of the other side. -/
def against (t : Ty) : Option Size → Option (TyVar × Ty)
  | none => none
  | some n => match t.asFree?, n with
    | some v, n => some (v, n.toTy)
    | none, .finite n => invert t n
    | none, .inf => none

end Improve

/-- The binding that an equality of sizes forces. -/
def improve (p : Ty) : Option (TyVar × Ty) :=
  match p.asCompare? .equal with
  | some (a, b) => (Improve.against a b.eval).or (Improve.against b a.eval)
  | none => none

/-- The substitution, the goals left open, newest first, and whether a variable was bound. -/
structure Improvement where
  subst : Subst
  rest : List Ty := []
  improved : Bool := false

/-- Bind the variable that a goal forces, or keep the goal. -/
def Improvement.absorb (i : Improvement) (goal : Ty) : Improvement :=
  match improve goal with
  | none => { i with rest := goal :: i.rest }
  | some (v, t) => match i.subst.extend v t with
    | .ok s => { i with subst := s, improved := true }
    | .error _ => { i with rest := goal :: i.rest }

end SizedTypes
