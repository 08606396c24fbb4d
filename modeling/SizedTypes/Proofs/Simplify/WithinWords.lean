import SizedTypes.Proofs.Simplify.Evaluation

/-!
# Evaluation where all arithmetic stays within the words

Rounding and the count of an enumeration are computed without a guard, and the other functions on
sizes give up where a result leaves the words. Where no sum, product or power that is formed on
the way leaves them, a function has a value wherever it is defined, and the value is exact.
-/

set_option autoImplicit false

namespace SizedTypes

/-- The sums, products and powers that are formed for a function on sizes are words. -/
def SizeOp.WithinWords : SizeOp → List Size → Prop
  | .add, [.finite a, .finite b] => Word.Fits (a + b)
  | .mul, [.finite a, .finite b] => Word.Fits (a * b)
  | .exp, [.finite a, .finite b] => Word.Fits (a ^ b.toNat)
  | .ceilDiv, [.finite a, .finite b] => Word.Fits (a + b)
  | .ceilMod, [.finite a, .finite b] => Word.Fits (a + b) ∧ Word.Fits ((a + b - 1) / b * b)
  | .lengthFromThenTo, [.finite a, .finite b, .finite c] =>
    Word.Fits ((c - a).natAbs / (b - a).natAbs + 1)
  | _, _ => True

mutual
/-- What is computed for the value of a closed size stays within the words. -/
def Ty.WithinWords : Ty → Prop
  | .con (.op f) args => listWithinWords args ∧ ∀ ms, Ty.evalList args = some ms → f.WithinWords ms
  | .synonym _ _ body => body.WithinWords
  | _ => True

def Ty.listWithinWords : List Ty → Prop
  | [] => True
  | t :: ts => t.WithinWords ∧ listWithinWords ts
end

namespace Size

variable {m n l : ℕ}

theorem add_finite (hn : (n : Int) ≤ Word.maxValue)
    (h : SizeOp.add.WithinWords [.finite m, .finite n]) :
    (finite m).add (.finite n) = some (.finite (m + n : ℕ)) := by
  have hsum : (m : Int) + n ≤ Word.maxValue := h.2
  have hsub : Word.sub Word.maxValue n = Word.maxValue - n :=
    Word.wrap_eq_self ⟨by unfold Word.maxValue at *; omega, by omega⟩
  rw [add, if_neg (by omega), Word.add, ← Int.natCast_add, Word.wrap_natCast (by omega)]

theorem sub_finite (hm : (m : Int) ≤ Word.maxValue) (h : n ≤ m) :
    (finite m).sub (.finite n) = some (.finite (m - n : ℕ)) := by
  rw [sub, if_neg (by omega), Word.sub_natCast hm h]

/-- Infinity takes part in a difference, too. -/
theorem Denotes.exists_sub {a b : Size} {x y : ℕ∞} (ha : a.Denotes x) (hb : b.Denotes y)
    (h : y ≤ x) (hy : y ≠ ⊤) : ∃ c, a.sub b = some c ∧ c.Denotes (x - y) := by
  have hsome : (a.sub b).isSome := by
    cases hb with
    | inf => exact absurd rfl hy
    | finite n hn =>
      cases ha with
      | inf => rfl
      | finite m hm =>
        rw [sub_finite hm (by exact_mod_cast h)]
        rfl
  obtain ⟨c, hc⟩ := Option.isSome_iff_exists.mp hsome
  exact ⟨c, hc, (ha.sub hb hc).2.2⟩

theorem divided_quot (hm : (m : Int) ≤ Word.maxValue) (hn : n ≠ 0) :
    divided Word.quot (.finite m) (.finite n) = some (.finite (m / n : ℕ)) := by
  rw [divided, if_neg (by omega), Word.quot_natCast n hm]

theorem divided_ceilDiv (hn : n ≠ 0) (h : SizeOp.ceilDiv.WithinWords [.finite m, .finite n]) :
    divided ceilDiv (.finite m) (.finite n) = some (.finite ((m + n - 1) / n : ℕ)) := by
  have hmax : ((m + n : ℕ) : Int) ≤ Word.maxValue := by
    have := h.2
    omega
  have hround : Word.sub (Word.add m n) 1 = (m + n - 1 : ℕ) := by
    rw [Word.add, ← Int.natCast_add, Word.wrap_natCast hmax]
    exact Word.sub_natCast (n := 1) hmax (by omega)
  rw [divided, if_neg (by omega), ceilDiv, hround, Word.quot_natCast n (by omega)]

/-- A count of steps, with the first element. -/
theorem add_quot_one (n : ℕ) (hm : (m : Int) ≤ Word.maxValue)
    (h : Word.Fits ((m : Int) / (n : Int) + 1)) :
    Word.add (Word.quot m n) 1 = (m / n + 1 : ℕ) ∧ ((m / n + 1 : ℕ) : Int) ≤ Word.maxValue := by
  have hmax : ((m / n + 1 : ℕ) : Int) ≤ Word.maxValue := by exact_mod_cast h.2
  rw [Word.quot_natCast n hm]
  exact ⟨Word.wrap_natCast hmax, hmax⟩

theorem lengthFromThenTo_up (hl : (l : Int) ≤ Word.maxValue) (hmn : m < n)
    (hn : (n : Int) ≤ Word.maxValue)
    (h : SizeOp.lengthFromThenTo.WithinWords [.finite m, .finite n, .finite l]) :
    ∃ c : ℕ, lengthFromThenTo (.finite m) (.finite n) (.finite l) = some (.finite c) ∧
      (c : Int) ≤ Word.maxValue ∧ c = if l < m then 0 else (l - m) / (n - m) + 1 := by
  rw [lengthFromThenTo, if_neg (by omega), if_pos (by omega)]
  rcases Nat.lt_or_ge l m with hlt | hge
  · rw [if_pos (by omega), if_pos hlt]
    exact ⟨0, rfl, by decide, rfl⟩
  · have hnum : ((l : Int) - m).natAbs = l - m := by omega
    have hden : ((n : Int) - m).natAbs = n - m := by omega
    rw [SizeOp.WithinWords, hnum, hden] at h
    obtain ⟨hcount, hmax⟩ := add_quot_one (n - m) (by omega) h
    rw [if_neg (by omega), if_neg (by omega), Word.sub_natCast hl hge,
      Word.sub_natCast hn hmn.le, hcount]
    exact ⟨_, rfl, hmax, rfl⟩

theorem lengthFromThenTo_down (hm : (m : Int) ≤ Word.maxValue) (hnm : n < m)
    (h : SizeOp.lengthFromThenTo.WithinWords [.finite m, .finite n, .finite l]) :
    ∃ c : ℕ, lengthFromThenTo (.finite m) (.finite n) (.finite l) = some (.finite c) ∧
      (c : Int) ≤ Word.maxValue ∧ c = if m < l then 0 else (m - l) / (m - n) + 1 := by
  rw [lengthFromThenTo, if_neg (by omega), if_neg (by omega)]
  rcases Nat.lt_or_ge m l with hlt | hge
  · rw [if_pos (by omega), if_pos hlt]
    exact ⟨0, rfl, by decide, rfl⟩
  · have hnum : ((l : Int) - m).natAbs = m - l := by omega
    have hden : ((n : Int) - m).natAbs = m - n := by omega
    rw [SizeOp.WithinWords, hnum, hden] at h
    obtain ⟨hcount, hmax⟩ := add_quot_one (m - n) (by omega) h
    rw [if_neg (by omega), if_neg (by omega), Word.sub_natCast hm hge,
      Word.sub_natCast hm hnm.le, hcount]
    exact ⟨_, rfl, hmax, rfl⟩

end Size

namespace Ty

variable {f : SizeOp} {a b c : Ty} {k m n : Size}

theorem eval_op {args : List Ty} {ms : List Size} (h : evalList args = some ms) :
    (op f args).eval = f.eval ms := by
  rw [op, eval, h]
  rfl

theorem evalList_pair (ha : a.eval = some m) (hb : b.eval = some n) :
    evalList [a, b] = some [m, n] := by
  simp [evalList, ha, hb]

theorem evalList_triple (ha : a.eval = some k) (hb : b.eval = some m) (hc : c.eval = some n) :
    evalList [a, b, c] = some [k, m, n] := by
  simp [evalList, ha, hb, hc]

theorem WithinWords.op_eval {args : List Ty} {ms : List Size} (h : (op f args).WithinWords)
    (hargs : evalList args = some ms) : f.WithinWords ms :=
  h.2 ms hargs

end Ty
end SizedTypes
