import Mathlib.Data.Rat.Floor
import SizedTypes.Proofs.Prelude.Enumerations
import SizedTypes.Proofs.Size.Guarded

/-!
# Rounding and counting without a guard

A quotient rounded up, what is missing to the next multiple and the length of an enumeration are
computed without a guard. They are defined where they have a value, but on the way a sum can leave
the words and wrap around. For each of the three the arguments at which this spoils the value are
named here; at all others the value is the mathematical one.

So a closed size evaluates to its mathematical value as far as its literals are natural and no
unguarded sum leaves the words, also where a function is applied to more arguments than it takes.
-/

set_option autoImplicit false

namespace SizedTypes

/-- The sizes of an enumeration with the given first, second and last one, upward or downward. -/
def progression (first next last : ℕ∞) : Set ℕ :=
  if first < next then ascending first (next - first) (· ≤ last)
  else descending first (first - next) (last ≤ ·)

namespace SizeOp

/-- The mathematical value of a function on sizes, where it is defined: that of `denote`, and those
of the functions without a guard. -/
noncomputable def exact : SizeOp → List ℕ∞ → Option ℕ∞
  | .ceilDiv, [a, b] => Size.quotient (fun m n => ⌈(m / n : ℚ)⌉₊) a b
  | .ceilMod, [a, b] => Size.quotient (fun m n => ⌈(m / n : ℚ)⌉₊ * n - m) a b
  | .lengthFromThenTo, [a, b, c] =>
    if a = ⊤ ∨ b = ⊤ ∨ c = ⊤ ∨ a = b then none else some (progression a b c).encard
  | f, xs => f.denote xs

/-- An unguarded sum leaves the words, and the value that comes out is wrong. This is less than that
some sum leaves the words. -/
def Overflows : SizeOp → List Size → Prop
  | .ceilDiv, .finite a :: .finite b :: _ => Word.maxValue < a + b - 1
  | .ceilMod, .finite a :: .finite b :: _ =>
    Word.maxValue < a + b - 1 ∧ ¬ (b ∣ 18446744073709551616 ∧ b ∣ a - 1)
  | .lengthFromThenTo, .finite a :: .finite b :: .finite c :: _ =>
    (a, b, c) = (0, 1, Word.maxValue) ∨ (a, b, c) = (Word.maxValue, Word.maxValue - 1, 0)
  | _, _ => False

end SizeOp

/-! ## Words that wrap around -/

namespace Word

theorem maxValue_eq : maxValue = 9223372036854775807 := rfl

/-- One turn too high. -/
theorem wrap_of_maxValue_lt {x : Int} (h : maxValue < x)
    (h' : x ≤ maxValue + 18446744073709551616) : wrap x = x - 18446744073709551616 := by
  rw [maxValue_eq] at h h'
  unfold wrap Int.bmod
  dsimp only
  split <;> omega

/-- One turn too low. -/
theorem wrap_of_lt_minValue {x : Int} (h : x < -9223372036854775808)
    (h' : -27670116110564327424 ≤ x) : wrap x = x + 18446744073709551616 := by
  unfold wrap Int.bmod
  dsimp only
  split <;> omega

variable {m n : ℕ}

/-- The dividend of a quotient that is rounded up, where it is a word. -/
theorem sub_add_one_of_le (h : (m : Int) + n - 1 ≤ maxValue) :
    sub (add m n) 1 = (m : Int) + n - 1 := by
  have hmax := maxValue_eq
  unfold sub add
  rcases Int.lt_or_le maxValue ((m : Int) + n) with hlt | hle
  · rw [wrap_of_maxValue_lt hlt (by omega), wrap_of_lt_minValue (by omega) (by omega)]
    omega
  · rw [wrap_eq_self ⟨by omega, hle⟩, wrap_eq_self ⟨by omega, h⟩]

/-- The dividend of a quotient that is rounded up, where it is too high. -/
theorem sub_add_one_of_lt (hm : (m : Int) ≤ maxValue) (hn : (n : Int) ≤ maxValue)
    (h : maxValue < (m : Int) + n - 1) :
    sub (add m n) 1 = -(18446744073709551616 - (m + n - 1) : ℕ) := by
  have hmax := maxValue_eq
  have hlt : maxValue < (m : Int) + n := by omega
  unfold sub add
  rw [wrap_of_maxValue_lt hlt (by omega), wrap_eq_self ⟨by omega, by omega⟩]
  omega

theorem quot_neg_natCast (hm : (m : Int) ≤ maxValue + 1) (n : ℕ) :
    quot (-m) n = -(m / n : ℕ) := by
  have hmax := maxValue_eq
  have hle : m / n ≤ m := Nat.div_le_self m n
  have heq : Int.tdiv (-m) n = -(m / n : ℕ) := by
    rw [Int.neg_tdiv]
    rfl
  rw [quot, heq]
  generalize m / n = q at hle
  exact wrap_eq_self ⟨by omega, by omega⟩

end Word

/-! ## Quotients that are rounded up -/

/-- A quotient of natural numbers, rounded up. -/
theorem natCeil_div (m : ℕ) {n : ℕ} (hn : 0 < n) : ⌈(m / n : ℚ)⌉₊ = (m + n - 1) / n := by
  refine eq_of_forall_ge_iff fun k => ?_
  have hcast : (m : ℚ) ≤ k * n ↔ m ≤ n * k := by
    rw [Nat.mul_comm]
    exact_mod_cast Iff.rfl
  rw [Nat.ceil_le, div_le_iff₀ (by exact_mod_cast hn), hcast, Nat.div_le_iff_le_mul_add_pred hn]
  omega

namespace Size

variable {m n l : ℕ}

/-- Division is defined at the same arguments as the quotient that it computes. -/
theorem Denotes.isSome_divided_iff {a b : Size} {x y : ℕ∞} {f : Int → Int → Int} {g : ℕ → ℕ → ℕ}
    (ha : a.Denotes x) (hb : b.Denotes y) :
    (Size.divided f a b).isSome ↔ (quotient g x y).isSome := by
  cases ha with
  | inf => cases hb <;> simp [Size.divided, quotient]
  | finite m hm =>
    cases hb with
    | inf => simp [Size.divided, quotient]
    | finite n hn => by_cases hz : n = 0 <;> simp [Size.divided, quotient, hz]

/-- A division that has a value, of a word by another one. -/
theorem Denotes.divided_cases {a b s : Size} {x y z : ℕ∞} {f : Int → Int → Int} {g : ℕ → ℕ → ℕ}
    (ha : a.Denotes x) (hb : b.Denotes y) (hs : Size.divided f a b = some s)
    (hz : quotient g x y = some z) :
    ∃ m n : ℕ, a = .finite m ∧ b = .finite n ∧ (m : Int) ≤ Word.maxValue ∧
      (n : Int) ≤ Word.maxValue ∧ n ≠ 0 ∧ s = .finite (f m n) ∧ z = (g m n : ℕ) := by
  cases ha with
  | inf => cases hb <;> cases hs
  | finite m hm =>
    cases hb with
    | inf => cases hs
    | finite n hn =>
      rw [Size.divided, Option.ite_none_left_eq_some] at hs
      rw [quotient, Option.ite_none_left_eq_some] at hz
      obtain ⟨hn0, hs⟩ := hs
      obtain ⟨-, hz⟩ := hz
      cases hs
      cases hz
      exact ⟨m, n, rfl, rfl, hm, hn, by omega, rfl, rfl⟩

theorem ceilDiv_of_le (hn : n ≠ 0) (h : (m : Int) + n - 1 ≤ Word.maxValue) :
    ceilDiv m n = (⌈(m / n : ℚ)⌉₊ : ℕ) := by
  have hcast : (m : Int) + n - 1 = (m + n - 1 : ℕ) := by omega
  rw [ceilDiv, Word.sub_add_one_of_le h, hcast, Word.quot_natCast n (by omega),
    natCeil_div m (Nat.pos_of_ne_zero hn)]

theorem ceilDiv_of_lt (hm : (m : Int) ≤ Word.maxValue) (hn : (n : Int) ≤ Word.maxValue)
    (h : Word.maxValue < (m : Int) + n - 1) :
    ceilDiv m n = -((18446744073709551616 - (m + n - 1)) / n : ℕ) := by
  have hmax := Word.maxValue_eq
  rw [ceilDiv, Word.sub_add_one_of_lt hm hn h, Word.quot_neg_natCast (by omega)]

theorem Denotes.exists_natCast {i : Int} {x : ℕ∞} (h : (Size.finite i).Denotes x) :
    ∃ m : ℕ, i = m ∧ (m : Int) ≤ Word.maxValue ∧ x = m := by
  generalize hs : Size.finite i = s at h
  cases h with
  | finite n hn =>
    cases hs
    exact ⟨n, rfl, hn, rfl⟩
  | inf => cases hs

theorem denotes_finite_iff {i : Int} {c : ℕ} :
    (finite i).Denotes c ↔ i = c ∧ i ≤ Word.maxValue := by
  constructor
  · intro h
    obtain ⟨m, rfl, hm, hx⟩ := h.exists_natCast
    obtain rfl : c = m := by exact_mod_cast hx
    exact ⟨rfl, hm⟩
  · rintro ⟨rfl, h⟩
    exact .finite c h

/-- A quotient that is rounded up is exact if its dividend is a word, and not positive otherwise. -/
theorem denotes_ceilDiv_iff (hm : (m : Int) ≤ Word.maxValue) (hn : (n : Int) ≤ Word.maxValue)
    (hn0 : n ≠ 0) :
    (finite (ceilDiv m n)).Denotes (⌈(m / n : ℚ)⌉₊ : ℕ) ↔ (m : Int) + n - 1 ≤ Word.maxValue := by
  have hceil := natCeil_div m (Nat.pos_of_ne_zero hn0)
  rw [denotes_finite_iff]
  constructor
  · rintro ⟨heq, -⟩
    by_contra hlt
    rw [not_le] at hlt
    have hpos : 0 < ⌈(m / n : ℚ)⌉₊ := by
      rw [hceil, Nat.div_pos_iff]
      omega
    rw [ceilDiv_of_lt hm hn hlt] at heq
    generalize (18446744073709551616 - (m + n - 1)) / n = q at heq
    omega
  · intro h
    have hle : (m + n - 1) / n ≤ m + n - 1 := Nat.div_le_self _ _
    rw [ceilDiv_of_le hn0 h, hceil]
    exact ⟨rfl, by omega⟩

/-- The multiple wraps around together with the dividend. -/
theorem ceilMod_of_lt (hm : (m : Int) ≤ Word.maxValue) (hn : (n : Int) ≤ Word.maxValue)
    (h : Word.maxValue < (m : Int) + n - 1) :
    ceilMod m n = Word.wrap (n - 1 + (18446744073709551616 - (m + n - 1)) % n : ℕ) := by
  have hmax := Word.maxValue_eq
  have hdiv := Nat.div_add_mod' (18446744073709551616 - (m + n - 1)) n
  rw [ceilMod, ceilDiv_of_lt hm hn h]
  generalize (18446744073709551616 - (m + n - 1)) / n = q at hdiv ⊢
  generalize (18446744073709551616 - (m + n - 1)) % n = r at hdiv ⊢
  have hmul : Word.mul (-(q : Int)) n = -((q * n : ℕ) : Int) := by
    rw [Word.mul, Int.neg_mul, ← Int.natCast_mul]
    exact Word.wrap_eq_self ⟨by omega, by omega⟩
  have hturn : -((q * n : ℕ) : Int) - m = ((n - 1 + r : ℕ) : Int) - (18446744073709551616 : ℕ) := by
    omega
  rw [hmul, Word.sub, hturn, Word.wrap, Int.sub_bmod_right, Word.wrap]

/-- Divisors of a turn and of the predecessor of the dividend, by the two rests that they leave. -/
theorem dvd_turn_iff (hm : 1 ≤ m) (h : m + n - 1 ≤ 18446744073709551616) :
    ((n : Int) ∣ 18446744073709551616 ∧ (n : Int) ∣ m - 1) ↔
      (18446744073709551616 - (m + n - 1)) % n = 0 ∧ (m + n - 1) % n = 0 := by
  have hround : m + n - 1 = m - 1 + n := by omega
  have hcast : (m : Int) - 1 = (m - 1 : ℕ) := by omega
  have hpred : (n : Int) ∣ m - 1 ↔ n ∣ m + n - 1 := by
    rw [hcast, Int.natCast_dvd_natCast, hround, Nat.dvd_add_self_right]
  have hturn : (n : Int) ∣ 18446744073709551616 ↔ n ∣ 18446744073709551616 :=
    Int.natCast_dvd_natCast (n := 18446744073709551616)
  rw [← Nat.dvd_iff_mod_eq_zero, ← Nat.dvd_iff_mod_eq_zero, hpred, hturn]
  refine and_congr_left fun hdvd => ?_
  have hrest := Nat.dvd_add_left (b := 18446744073709551616 - (m + n - 1)) hdvd
  rwa [Nat.sub_add_cancel h] at hrest

/-- What is missing to the next multiple is exact if the dividend of the rounded quotient is a word.
If this dividend wraps around, the two errors cancel out only where the divisor divides both the
turn and the predecessor of the dividend. -/
theorem denotes_ceilMod_iff (hm : (m : Int) ≤ Word.maxValue) (hn : (n : Int) ≤ Word.maxValue)
    (hn0 : n ≠ 0) :
    (finite (ceilMod m n)).Denotes (⌈(m / n : ℚ)⌉₊ * n - m : ℕ) ↔
      (m : Int) + n - 1 ≤ Word.maxValue ∨ (n : Int) ∣ 18446744073709551616 ∧ (n : Int) ∣ m - 1 := by
  have hmax := Word.maxValue_eq
  have hceil := natCeil_div m (Nat.pos_of_ne_zero hn0)
  have hmul : (m + n - 1) / n * n + (m + n - 1) % n = m + n - 1 := Nat.div_add_mod' _ _
  have hlt : (m + n - 1) % n < n := Nat.mod_lt _ (Nat.pos_of_ne_zero hn0)
  rw [denotes_finite_iff]
  rcases le_or_gt ((m : Int) + n - 1) Word.maxValue with h | h
  · rw [ceilMod, ceilDiv_of_le hn0 h, hceil, Word.mul_natCast (by omega),
      Word.sub_natCast (by omega) (by omega)]
    exact iff_of_true ⟨rfl, by omega⟩ (Or.inl h)
  · have hlt' : (18446744073709551616 - (m + n - 1)) % n < n :=
      Nat.mod_lt _ (Nat.pos_of_ne_zero hn0)
    rw [or_iff_right (not_le.mpr h), dvd_turn_iff (by omega) (by omega), ceilMod_of_lt hm hn h,
      hceil]
    generalize (18446744073709551616 - (m + n - 1)) % n = r at hlt' ⊢
    rcases le_or_gt ((n - 1 + r : ℕ) : Int) Word.maxValue with hle | hgt
    · rw [Word.wrap_natCast hle]
      omega
    · rw [Word.wrap_of_maxValue_lt hgt (by omega)]
      omega

/-! ## The lengths of enumerations -/

/-- Only an enumeration of all words has too many elements. -/
theorem withinWords_lengthFromThenTo (hm : (m : Int) ≤ Word.maxValue)
    (hn : (n : Int) ≤ Word.maxValue) (hl : (l : Int) ≤ Word.maxValue)
    (h : ¬ SizeOp.lengthFromThenTo.Overflows [.finite m, .finite n, .finite l]) :
    SizeOp.lengthFromThenTo.WithinWords [.finite m, .finite n, .finite l] := by
  have hmax := Word.maxValue_eq
  simp only [SizeOp.Overflows, Prod.mk.injEq] at h
  have hnum : ((l : Int) - m).natAbs ≤ 9223372036854775807 := by omega
  have hone : ((n : Int) - m).natAbs = 1 →
      ((l : Int) - m).natAbs ≠ 9223372036854775807 := by
    intro he
    omega
  rw [SizeOp.WithinWords, ← Int.natCast_div]
  generalize ((l : Int) - m).natAbs = d at hnum hone ⊢
  generalize ((n : Int) - m).natAbs = e at hone ⊢
  suffices d / e + 1 ≤ 9223372036854775807 by
    generalize d / e = q at this ⊢
    exact ⟨by omega, by omega⟩
  rcases Nat.lt_or_ge 1 e with he | he
  · have hhalf : d / e ≤ d / 2 := Nat.div_le_div_left he (by decide)
    omega
  · obtain rfl | rfl : e = 0 ∨ e = 1 := by omega
    · simp
    · rw [Nat.div_one]
      have := hone rfl
      omega

theorem encard_progression_up (h : m < n) :
    (progression m n l).encard = (if l < m then 0 else (l - m) / (n - m) + 1 : ℕ) := by
  rw [progression, if_pos (by exact_mod_cast h), ← ENat.natCast_sub, encard_upTo h]

theorem encard_progression_down (h : n < m) :
    (progression m n l).encard = (if m < l then 0 else (m - l) / (m - n) + 1 : ℕ) := by
  rw [progression, if_neg (by exact_mod_cast h.not_gt), ← ENat.natCast_sub, encard_downTo h]

theorem Denotes.isSome_lengthFromThenTo_iff {a b c : Size} {x y z w : ℕ∞} (ha : a.Denotes x)
    (hb : b.Denotes y) (hc : c.Denotes z) :
    (Size.lengthFromThenTo a b c).isSome ↔
      (if x = ⊤ ∨ y = ⊤ ∨ z = ⊤ ∨ x = y then none else some w).isSome := by
  cases ha with
  | inf => simp [Size.lengthFromThenTo]
  | finite m hm =>
    cases hb with
    | inf => simp [Size.lengthFromThenTo]
    | finite n hn =>
      cases hc with
      | inf => simp [Size.lengthFromThenTo]
      | finite l hl =>
        rcases eq_or_ne m n with rfl | hne
        · simp [Size.lengthFromThenTo]
        · rw [Size.lengthFromThenTo, if_neg (by omega)]
          split <;> split <;> simp [hne]

/-- The length of an enumeration is exact unless it is one of all words. -/
theorem denotes_lengthFromThenTo_iff {s : Size} (hm : (m : Int) ≤ Word.maxValue)
    (hn : (n : Int) ≤ Word.maxValue) (hl : (l : Int) ≤ Word.maxValue) (hne : m ≠ n)
    (hs : lengthFromThenTo (.finite m) (.finite n) (.finite l) = some s) :
    s.Denotes (progression m n l).encard ↔
      ¬ SizeOp.lengthFromThenTo.Overflows [.finite m, .finite n, .finite l] := by
  constructor
  · intro h hall
    have hwrap : s = finite (-9223372036854775808) := by
      rcases hall with hall | hall <;> simp only [Prod.mk.injEq] at hall <;>
        obtain ⟨hm, hn, hl⟩ := hall <;> rw [hm, hn, hl] at hs <;> cases hs <;> decide
    rw [hwrap] at h
    obtain ⟨c, hc, -⟩ := h.exists_natCast
    omega
  · intro h
    have hwithin := withinWords_lengthFromThenTo hm hn hl h
    rcases Nat.lt_or_gt_of_ne hne with hlt | hlt
    · obtain ⟨c, hc, hcmax, rfl⟩ := lengthFromThenTo_up hl hlt hn hwithin
      cases hc.symm.trans hs
      rw [encard_progression_up hlt]
      exact .finite _ hcmax
    · obtain ⟨c, hc, hcmax, rfl⟩ := lengthFromThenTo_down hm hlt hwithin
      cases hc.symm.trans hs
      rw [encard_progression_down hlt]
      exact .finite _ hcmax

end Size

namespace SizeOp

variable {f : SizeOp} {ms : List Size} {xs : List ℕ∞}

/-- A function that is not guarded has a value wherever it is defined, and the value is the
mathematical one except at the arguments at which a sum leaves the words. -/
theorem eval_rounded (hf : f.isGuarded = false) (h : List.Forall₂ Size.Denotes ms xs)
    (hlen : ms.length = f.kind.arity) :
    ((f.eval ms).isSome ↔ (f.exact xs).isSome) ∧
      ∀ s x, f.eval ms = some s → f.exact xs = some x → (s.Denotes x ↔ ¬ f.Overflows ms) := by
  cases f with
  | ceilDiv =>
    obtain ⟨a, b, rfl⟩ := List.length_eq_two.mp hlen
    rcases h with _ | ⟨ha, _ | ⟨hb, _ | _⟩⟩
    simp only [eval, exact]
    refine ⟨ha.isSome_divided_iff hb, fun s x hs hx => ?_⟩
    obtain ⟨m, n, rfl, rfl, hm, hn, hn0, rfl, rfl⟩ := ha.divided_cases hb hs hx
    rw [Size.denotes_ceilDiv_iff hm hn hn0, Overflows, not_lt]
  | ceilMod =>
    obtain ⟨a, b, rfl⟩ := List.length_eq_two.mp hlen
    rcases h with _ | ⟨ha, _ | ⟨hb, _ | _⟩⟩
    simp only [eval, exact]
    refine ⟨ha.isSome_divided_iff hb, fun s x hs hx => ?_⟩
    obtain ⟨m, n, rfl, rfl, hm, hn, hn0, rfl, rfl⟩ := ha.divided_cases hb hs hx
    rw [Size.denotes_ceilMod_iff hm hn hn0, Overflows, not_and_or, not_not, not_lt]
  | lengthFromThenTo =>
    obtain ⟨a, b, c, rfl⟩ := List.length_eq_three.mp hlen
    rcases h with _ | ⟨ha, _ | ⟨hb, _ | ⟨hc, _ | _⟩⟩⟩
    simp only [eval, exact]
    refine ⟨ha.isSome_lengthFromThenTo_iff hb hc, fun s x hs hx => ?_⟩
    rw [Option.ite_none_left_eq_some, not_or, not_or, not_or] at hx
    obtain ⟨⟨htopa, htopb, htopc, hne⟩, hx⟩ := hx
    cases hx
    obtain ⟨m, rfl, rfl, hm⟩ := ha.exists_finite htopa
    obtain ⟨n, rfl, rfl, hn⟩ := hb.exists_finite htopb
    obtain ⟨l, rfl, rfl, hl⟩ := hc.exists_finite htopc
    exact Size.denotes_lengthFromThenTo_iff hm hn hl (fun hmn => hne (congrArg _ hmn)) hs
  | _ => cases hf

/-- The dividend of the quotient is one turn too low here, and what is missing to the next multiple
is exact all the same. -/
theorem eval_rounded_cancelling :
    Word.maxValue < 4611686018427387905 + 4611686018427387904 - 1 ∧
      ∃ s x, ceilMod.eval [.finite 4611686018427387905, .finite 4611686018427387904] = some s ∧
        ceilMod.exact [(4611686018427387905 : ℕ), (4611686018427387904 : ℕ)] = some x ∧
        s.Denotes x := by
  have hargs : List.Forall₂ Size.Denotes
      [.finite 4611686018427387905, .finite 4611686018427387904]
      [(4611686018427387905 : ℕ), (4611686018427387904 : ℕ)] :=
    .cons (.finite 4611686018427387905 (by decide))
      (.cons (.finite 4611686018427387904 (by decide)) .nil)
  obtain ⟨hsome, hvalue⟩ := eval_rounded (f := ceilMod) rfl hargs rfl
  have hs : ceilMod.eval [.finite 4611686018427387905, .finite 4611686018427387904] =
      some (.finite 4611686018427387903) := by decide
  obtain ⟨x, hx⟩ := Option.isSome_iff_exists.mp (hsome.mp (by rw [hs]; rfl))
  refine ⟨by decide, _, x, hs, hx, (hvalue _ x hs hx).mpr ?_⟩
  rintro ⟨-, hdvd⟩
  exact hdvd (by decide)

/-- Half of the largest word, rounded up, comes out negative, and so does the length of the
enumeration of all words. -/
theorem eval_largestWord_by_two :
    ceilDiv.eval [.finite Word.maxValue, .finite 2] = some (.finite (-4611686018427387904)) ∧
      ceilDiv.exact [(9223372036854775807 : ℕ), (2 : ℕ)] = some ((4611686018427387904 : ℕ) : ℕ∞) ∧
      lengthFromThenTo.eval [.finite 0, .finite 1, .finite Word.maxValue] =
        some (.finite (-9223372036854775808)) ∧
      lengthFromThenTo.exact [(0 : ℕ), (1 : ℕ), (9223372036854775807 : ℕ)] =
        some ((9223372036854775808 : ℕ) : ℕ∞) := by
  refine ⟨by decide, ?_, by decide, ?_⟩
  · have hceil : ⌈((9223372036854775807 : ℕ) / (2 : ℕ) : ℚ)⌉₊ = 4611686018427387904 :=
      natCeil_div 9223372036854775807 (by decide)
    rw [exact, Size.quotient, if_neg (by simp), ENat.toNat_natCast, ENat.toNat_natCast, hceil]
  · rw [exact, if_neg (by simp), Size.encard_progression_up (by decide)]
    rfl

/-! ## Exact values of sizes -/

variable {f : SizeOp} {ms : List Size} {xs : List ℕ∞}

/-- A function that has a value reads as many arguments as it takes, and no others. -/
theorem eval_take (f : SizeOp) (ms : List Size) : f.eval (ms.take f.kind.arity) = f.eval ms := by
  cases f <;> rcases ms with _ | ⟨a, _ | ⟨b, _ | ⟨c, ms⟩⟩⟩ <;> rfl

theorem overflows_take (f : SizeOp) (ms : List Size) :
    f.Overflows (ms.take f.kind.arity) ↔ f.Overflows ms := by
  rcases ms with _ | ⟨_ | _, _ | ⟨_ | _, _ | ⟨_ | _, ms⟩⟩⟩ <;> cases f <;> rfl

/-- Within the words no sum overflows, guarded or not. -/
theorem WithinWords.not_overflows (hw : f.WithinWords ms) (hlen : ms.length = f.kind.arity) :
    ¬ f.Overflows ms := by
  intro hover
  cases f with
  | ceilDiv | ceilMod =>
    obtain ⟨m, n, rfl⟩ := List.length_eq_two.mp hlen
    cases m with
    | inf => exact hover
    | finite m =>
      cases n with
      | inf => exact hover
      | finite n =>
        simp only [WithinWords, Overflows, Word.Fits] at hw hover
        omega
  | lengthFromThenTo =>
    obtain ⟨k, m, n, rfl⟩ := List.length_eq_three.mp hlen
    cases k <;> cases m <;> cases n <;> try exact hover
    rcases hover with h | h <;> cases h <;> exact absurd (show Word.Fits _ from hw) (by decide)
  | _ => exact hover

theorem arity_le_length {s : Size} (hs : f.eval ms = some s) : f.kind.arity ≤ ms.length := by
  rcases ms with _ | ⟨a, _ | ⟨b, _ | ⟨c, ms⟩⟩⟩ <;> cases f <;>
    first | exact Nat.le_add_left _ _ | cases hs

/-- A function that is defined takes all of its arguments. -/
theorem length_of_exact {x : ℕ∞} (hx : f.exact xs = some x) : xs.length = f.kind.arity := by
  rcases xs with _ | ⟨a, _ | ⟨b, _ | ⟨c, _ | ⟨d, xs⟩⟩⟩⟩ <;> cases f <;>
    first | rfl | cases hx

/-- Only the guarded functions have a value in the meaning of sizes, the exact one. -/
theorem denote_eq_exact (f : SizeOp) (xs : List ℕ∞) :
    f.denote xs = if f.isGuarded then f.exact xs else none := by
  cases f <;> rfl

theorem exact_eq_denote (hf : f.isGuarded = true) : f.exact xs = f.denote xs := by
  rw [denote_eq_exact, if_pos hf]

/-- Values of functions are exact, as far as no unguarded sum leaves the words. -/
theorem denotes_exact {s : Size} {x : ℕ∞} (h : List.Forall₂ Size.Denotes ms xs)
    (hs : f.eval ms = some s) (hx : f.exact xs = some x) (hsum : ¬ f.Overflows ms) :
    s.Denotes x := by
  cases hf : f.isGuarded with
  | true => exact denotes_eval h ((exact_eq_denote hf).symm.trans hx) hs
  | false =>
    have hlen : ms.length = f.kind.arity := h.length_eq.trans (length_of_exact hx)
    exact ((eval_rounded hf h hlen).2 s x hs hx).mpr hsum

/-- Values of functions are natural words or infinite, as far as no unguarded sum leaves the words,
even at surplus arguments. -/
theorem exists_denotes {s : Size} (h : List.Forall₂ Size.Denotes ms xs) (hs : f.eval ms = some s)
    (hsum : ¬ f.Overflows ms) : ∃ x, s.Denotes x := by
  have hlen : (ms.take f.kind.arity).length = f.kind.arity := by
    rw [List.length_take, Nat.min_eq_left (arity_le_length hs)]
  have htake := List.forall₂_take f.kind.arity h
  rw [← eval_take] at hs
  rw [← overflows_take] at hsum
  have hdef : (f.exact (xs.take f.kind.arity)).isSome := by
    cases hf : f.isGuarded with
    | true =>
      rw [exact_eq_denote hf]
      exact isSome_denote hf htake hlen hs
    | false => exact (eval_rounded hf htake hlen).1.mp (by rw [hs]; rfl)
  obtain ⟨x, hx⟩ := Option.isSome_iff_exists.mp hdef
  exact ⟨x, denotes_exact htake hs hx hsum⟩

end SizeOp

/-! ### Closed sizes -/

namespace Ty

section

variable (ρ : Valuation)

mutual
/-- The mathematical value of a size, by all functions on sizes. It has none where a function is
undefined. It is that of `value`, where this has one. -/
noncomputable def exactValue : Ty → Option ℕ∞
  | free v => some (ρ.var v.id)
  | bound p => some (ρ.param p.id)
  | con (.num n) _ => if 0 ≤ n ∧ n ≤ Word.maxValue then some (n.toNat : ℕ∞) else none
  | con .inf _ => some ⊤
  | con (.op f) args => (exactValueList args).bind f.exact
  | synonym _ _ body => exactValue body
  | _ => none

noncomputable def exactValueList : List Ty → Option (List ℕ∞)
  | [] => some []
  | t :: ts => (exactValue t).bind fun a => (exactValueList ts).map (a :: ·)
end

end

/-- The values that are computed in a type are the mathematical ones: literals are natural, and no
unguarded sum leaves the words. -/
structure Faithful (t : Ty) : Prop where
  literals : ∀ n args, (con (.num n) args).PartOf t → 0 ≤ n ∧ n ≤ Word.maxValue
  sums : ∀ f args ms, (con (.op f) args).PartOf t → evalList args = some ms → ¬ f.Overflows ms

variable {ρ : Valuation} {t u w : Ty} {ts : List Ty} {ms : List Size}

theorem exactValueList_of_valueList {xs : List ℕ∞}
    (hts : ∀ t ∈ ts, ∀ x, t.value ρ = some x → t.exactValue ρ = some x)
    (h : valueList ρ ts = some xs) : exactValueList ρ ts = some xs := by
  induction ts generalizing xs with
  | nil => exact h
  | cons t ts ih =>
    obtain ⟨ht, hts⟩ := List.forall_mem_cons.mp hts
    rw [valueList, Option.bind_eq_some_iff] at h
    obtain ⟨x, hx, h⟩ := h
    obtain ⟨xs, hxs, rfl⟩ := Option.map_eq_some_iff.mp h
    rw [exactValueList, ht x hx, Option.bind_some, ih hts hxs]
    rfl

/-- The value of a size is the exact one, where it has one. -/
theorem exactValue_of_value {x : ℕ∞} (h : t.value ρ = some x) : t.exactValue ρ = some x := by
  induction t using Ty.induct generalizing x with
  | con c args ih =>
    cases c with
    | op f =>
      rw [value, Option.bind_eq_some_iff] at h
      obtain ⟨xs, hxs, hx⟩ := h
      rw [SizeOp.denote_eq_exact] at hx
      split at hx
      · rw [exactValue, exactValueList_of_valueList ih hxs]
        exact hx
      · cases hx
    | num n => simpa [value, exactValue] using h
    | inf => simpa [value, exactValue] using h
    | _ => simp [value] at h
  | synonym n args body _ ih =>
    rw [value] at h
    rw [exactValue]
    exact ih h
  | free v => simpa [value, exactValue] using h
  | bound p => simpa [value, exactValue] using h
  | _ => simp [value] at h

theorem PartOf.trans (h : u.PartOf t) (hw : w.PartOf u) : w.PartOf t := by
  induction h with
  | refl => exact hw
  | arg ha _ ih => exact .arg ha ih
  | body _ ih => exact .body ih

theorem Faithful.part (h : t.Faithful) (hu : u.PartOf t) : u.Faithful where
  literals n args hn := h.literals n args (hu.trans hn)
  sums f args ms hf := h.sums f args ms (hu.trans hf)

theorem Faithful.arg {c : Con} {args : List Ty} (h : (con c args).Faithful) :
    ∀ a ∈ args, a.Faithful :=
  fun _ ha => h.part (.arg ha .refl)

theorem Faithful.body {n : Name} {args : List Ty} (h : (synonym n args t).Faithful) : t.Faithful :=
  h.part (.body .refl)

theorem faithful_free (v : TyVar) : (free v).Faithful where
  literals _ _ h := nomatch h
  sums _ _ _ h := nomatch h

theorem Faithful.con {c : Con} {args : List Ty} (hargs : ∀ a ∈ args, a.Faithful)
    (hnum : ∀ n, c = .num n → 0 ≤ n ∧ n ≤ Word.maxValue)
    (hop : ∀ f ms, c = .op f → evalList args = some ms → ¬ f.Overflows ms) :
    (con c args).Faithful where
  literals n _ h := by
    cases h with
    | refl => exact hnum n rfl
    | arg ha h => exact (hargs _ ha).literals _ _ h
  sums f _ ms h hms := by
    cases h with
    | refl => exact hop f ms rfl hms
    | arg ha h => exact (hargs _ ha).sums _ _ ms h hms

theorem faithful_num {n : Int} (h : 0 ≤ n ∧ n ≤ Word.maxValue) : (num n).Faithful :=
  .con (fun _ ha => nomatch ha) (fun _ hc => by cases hc; exact h) (fun _ _ hc => nomatch hc)

theorem faithful_equal {a b : Ty} (ha : a.Faithful) (hb : b.Faithful) : (equal a b).Faithful :=
  .con (by simpa using ⟨ha, hb⟩) (fun _ hc => nomatch hc) (fun _ _ hc => nomatch hc)

theorem faithful_op {f : SizeOp} {args : List Ty} (hargs : ∀ a ∈ args, a.Faithful)
    (hf : ∀ ms, evalList args = some ms → ¬ f.Overflows ms) : (op f args).Faithful :=
  .con hargs (fun _ hc => nomatch hc) (fun _ ms hc => by cases hc; exact hf ms)

theorem exists_denotesList (h : evalList ts = some ms)
    (hts : ∀ t ∈ ts, ∀ s, t.eval = some s → ∃ x, s.Denotes x) :
    ∃ xs, List.Forall₂ Size.Denotes ms xs := by
  induction ts generalizing ms with
  | nil =>
    cases h
    exact ⟨[], .nil⟩
  | cons t ts ih =>
    rw [evalList, Option.bind_eq_some_iff] at h
    obtain ⟨m, hm, h⟩ := h
    obtain ⟨ms, hms, rfl⟩ := Option.map_eq_some_iff.mp h
    obtain ⟨ht, hts⟩ := List.forall_mem_cons.mp hts
    obtain ⟨x, hx⟩ := ht m hm
    obtain ⟨xs, hxs⟩ := ih hms hts
    exact ⟨x :: xs, .cons hx hxs⟩

theorem denotesList_exact {xs : List ℕ∞} (h : evalList ts = some ms)
    (hxs : exactValueList ρ ts = some xs)
    (hts : ∀ t ∈ ts, ∀ s x, t.eval = some s → t.exactValue ρ = some x → s.Denotes x) :
    List.Forall₂ Size.Denotes ms xs := by
  induction ts generalizing ms xs with
  | nil =>
    cases h
    cases hxs
    exact .nil
  | cons t ts ih =>
    rw [evalList, Option.bind_eq_some_iff] at h
    rw [exactValueList, Option.bind_eq_some_iff] at hxs
    obtain ⟨m, hm, h⟩ := h
    obtain ⟨ms, hms, rfl⟩ := Option.map_eq_some_iff.mp h
    obtain ⟨x, hx, hxs⟩ := hxs
    obtain ⟨xs', hxs', rfl⟩ := Option.map_eq_some_iff.mp hxs
    obtain ⟨ht, hts⟩ := List.forall_mem_cons.mp hts
    exact .cons (ht m x hm hx) (ih hms hxs' hts)

/-- What a size evaluates to is a natural word or infinite. -/
theorem Faithful.exists_denotes (h : t.Faithful) {s : Size} (hs : t.eval = some s) :
    ∃ x, s.Denotes x := by
  induction t using Ty.induct generalizing s with
  | con c args ih =>
    cases c with
    | num n =>
      cases hs
      obtain ⟨h0, hmax⟩ := h.literals n args .refl
      obtain ⟨m, rfl⟩ := Int.eq_ofNat_of_zero_le h0
      exact ⟨m, .finite m hmax⟩
    | inf =>
      cases hs
      exact ⟨⊤, .inf⟩
    | op f =>
      rw [eval, Option.bind_eq_some_iff] at hs
      obtain ⟨ms, hms, hs⟩ := hs
      obtain ⟨xs, hxs⟩ := exists_denotesList hms fun a ha s hs => ih a ha (h.arg a ha) hs
      exact SizeOp.exists_denotes hxs hs (h.sums f args ms .refl hms)
    | _ => simp [eval] at hs
  | synonym n args body _ ih => exact ih h.body (by rwa [eval] at hs)
  | _ => simp [eval] at hs

/-- What a size evaluates to is its mathematical value, if it has one. -/
theorem Faithful.denotes_eval (h : t.Faithful) {s : Size} {x : ℕ∞} (hs : t.eval = some s)
    (hx : t.exactValue ρ = some x) : s.Denotes x := by
  induction t using Ty.induct generalizing s x with
  | con c args ih =>
    cases c with
    | num n =>
      cases hs
      obtain ⟨h0, hmax⟩ := h.literals n args .refl
      obtain ⟨m, rfl⟩ := Int.eq_ofNat_of_zero_le h0
      rw [exactValue, if_pos ⟨h0, hmax⟩] at hx
      cases hx
      exact .finite m hmax
    | inf =>
      cases hs
      cases hx
      exact .inf
    | op f =>
      rw [eval, Option.bind_eq_some_iff] at hs
      obtain ⟨ms, hms, hs⟩ := hs
      rw [exactValue, Option.bind_eq_some_iff] at hx
      obtain ⟨xs, hxs, hx⟩ := hx
      have hargs := denotesList_exact hms hxs fun a ha s x hs hx => ih a ha (h.arg a ha) hs hx
      exact SizeOp.denotes_exact hargs hs hx (h.sums f args ms .refl hms)
    | _ => simp [eval] at hs
  | synonym n args body _ ih =>
    exact ih h.body (by rwa [eval] at hs) (by rwa [exactValue] at hx)
  | _ => simp [eval] at hs

end Ty
end SizedTypes
