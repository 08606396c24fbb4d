import Mathlib.Data.Int.Cast.Lemmas
import SizedTypes.Proofs.Simplify.Valuation
import SizedTypes.Simplify

/-!
# Evaluation is exact

Arithmetic on words gives up before a result leaves the words, so a value that is computed for a
size is the mathematical one, under every valuation under which the size has a value at all.
-/

set_option autoImplicit false

namespace SizedTypes

/-! ## Natural numbers as words -/

namespace Word

theorem wrap_natCast {n : ℕ} (h : (n : Int) ≤ maxValue) : wrap n = n :=
  wrap_eq_self ⟨by omega, h⟩

theorem sub_natCast {m n : ℕ} (hm : (m : Int) ≤ maxValue) (h : n ≤ m) :
    sub m n = (m - n : ℕ) := by
  have heq : (m : Int) - n = (m - n : ℕ) := by omega
  rw [sub, heq]
  exact wrap_natCast (by omega)

theorem quot_natCast {m : ℕ} (n : ℕ) (hm : (m : Int) ≤ maxValue) : quot m n = (m / n : ℕ) := by
  have hle : m / n ≤ m := Nat.div_le_self m n
  have heq : Int.tdiv m n = (m / n : ℕ) := rfl
  rw [quot, heq]
  exact wrap_natCast (by omega)

theorem rem_natCast (m n : ℕ) : rem m n = (m % n : ℕ) := rfl

/-- The test that guards a product: it stays within the words. -/
theorem mul_le_maxValue {m n : ℕ} (hn : n ≠ 0) (h : ¬ quot maxValue n < m) :
    ((m * n : ℕ) : Int) ≤ maxValue := by
  have hmax : maxValue = ((9223372036854775807 : ℕ) : Int) := rfl
  rw [hmax] at h ⊢
  rw [quot_natCast n le_rfl] at h
  have hle : m ≤ 9223372036854775807 / n := by exact_mod_cast not_lt.mp h
  exact_mod_cast (Nat.le_div_iff_mul_le (Nat.pos_of_ne_zero hn)).mp hle

theorem mul_natCast {m n : ℕ} (h : ((m * n : ℕ) : Int) ≤ maxValue) :
    mul m n = (m * n : ℕ) := by
  rw [mul, ← Int.natCast_mul]
  exact wrap_natCast h

end Word

/-! ## The value of a computed size -/

/-- A computed size stands for this value. -/
inductive Size.Denotes : Size → ℕ∞ → Prop
  | finite (n : ℕ) (h : (n : Int) ≤ Word.maxValue) : Denotes (.finite n) n
  | inf : Denotes .inf ⊤

namespace Size

variable {a b c : Size} {x y : ℕ∞}

theorem Denotes.eq_iff (ha : a.Denotes x) (hb : b.Denotes y) : a = b ↔ x = y := by
  cases ha <;> cases hb <;> simp

theorem Denotes.geq_iff (ha : a.Denotes x) (hb : b.Denotes y) : a.geq b = true ↔ y ≤ x := by
  cases ha <;> cases hb <;> simp [geq]

theorem Denotes.exists_finite (h : a.Denotes x) (hx : x ≠ ⊤) :
    ∃ m : ℕ, a = .finite m ∧ x = m ∧ (m : Int) ≤ Word.maxValue := by
  cases h with
  | finite n hn => exact ⟨n, rfl, rfl, hn⟩
  | inf => exact absurd rfl hx

theorem Denotes.isFinite_iff (ha : a.Denotes x) : a.isFinite = true ↔ x ≠ ⊤ := by
  cases ha <;> simp [isFinite]

theorem Denotes.add (ha : a.Denotes x) (hb : b.Denotes y) (h : a.add b = some c) :
    c.Denotes (x + y) := by
  cases ha with
  | inf =>
    cases hb <;> cases h <;> simpa using Denotes.inf
  | finite m hm =>
    cases hb with
    | inf =>
      cases h
      simpa using Denotes.inf
    | finite n hn =>
      simp only [Size.add] at h
      split at h
      · cases h
      · rename_i hlt
        cases h
        have hsub : Word.sub Word.maxValue n = Word.maxValue - n :=
          Word.wrap_eq_self ⟨by unfold Word.maxValue at *; omega, by omega⟩
        have hle : ((m + n : ℕ) : Int) ≤ Word.maxValue := by omega
        rw [Word.add, ← Int.natCast_add, Word.wrap_natCast hle]
        exact_mod_cast Denotes.finite (m + n) hle

theorem Denotes.sub (ha : a.Denotes x) (hb : b.Denotes y) (h : a.sub b = some c) :
    y ≤ x ∧ y ≠ ⊤ ∧ c.Denotes (x - y) := by
  cases hb with
  | inf => cases ha <;> cases h
  | finite n hn =>
    cases ha with
    | inf =>
      cases h
      simpa using Denotes.inf
    | finite m hm =>
      simp only [Size.sub] at h
      split at h
      · cases h
      · rename_i hlt
        cases h
        have hle : n ≤ m := by omega
        rw [Word.sub_natCast hm hle]
        refine ⟨by exact_mod_cast hle, ENat.natCast_ne_top n, ?_⟩
        exact_mod_cast Denotes.finite (m - n) (by omega)

theorem Denotes.mul (ha : a.Denotes x) (hb : b.Denotes y) (h : a.mul b = some c) :
    c.Denotes (x * y) := by
  have hzero : Denotes (.finite 0) 0 := Denotes.finite 0 (by decide)
  have htop : ∀ {n : ℕ} {d : Size},
      (if (n : Int) = 0 then some (Size.finite 0) else some .inf) = some d →
      d.Denotes (n * ⊤) ∧ d.Denotes (⊤ * n) := by
    intro n d hd
    split at hd
    · rename_i hn
      cases hd
      obtain rfl : n = 0 := by omega
      simpa using hzero
    · rename_i hn
      cases hd
      have hne : (n : ℕ∞) ≠ 0 := by exact_mod_cast fun h : n = 0 => hn (by omega)
      rw [ENat.mul_top hne, ENat.top_mul hne]
      exact ⟨.inf, .inf⟩
  cases ha with
  | inf =>
    cases hb with
    | inf =>
      cases h
      simpa using Denotes.inf
    | finite n hn => exact (htop h).2
  | finite m hm =>
    cases hb with
    | inf => exact (htop h).1
    | finite n hn =>
      simp only [Size.mul] at h
      split at h
      · rename_i hz
        cases h
        rcases hz with hz | hz
        · obtain rfl : m = 0 := by omega
          simpa using hzero
        · obtain rfl : n = 0 := by omega
          simpa using hzero
      · split at h
        · cases h
        · rename_i hz hlt
          cases h
          have hle := Word.mul_le_maxValue (m := m) (n := n) (by omega) hlt
          rw [Word.mul_natCast hle]
          exact_mod_cast Denotes.finite (m * n) hle

theorem Denotes.divided {f : Int → Int → Int} {g : ℕ → ℕ → ℕ} (ha : a.Denotes x)
    (hb : b.Denotes y) (hg : ∀ m n, g m n ≤ m)
    (hf : ∀ m n : ℕ, (m : Int) ≤ Word.maxValue → f m n = g m n)
    (h : Size.divided f a b = some c) : ∃ z, quotient g x y = some z ∧ c.Denotes z := by
  cases ha with
  | inf => cases hb <;> cases h
  | finite m hm =>
    cases hb with
    | inf => cases h
    | finite n hn =>
      simp only [Size.divided] at h
      split at h
      · cases h
      · rename_i hz
        cases h
        have hne : (n : ℕ∞) ≠ 0 := by exact_mod_cast fun h : n = 0 => hz (by omega)
        refine ⟨(g m n : ℕ), by simp [quotient, hne], ?_⟩
        rw [hf m n hm]
        exact Denotes.finite _ (by have := hg m n; omega)

theorem power_eq {a r : Int} {m k acc : ℕ} (ha : a = m) (hacc : (acc : Int) ≤ Word.maxValue)
    (h : power a k acc = some r) :
    r = (acc * m ^ k : ℕ) ∧ ((acc * m ^ k : ℕ) : Int) ≤ Word.maxValue := by
  subst ha
  induction k generalizing acc with
  | zero =>
    cases h
    simpa using hacc
  | succ k ih =>
    simp only [power] at h
    split at h
    · cases h
    · rename_i hguard
      have hle : ((acc * m : ℕ) : Int) ≤ Word.maxValue := by
        rcases Nat.eq_zero_or_pos m with rfl | hm
        · simp [Word.maxValue]
        · exact Word.mul_le_maxValue (by omega) fun hlt => hguard ⟨by omega, hlt⟩
      rw [Word.mul_natCast hle] at h
      have := ih hle h
      rwa [pow_succ', ← mul_assoc]

theorem Denotes.exp (ha : a.Denotes x) (hb : b.Denotes y) (h : a.exp b = some c) :
    c.Denotes (x ^ y) := by
  have hone : Denotes (.finite 1) 1 := Denotes.finite 1 (by decide)
  unfold Size.exp at h
  split at h
  · cases h
    cases hb
    simpa using hone
  · rename_i hz
    cases ha
    cases h
    have hy : y ≠ 0 := by
      rintro rfl
      exact hz (hb.eq_iff (Denotes.finite 0 (by decide)) |>.mpr rfl)
    rw [ENat.top_epow hy]
    exact .inf
  · cases hb
    cases ha with
    | finite m hm =>
      split at h
      · rename_i hm2
        cases h
        rw [ENat.epow_top (by exact_mod_cast (by omega : 1 < m))]
        exact .inf
      · rename_i hm2
        cases h
        -- zero and one are their own powers
        obtain rfl | rfl : m = 0 ∨ m = 1 := by omega
        · simpa using Denotes.finite 0 hm
        · simpa using hone
  · cases ha with
    | finite m hm =>
      cases hb with
      | finite n hn =>
        obtain ⟨r, hr, rfl⟩ := Option.map_eq_some_iff.mp h
        have hone : ((1 : ℕ) : Int) ≤ Word.maxValue := by decide
        obtain ⟨rfl, hle⟩ := power_eq rfl hone hr
        rw [Int.toNat_natCast, one_mul] at hle ⊢
        rw [ENat.epow_natCast, ← Nat.cast_pow]
        exact Denotes.finite _ hle

theorem size_eq_log2 {n : ℕ} (h : n ≠ 0) : n.size = n.log2 + 1 := by
  refine le_antisymm ?_ ?_
  · rw [Nat.size_le]
    exact (Nat.log2_lt h).mp (by omega)
  · rw [Nat.succ_le_iff, Nat.lt_size]
    exact (Nat.le_log2 h).mp le_rfl

theorem Denotes.width (ha : a.Denotes x) : a.width.Denotes (x.map Nat.size) := by
  cases ha with
  | inf => exact .inf
  | finite n hn =>
    rw [ENat.map_natCast, Size.width]
    split
    · obtain rfl : n = 0 := by omega
      exact Denotes.finite 0 hn
    · have hsize : ((n.size : ℕ) : Int) = (Int.toNat n).log2 + 1 := by
        rw [Int.toNat_natCast, size_eq_log2 (by omega)]
        rfl
      rw [← hsize]
      have hlt : n.size ≤ 63 := Nat.size_le.mpr (by unfold Word.maxValue at hn; omega)
      exact Denotes.finite _ (by unfold Word.maxValue; omega)

theorem Denotes.min (ha : a.Denotes x) (hb : b.Denotes y) : (a.min b).Denotes (x ⊓ y) := by
  unfold Size.min
  split
  · rename_i h
    rwa [inf_eq_right.mpr ((ha.geq_iff hb).mp h)]
  · rename_i h
    rw [ha.geq_iff hb] at h
    rwa [inf_eq_left.mpr (le_of_not_ge h)]

theorem Denotes.max (ha : a.Denotes x) (hb : b.Denotes y) : (a.max b).Denotes (x ⊔ y) := by
  unfold Size.max
  split
  · rename_i h
    rwa [sup_eq_left.mpr ((ha.geq_iff hb).mp h)]
  · rename_i h
    rw [ha.geq_iff hb] at h
    rwa [sup_eq_right.mpr (le_of_not_ge h)]

end Size

/-- A function on sizes computes its mathematical value. -/
theorem SizeOp.denotes_eval {f : SizeOp} {as : List Size} {xs : List ℕ∞} {s : Size} {x : ℕ∞}
    (h : List.Forall₂ Size.Denotes as xs) (hx : f.denote xs = some x) (hs : f.eval as = some s) :
    s.Denotes x := by
  rcases h with _ | ⟨ha, _ | ⟨hb, _ | ⟨hc, h⟩⟩⟩
  · cases f <;> cases hs
  · cases f with
    | width =>
      cases hs
      cases hx
      exact ha.width
    | _ => cases hx
  · cases f with
    | add =>
      cases hx
      exact ha.add hb hs
    | sub =>
      obtain ⟨hle, htop, hsub⟩ := ha.sub hb hs
      simp only [denote, hle, htop, ne_eq, not_false_eq_true, and_self, if_true,
        Option.some.injEq] at hx
      rwa [← hx]
    | mul =>
      cases hx
      exact ha.mul hb hs
    | div =>
      obtain ⟨z, hz, hden⟩ :=
        ha.divided hb Nat.div_le_self (fun m n hm => Word.quot_natCast n hm) hs
      cases hz.symm.trans hx
      exact hden
    | mod =>
      obtain ⟨z, hz, hden⟩ := ha.divided hb Nat.mod_le (fun m n _ => Word.rem_natCast m n) hs
      cases hz.symm.trans hx
      exact hden
    | exp =>
      cases hx
      exact ha.exp hb hs
    | min =>
      cases hs
      cases hx
      exact ha.min hb
    | max =>
      cases hs
      cases hx
      exact ha.max hb
    | width | ceilDiv | ceilMod | lengthFromThenTo => cases hx
  · cases f <;> cases hx

namespace Ty

variable {ρ : Valuation}

mutual
/-- The value of a closed size is its mathematical value. -/
theorem denotes_eval : ∀ {t : Ty} {s : Size} {x : ℕ∞}, t.eval = some s → t.value ρ = some x →
    s.Denotes x
  | con c args, s, x, hs, hx => by
    cases c with
    | num n =>
      cases hs
      rw [value] at hx
      split at hx
      · rename_i hn
        cases hx
        obtain ⟨m, rfl⟩ := Int.eq_ofNat_of_zero_le hn.1
        exact Size.Denotes.finite m hn.2
      · cases hx
    | inf =>
      cases hs
      cases hx
      exact .inf
    | op f =>
      rw [eval] at hs
      rw [value] at hx
      obtain ⟨as, has, hs⟩ := Option.bind_eq_some_iff.mp hs
      obtain ⟨xs, hxs, hx⟩ := Option.bind_eq_some_iff.mp hx
      exact SizeOp.denotes_eval (denotesList_eval has hxs) hx hs
    | _ => simp [eval] at hs
  | synonym _ _ body, s, x, hs, hx => by
    rw [eval] at hs
    rw [value] at hx
    exact denotes_eval hs hx
  | free _, _, _, hs, _ | bound _, _, _, hs, _ | record _, _, _, hs, _
  | newtype _ _ _ _, _, _, hs, _ => by simp [eval] at hs

theorem denotesList_eval : ∀ {ts : List Ty} {as : List Size} {xs : List ℕ∞},
    evalList ts = some as → valueList ρ ts = some xs → List.Forall₂ Size.Denotes as xs
  | [], as, xs, has, hxs => by
    cases has
    cases hxs
    exact .nil
  | t :: ts, as, xs, has, hxs => by
    rw [evalList] at has
    rw [valueList] at hxs
    obtain ⟨a, ha, has⟩ := Option.bind_eq_some_iff.mp has
    obtain ⟨x, hx, hxs⟩ := Option.bind_eq_some_iff.mp hxs
    obtain ⟨as', has', rfl⟩ := Option.map_eq_some_iff.mp has
    obtain ⟨xs', hxs', rfl⟩ := Option.map_eq_some_iff.mp hxs
    exact .cons (denotes_eval ha hx) (denotesList_eval has' hxs')
end

/-! ## Normalization -/

theorem eval_expand : ∀ t : Ty, t.expand.eval = t.eval
  | free _ | bound _ | con _ _ | record _ | newtype _ _ _ _ => rfl
  | synonym _ _ body => by rw [expand, eval_expand body, eval]

theorem eval_toTy (s : Size) : s.toTy.eval = some s := by
  cases s <;> simp [Size.toTy, num, inf, eval]

theorem value_toTy {s : Size} {x : ℕ∞} (h : s.Denotes x) : s.toTy.value ρ = some x := by
  cases h with
  | finite n hn => simp [Size.toTy, num, value, hn]
  | inf => rfl

mutual
/-- Normalizing does not change the value of a closed size. -/
theorem eval_normalize : ∀ t : Ty, t.normalize.eval = t.eval
  | free _ | bound _ | record _ | newtype _ _ _ _ => by simp [normalize, eval]
  | synonym _ _ body => by rw [normalize, eval, eval, eval_normalize body]
  | con c args => by
    cases c with
    | op f =>
      have hargs : (con (.op f) (normalizeList args)).eval = (con (.op f) args).eval := by
        rw [eval, eval, evalList_normalizeList args]
      rw [normalize]
      split
      · rename_i s hs
        rw [eval_toTy, ← hs, hargs]
      · exact hargs
    | _ => simp [normalize, eval]

theorem evalList_normalizeList : ∀ ts : List Ty, evalList (normalizeList ts) = evalList ts
  | [] => rfl
  | t :: ts => by
    rw [normalizeList, evalList, evalList, eval_normalize t, evalList_normalizeList ts]
end

mutual
theorem value_normalize : ∀ {t : Ty} {x : ℕ∞}, t.value ρ = some x → t.normalize.value ρ = some x
  | free _, _, h | bound _, _, h => h
  | record _, _, h | newtype _ _ _ _, _, h => by simp [value] at h
  | synonym _ _ body, x, h => by
    rw [value] at h
    rw [normalize, value]
    exact value_normalize h
  | con c args, x, h => by
    cases c with
    | op f =>
      rw [value] at h
      obtain ⟨xs, hxs, hx⟩ := Option.bind_eq_some_iff.mp h
      have hargs : (con (.op f) (normalizeList args)).value ρ = some x := by
        rw [value, valueList_normalizeList hxs]
        exact hx
      rw [normalize]
      split
      · rename_i s hs
        exact value_toTy (denotes_eval hs hargs)
      · exact hargs
    | num n | inf => simpa [normalize, value] using h
    | _ => simp [value] at h

theorem valueList_normalizeList : ∀ {ts : List Ty} {xs : List ℕ∞}, valueList ρ ts = some xs →
    valueList ρ (normalizeList ts) = some xs
  | [], _, h => h
  | t :: ts, _, h => by
    rw [valueList] at h
    obtain ⟨x, hx, h⟩ := Option.bind_eq_some_iff.mp h
    obtain ⟨xs, hxs, rfl⟩ := Option.map_eq_some_iff.mp h
    rw [normalizeList, valueList, value_normalize hx, valueList_normalizeList hxs]
    rfl
end

/-- Normalizing does not change what a predicate says. -/
theorem statement_normalize {p : Ty} {P : Prop} (h : p.statement ρ = some P) :
    p.normalize.statement ρ = some P := by
  induction p using Ty.induct generalizing P with
  | con c args ih =>
    cases c with
    | prop pc =>
      rw [normalize]
      · cases Reads.of_statement h with
        | compare ha hb => simp [normalizeList, statement, value_normalize ha, value_normalize hb]
        | fin ha | prime ha => simp [normalizeList, statement, value_normalize ha]
        | conj hp hq => simp [normalizeList, statement, ih _ (by simp) hp, ih _ (by simp) hq]
        | trivial => rfl
      · intro _ hop
        cases hop
    | _ => simp [statement] at h
  | synonym _ _ body _ ih =>
    rw [statement] at h
    rw [normalize, statement]
    exact ih h
  | _ => simp [statement] at h

end Ty
end SizedTypes
