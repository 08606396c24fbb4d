import Mathlib.Data.Nat.Sqrt
import Mathlib.NumberTheory.LucasPrimality
import Mathlib.Tactic.IntervalCases
import Mathlib.Tactic.Linarith
import Mathlib.Tactic.NormNum.Prime
import Mathlib.Tactic.ReduceModChar
import SizedTypes.Proofs.Simplify.Evaluation

/-!
# Trial division on words

Trial division compares squares with the number it tests. Near the end of the words a square can
wrap around, and the comparison is then about another number. A wrapped square never ends the search
too early, and for a prime some square, wrapped or not, ends it in time.
-/

set_option autoImplicit false

namespace SizedTypes

/-! ## The loop -/

/-- The loop of trial division with everything in words. It has no other bound than the comparison of
the square of `d` with `n`. -/
inductive TrialDivision (n : Int) : Int → Bool → Prop
  | passed {d : Int} (hlt : n < Word.mul d d) : TrialDivision n d true
  | divided {d : Int} (hle : Word.mul d d ≤ n) (hrem : Word.rem n d = 0) : TrialDivision n d false
  | next {d : Int} {b : Bool} (hle : Word.mul d d ≤ n) (hrem : Word.rem n d ≠ 0)
      (hrest : TrialDivision n (Word.next d) b) : TrialDivision n d b

theorem TrialDivision.unique {n d : Int} {b b' : Bool} (h : TrialDivision n d b)
    (h' : TrialDivision n d b') : b = b' := by
  induction h with
  | passed hlt =>
    cases h' with
    | passed => rfl
    | divided hle | next hle => exact absurd hlt (Int.not_lt.mpr hle)
  | divided hle hrem =>
    cases h' with
    | passed hlt => exact absurd hlt (Int.not_lt.mpr hle)
    | divided => rfl
    | next _ hne => exact absurd hrem hne
  | next hle hrem _ ih =>
    cases h' with
    | passed hlt => exact absurd hlt (Int.not_lt.mpr hle)
    | divided _ heq => exact absurd heq hrem
    | next _ _ hrest => exact ih hrest

theorem hasNoDivisorFrom_eq (n d : Int) : hasNoDivisorFrom n d =
    if Word.mul d d ≤ n then
      if Word.rem n d = 0 then false else if d < n then hasNoDivisorFrom n (d + 1) else true
    else true := by
  rw [hasNoDivisorFrom]

theorem two_le_of_isPrime {n : Int} (h : isPrime n = true) : 2 ≤ n := by
  unfold isPrime at h
  split at h
  · cases h
  · omega

/-- Up to `n` the loop ends, at the latest when it comes to `n` itself. -/
theorem trialDivision_hasNoDivisorFrom {n d : Int} (hn : n ≤ Word.maxValue) (hd : 0 < d)
    (hdn : d ≤ n) : TrialDivision n d (hasNoDivisorFrom n d) := by
  induction hm : (n - d).toNat generalizing d with
  | zero =>
    obtain rfl : d = n := by omega
    rw [hasNoDivisorFrom_eq]
    split
    · have hrem : Word.rem d d = 0 := Int.tmod_self
      rw [if_pos hrem]
      exact .divided ‹_› hrem
    · exact .passed (Int.not_le.mp ‹_›)
  | succ m ih =>
    rw [hasNoDivisorFrom_eq]
    split
    · split
      · exact .divided ‹_› ‹_›
      · have hlt : d < n := by omega
        have hnext : Word.next d = d + 1 := Word.wrap_eq_self ⟨by omega, by omega⟩
        rw [if_pos hlt]
        exact .next ‹_› ‹_› (hnext.symm ▸ ih (by omega) (by omega) (by omega))
    · exact .passed (Int.not_le.mp ‹_›)

/-! ## What passes is prime -/

/-- A square that the comparison finds too large is too large, even if it wraps around. -/
theorem lt_mul_self_of_lt_wordMul {n d : ℕ} (hn : (n : Int) ≤ Word.maxValue)
    (h : ¬ Word.mul d d ≤ n) : n < d * d := by
  by_contra hle
  have hfit : ((d * d : ℕ) : Int) ≤ Word.maxValue := by omega
  rw [Word.mul_natCast hfit] at h
  omega

/-- What passes has no divisor up to its square root. -/
theorem not_dvd_of_hasNoDivisorFrom {n d : ℕ} (hn : (n : Int) ≤ Word.maxValue) (hd : 2 ≤ d)
    (h : hasNoDivisorFrom n d = true) : ∀ k, d ≤ k → k * k ≤ n → ¬ k ∣ n := by
  induction hm : n - d generalizing d with
  | zero =>
    intro k hk hkk
    have : 2 * k ≤ k * k := Nat.mul_le_mul_right k (by omega)
    omega
  | succ m ih =>
    intro k hk hkk hdvd
    have hdk : d * d ≤ k * k := Nat.mul_le_mul hk hk
    rw [hasNoDivisorFrom_eq] at h
    split at h
    · split at h
      · cases h
      · rename_i hrem
        rcases Nat.eq_or_lt_of_le hk with rfl | hlt
        · refine hrem ?_
          rw [Word.rem_natCast, Nat.mod_eq_zero_of_dvd hdvd]
          rfl
        · rw [if_pos (by omega)] at h
          exact ih (d := d + 1) (by omega) (by exact_mod_cast h) (by omega) k hlt hkk hdvd
    · have := lt_mul_self_of_lt_wordMul hn ‹_›
      omega

theorem prime_of_isPrime {n : ℕ} (hn : (n : Int) ≤ Word.maxValue) (h : isPrime n = true) :
    n.Prime := by
  unfold isPrime at h
  split at h
  · cases h
  · rw [Nat.prime_def_le_sqrt]
    refine ⟨by omega, fun k hk hsqrt => ?_⟩
    exact not_dvd_of_hasNoDivisorFrom hn (d := 2) le_rfl h k hk (Nat.le_sqrt.mp hsqrt)

/-! ## Primes pass -/

/-- The search for a divisor of a prime ends at a square that is found too large. -/
theorem hasNoDivisorFrom_of_prime {n d e : ℕ} (hp : n.Prime) (hd : 2 ≤ d) (hde : d ≤ e)
    (hen : e ≤ n) (he : (n : Int) < Word.mul e e) : hasNoDivisorFrom n d = true := by
  induction hm : e - d generalizing d with
  | zero =>
    obtain rfl : d = e := by omega
    rw [hasNoDivisorFrom_eq, if_neg (by omega)]
  | succ m ih =>
    have hrem : Word.rem n d ≠ 0 := by
      rw [Word.rem_natCast]
      intro h
      have hdvd : d ∣ n := Nat.dvd_of_mod_eq_zero (by exact_mod_cast h)
      rcases (Nat.dvd_prime hp).mp hdvd with h | h <;> omega
    rw [hasNoDivisorFrom_eq]
    split
    · rw [if_pos (by omega)]
      exact_mod_cast ih (d := d + 1) (by omega) (by omega) (by omega)
    · rfl

/-- A root of `2^63 - 7` modulo `2^64`. -/
def wrappedRoot : ℕ := 2759374635167858507

theorem mul_wrappedRoot : Word.mul wrappedRoot wrappedRoot = 9223372036854775801 := by decide

/-- The last words are not prime. -/
theorem lt_of_prime_word {n : ℕ} (hp : n.Prime) (hn : (n : Int) ≤ Word.maxValue) :
    n < 9223372036854775801 := by
  by_contra hlt
  have hle : n ≤ 9223372036854775807 := Int.ofNat_le.mp hn
  have hge : 9223372036854775801 ≤ n := by omega
  interval_cases n <;> norm_num at hp

/-- For every prime word some number up to it has a square that, as a word, is larger. Up to the root
of `2^63 - 7` this is the number after the square root, and beyond it that root. -/
theorem exists_lt_wordMul {n : ℕ} (hp : n.Prime) (hn : (n : Int) ≤ Word.maxValue) :
    ∃ e : ℕ, 2 ≤ e ∧ e ≤ n ∧ (n : Int) < Word.mul e e := by
  by_cases hsmall : n ≤ wrappedRoot
  · have h1 : 1 < n := hp.one_lt
    have hsqrt : n.sqrt < n := Nat.sqrt_lt_self h1
    have hpos : 0 < n.sqrt := Nat.sqrt_pos.mpr (by omega)
    have hlt : n < (n.sqrt + 1) * (n.sqrt + 1) := Nat.lt_succ_sqrt n
    have hle : (n.sqrt + 1) * (n.sqrt + 1) ≤ 3 * n + 1 := by
      have := Nat.sqrt_le n
      nlinarith
    refine ⟨n.sqrt + 1, by omega, hsqrt, ?_⟩
    rw [Word.mul_natCast (by unfold wrappedRoot at hsmall; unfold Word.maxValue; omega)]
    exact_mod_cast hlt
  · have hlast := lt_of_prime_word hp hn
    refine ⟨wrappedRoot, by decide, by omega, ?_⟩
    rw [mul_wrappedRoot]
    exact_mod_cast hlast

/-- On words, trial division decides primality. -/
theorem isPrime_iff {n : ℕ} (hn : (n : Int) ≤ Word.maxValue) : isPrime n = true ↔ n.Prime := by
  refine ⟨prime_of_isPrime hn, fun hp => ?_⟩
  obtain ⟨e, he, hen, hlt⟩ := exists_lt_wordMul hp hn
  have h2 := hp.two_le
  rw [isPrime, if_neg (by omega)]
  exact hasNoDivisorFrom_of_prime hp le_rfl he hen hlt

/-- On every word the loop ends, with one result, and this is whether the word is a prime number. -/
theorem isPrime_word_iff {n : Int} (hn : Word.Fits n) :
    (2 ≤ n → ∀ b, TrialDivision n 2 b ↔ b = isPrime n) ∧
    (isPrime n = true ↔ ∃ p : ℕ, p.Prime ∧ n = p) := by
  constructor
  · intro h2 b
    have hrun : TrialDivision n 2 (isPrime n) := by
      rw [isPrime, if_neg (by omega)]
      exact trialDivision_hasNoDivisorFrom hn.2 (by decide) h2
    exact ⟨fun h => h.unique hrun, fun h => h ▸ hrun⟩
  · constructor
    · intro h
      have h2 := two_le_of_isPrime h
      obtain ⟨m, rfl⟩ := Int.eq_ofNat_of_zero_le (by omega : 0 ≤ n)
      exact ⟨m, (isPrime_iff hn.2).mp h, rfl⟩
    · rintro ⟨p, hp, rfl⟩
      exact (isPrime_iff hn.2).mpr hp

/-- A prime that is larger than every square of a word that does not wrap around. -/
theorem prime_nearEnd : Nat.Prime 9223372032768000001 := by
  refine lucas_primality _ (7 : ZMod 9223372032768000001) (by reduce_mod_char) fun q hq hdvd => ?_
  have hradical : 9223372032768000001 - 1 ∣ [2, 3, 5, 47, 107, 241, 367].prod ^ 14 := by norm_num
  have hmem : q ∈ [2, 3, 5, 47, 107, 241, 367] := by
    refine mem_list_primes_of_dvd_prod hq.prime ?_ (hq.dvd_of_dvd_pow (hdvd.trans hradical))
    simp only [List.forall_mem_cons, ← Nat.prime_iff]
    norm_num
  fin_cases hmem <;> reduce_mod_char <;> decide

/-- Up to the square root of the largest word no square exceeds the prime, so the loop goes on to
numbers whose squares wrap around. -/
theorem isPrime_nearEnd : Word.Fits 9223372032768000001 ∧
    (∀ d : ℕ, d * d ≤ 9223372036854775807 → d * d ≤ 9223372032768000001) ∧
    isPrime 9223372032768000001 = true ∧ TrialDivision 9223372032768000001 2 true := by
  have hfits : Word.Fits 9223372032768000001 := by decide
  obtain ⟨hrun, hiff⟩ := isPrime_word_iff hfits
  have hprime := hiff.mpr ⟨_, prime_nearEnd, rfl⟩
  refine ⟨hfits, fun d hd => ?_, hprime, (hrun (by decide) true).mpr hprime.symm⟩
  have hle : d ≤ 3037000499 := by
    by_contra hlt
    nlinarith
  nlinarith

end SizedTypes
