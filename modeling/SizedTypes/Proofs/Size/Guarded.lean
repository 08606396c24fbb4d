import SizedTypes.Proofs.Simplify.Evaluation

/-!
# Guarded functions on sizes

Sums, differences, products, quotients, powers, widths and bounds are computed with a guard: the
result is refused exactly if the function is undefined or its value is a number that is no word. So
a closed size built with these functions has a value exactly if each of its parts has one that can
be represented, and the value is the mathematical one.
-/

set_option autoImplicit false

namespace SizedTypes

/-- The functions that refuse a result that is no word. -/
def SizeOp.isGuarded : SizeOp → Bool
  | ceilDiv | ceilMod | lengthFromThenTo => false
  | _ => true

/-- Infinity, or a number that is a word. -/
def Size.Representable (x : ℕ∞) : Prop := x = ⊤ ∨ x ≤ (Word.maxValue.toNat : ℕ∞)

/-- The test that guards a product passes where the product is a word. -/
theorem Word.not_quot_lt_of_mul_le {m n : ℕ} (hn : n ≠ 0) (h : ((m * n : ℕ) : Int) ≤ maxValue) :
    ¬ quot maxValue n < m := by
  have hmax : maxValue = ((9223372036854775807 : ℕ) : Int) := rfl
  rw [hmax] at h ⊢
  rw [quot_natCast n le_rfl, not_lt, Int.ofNat_le, Nat.le_div_iff_mul_le (Nat.pos_of_ne_zero hn)]
  exact_mod_cast h

namespace Size

variable {a b : Size} {x y : ℕ∞}

theorem representable_natCast {n : ℕ} :
    Representable n ↔ (n : Int) ≤ Word.maxValue := by
  have hmax : Word.maxValue = ((9223372036854775807 : ℕ) : Int) := rfl
  rw [Representable, hmax, Int.toNat_natCast, Nat.cast_le, Nat.cast_le]
  simp

/-- The values that sizes stand for. -/
theorem representable_iff : Representable x ↔ ∃ s : Size, s.Denotes x := by
  constructor
  · intro h
    cases x with
    | top => exact ⟨.inf, .inf⟩
    | coe n => exact ⟨.finite n, .finite n (representable_natCast.mp h)⟩
  · rintro ⟨s, ⟨n, hn⟩ | _⟩
    · exact representable_natCast.mpr hn
    · exact Or.inl rfl

/-! ## Where a function has a value -/

theorem Denotes.isSome_add (ha : a.Denotes x) (hb : b.Denotes y) (h : Representable (x + y)) :
    (a.add b).isSome := by
  cases ha with
  | inf => cases hb <;> rfl
  | finite m hm =>
    cases hb with
    | inf => rfl
    | finite n hn =>
      have hle : ((m + n : ℕ) : Int) ≤ Word.maxValue :=
        representable_natCast.mp (by exact_mod_cast h)
      have hsub : Word.sub Word.maxValue n = Word.maxValue - n :=
        Word.wrap_eq_self ⟨by unfold Word.maxValue at *; omega, by omega⟩
      rw [Size.add, if_neg (by omega)]
      rfl

theorem Denotes.isSome_sub (ha : a.Denotes x) (hb : b.Denotes y) (h : y ≤ x) (hy : y ≠ ⊤) :
    (a.sub b).isSome := by
  cases hb with
  | inf => exact absurd rfl hy
  | finite n hn =>
    cases ha with
    | inf => rfl
    | finite m hm =>
      have hle : n ≤ m := by exact_mod_cast h
      rw [Size.sub, if_neg (by omega)]
      rfl

theorem Denotes.isSome_mul (ha : a.Denotes x) (hb : b.Denotes y) (h : Representable (x * y)) :
    (a.mul b).isSome := by
  cases ha with
  | inf =>
    cases hb with
    | inf => rfl
    | finite n hn =>
      rw [Size.mul]
      split <;> rfl
  | finite m hm =>
    cases hb with
    | inf =>
      rw [Size.mul]
      split <;> rfl
    | finite n hn =>
      have hle : ((m * n : ℕ) : Int) ≤ Word.maxValue :=
        representable_natCast.mp (by exact_mod_cast h)
      rw [Size.mul]
      split
      · rfl
      · rename_i hz
        rw [if_neg (Word.not_quot_lt_of_mul_le (by omega) hle)]
        rfl

theorem Denotes.isSome_divided {f : Int → Int → Int} (ha : a.Denotes x) (hb : b.Denotes y)
    (hx : x ≠ ⊤) (hy : y ≠ ⊤) (h : y ≠ 0) : (Size.divided f a b).isSome := by
  cases ha with
  | inf => exact absurd rfl hx
  | finite m hm =>
    cases hb with
    | inf => exact absurd rfl hy
    | finite n hn =>
      have hne : n ≠ 0 := by exact_mod_cast h
      rw [Size.divided, if_neg (by omega)]
      rfl

/-- The loop for a power stops early only where the power is no word. -/
theorem isSome_power {m k acc : ℕ} (h : ((acc * m ^ k : ℕ) : Int) ≤ Word.maxValue) :
    (power m k acc).isSome := by
  induction k generalizing acc with
  | zero => rfl
  | succ k ih =>
    rw [pow_succ', ← mul_assoc] at h
    rcases Nat.eq_zero_or_pos m with rfl | hm
    · have hmul : Word.mul acc ((0 : ℕ) : Int) = ((0 : ℕ) : Int) := by simp [Word.mul, Word.wrap]
      rw [power, if_neg (by simp), hmul]
      exact ih (by simp [Word.maxValue])
    · have hle : acc * m ≤ acc * m * m ^ k := Nat.le_mul_of_pos_right _ (Nat.pow_pos hm)
      have hword : ((acc * m : ℕ) : Int) ≤ Word.maxValue := by omega
      rw [power, if_neg fun hlt => Word.not_quot_lt_of_mul_le hm.ne' hword hlt.2,
        Word.mul_natCast hword]
      exact ih h

theorem Denotes.isSome_exp (ha : a.Denotes x) (hb : b.Denotes y) (h : Representable (x ^ y)) :
    (a.exp b).isSome := by
  unfold Size.exp
  split
  · rfl
  · rfl
  · split <;> rfl
  · cases ha with
    | finite m hm =>
      cases hb with
      | finite n hn =>
        rw [ENat.epow_natCast, ← Nat.cast_pow, representable_natCast] at h
        have hone : ((1 * m ^ n : ℕ) : Int) ≤ Word.maxValue := by rwa [one_mul]
        rw [Option.isSome_map, Int.toNat_natCast]
        exact isSome_power hone

end Size

namespace SizeOp

variable {f : SizeOp} {as : List Size} {xs : List ℕ∞} {s : Size} {x : ℕ∞}

/-- A function that has a value is defined. -/
theorem isSome_denote (hf : f.isGuarded = true) (h : List.Forall₂ Size.Denotes as xs)
    (hlen : as.length = f.kind.arity) (hs : f.eval as = some s) : (f.denote xs).isSome := by
  rcases h with _ | ⟨ha, _ | ⟨hb, _ | ⟨hc, h⟩⟩⟩
  · cases f <;> cases hs
  · cases f with
    | width => rfl
    | _ => cases hs
  · cases f with
    | sub =>
      obtain ⟨hle, htop, -⟩ := ha.sub hb hs
      simp [denote, hle, htop]
    | div =>
      obtain ⟨z, hz, -⟩ :=
        ha.divided hb Nat.div_le_self (fun m n hm => Word.quot_natCast n hm) hs
      rw [denote, hz]
      rfl
    | mod =>
      obtain ⟨z, hz, -⟩ := ha.divided hb Nat.mod_le (fun m n _ => Word.rem_natCast m n) hs
      rw [denote, hz]
      rfl
    | ceilDiv | ceilMod => cases hf
    | width | lengthFromThenTo => cases hlen
    | _ => rfl
  · cases f with
    | lengthFromThenTo => cases hf
    | _ => cases hlen

/-- A function that is defined has its value, if this can be represented. -/
theorem isSome_eval (h : List.Forall₂ Size.Denotes as xs) (hx : f.denote xs = some x)
    (hrep : Size.Representable x) : (f.eval as).isSome := by
  rcases h with _ | ⟨ha, _ | ⟨hb, _ | ⟨hc, h⟩⟩⟩
  · cases f <;> cases hx
  · cases f with
    | width => rfl
    | _ => cases hx
  · cases f with
    | add =>
      cases hx
      exact ha.isSome_add hb hrep
    | sub =>
      rw [denote, Option.ite_none_right_eq_some] at hx
      exact ha.isSome_sub hb hx.1.1 hx.1.2
    | mul =>
      cases hx
      exact ha.isSome_mul hb hrep
    | div | mod =>
      rw [denote, Size.quotient, Option.ite_none_left_eq_some, not_or, not_or] at hx
      exact ha.isSome_divided hb hx.1.1 hx.1.2.1 hx.1.2.2
    | exp =>
      cases hx
      exact ha.isSome_exp hb hrep
    | min | max => rfl
    | _ => cases hx
  · cases f <;> cases hx

/-- A guarded function has exactly its mathematical value, where that can be represented. -/
theorem eval_eq_some_iff (hf : f.isGuarded = true) (h : List.Forall₂ Size.Denotes as xs)
    (hlen : as.length = f.kind.arity) :
    f.eval as = some s ↔ ∃ x, f.denote xs = some x ∧ s.Denotes x := by
  constructor
  · intro hs
    obtain ⟨x, hx⟩ := Option.isSome_iff_exists.mp (isSome_denote hf h hlen hs)
    exact ⟨x, hx, denotes_eval h hx hs⟩
  · rintro ⟨x, hx, hsx⟩
    have hrep := Size.representable_iff.mpr ⟨s, hsx⟩
    obtain ⟨s', hs'⟩ := Option.isSome_iff_exists.mp (isSome_eval h hx hrep)
    rw [hs', ((denotes_eval h hx hs').eq_iff hsx).mpr rfl]

end SizeOp

/-! ## Closed sizes -/

namespace Ty

/-- A closed size, built from natural words, `inf`, synonyms and guarded functions. -/
inductive Arithmetic : Ty → Prop
  | num {n : Int} (h : 0 ≤ n ∧ n ≤ Word.maxValue) : Arithmetic (con (.num n) [])
  | inf : Arithmetic (con .inf [])
  | op {f : SizeOp} {args : List Ty} (hf : f.isGuarded = true)
    (hlen : args.length = f.kind.arity) (hargs : ∀ a ∈ args, Arithmetic a) :
    Arithmetic (con (.op f) args)
  | synonym {n : Name} {args : List Ty} {body : Ty} (h : Arithmetic body) :
    Arithmetic (synonym n args body)

/-- The parts of a size: itself, the parts of the arguments of a function, and the parts of what a
synonym stands for. -/
inductive PartOf (u : Ty) : Ty → Prop
  | refl : PartOf u u
  | arg {c : Con} {args : List Ty} {a : Ty} (ha : a ∈ args) (h : PartOf u a) :
    PartOf u (con c args)
  | body {n : Name} {args : List Ty} {b : Ty} (h : PartOf u b) : PartOf u (synonym n args b)

/-- Under a valuation, every part has a value that can be represented. -/
def Representable (ρ : Valuation) (t : Ty) : Prop :=
  ∀ u : Ty, u.PartOf t → ∃ x, u.value ρ = some x ∧ Size.Representable x

variable {ρ : Valuation}

theorem isSome_eval_of_mem {ts : List Ty} {ms : List Size} (h : evalList ts = some ms) :
    ∀ t ∈ ts, t.eval.isSome := by
  induction ts generalizing ms with
  | nil => exact List.forall_mem_nil _
  | cons t ts ih =>
    rw [evalList, Option.bind_eq_some_iff] at h
    obtain ⟨m, hm, h⟩ := h
    obtain ⟨ms, hms, -⟩ := Option.map_eq_some_iff.mp h
    exact List.forall_mem_cons.mpr ⟨by rw [hm]; rfl, ih hms⟩

theorem length_evalList {ts : List Ty} {ms : List Size} (h : evalList ts = some ms) :
    ms.length = ts.length := by
  induction ts generalizing ms with
  | nil =>
    cases h
    rfl
  | cons t ts ih =>
    rw [evalList, Option.bind_eq_some_iff] at h
    obtain ⟨m, -, h⟩ := h
    obtain ⟨ms, hms, rfl⟩ := Option.map_eq_some_iff.mp h
    rw [List.length_cons, List.length_cons, ih hms]

/-- Arguments that evaluate to their values do so together. -/
theorem exists_evalList {ts : List Ty}
    (h : ∀ t ∈ ts, ∃ m x, t.eval = some m ∧ t.value ρ = some x ∧ m.Denotes x) :
    ∃ ms xs, evalList ts = some ms ∧ valueList ρ ts = some xs ∧
      List.Forall₂ Size.Denotes ms xs := by
  induction ts with
  | nil => exact ⟨[], [], rfl, rfl, .nil⟩
  | cons t ts ih =>
    obtain ⟨⟨m, x, hm, hx, hmx⟩, h⟩ := List.forall_mem_cons.mp h
    obtain ⟨ms, xs, hms, hxs, hden⟩ := ih h
    exact ⟨m :: ms, x :: xs, by rw [evalList, hm, hms]; rfl, by rw [valueList, hx, hxs]; rfl,
      .cons hmx hden⟩

theorem Representable.arg {c : Con} {args : List Ty} (h : (con c args).Representable ρ) :
    ∀ a ∈ args, a.Representable ρ :=
  fun _ ha u hu => h u (.arg ha hu)

theorem representable_op_iff {f : SizeOp} {args : List Ty} :
    (con (.op f) args).Representable ρ ↔ (∀ a ∈ args, a.Representable ρ) ∧
      ∃ x, (con (.op f) args).value ρ = some x ∧ Size.Representable x := by
  refine ⟨fun h => ⟨h.arg, h _ .refl⟩, fun ⟨hargs, hvalue⟩ u hu => ?_⟩
  cases hu with
  | refl => exact hvalue
  | arg ha hu => exact hargs _ ha u hu

theorem representable_synonym_iff {n : Name} {args : List Ty} {body : Ty} :
    (synonym n args body).Representable ρ ↔ body.Representable ρ := by
  refine ⟨fun h u hu => h u (.body hu), fun h u hu => ?_⟩
  cases hu with
  | refl =>
    rw [value]
    exact h body .refl
  | body hu => exact h u hu

/-- A size without parts has its value. -/
theorem eval_leaf_iff {c : Con} {m s : Size} {x : ℕ∞} (hm : (con c []).eval = some m)
    (hx : (con c []).value ρ = some x) (h : m.Denotes x) :
    (con c []).eval = some s ↔
      (con c []).Representable ρ ∧ ∃ x, (con c []).value ρ = some x ∧ s.Denotes x := by
  rw [hm, hx]
  constructor
  · rintro ⟨⟩
    refine ⟨fun u hu => ?_, x, rfl, h⟩
    cases hu with
    | refl => exact ⟨x, hx, Size.representable_iff.mpr ⟨m, h⟩⟩
    | arg ha _ => cases ha
  · rintro ⟨-, y, ⟨⟩, hs⟩
    rw [(h.eq_iff hs).mpr rfl]

/-- Where the arguments have representable values, the function decides. -/
theorem eval_op_iff {f : SizeOp} {args : List Ty} {s : Size} (hf : f.isGuarded = true)
    (hlen : args.length = f.kind.arity)
    (hargs : ∀ a ∈ args, ∃ m x, a.eval = some m ∧ a.value ρ = some x ∧ m.Denotes x) :
    (con (.op f) args).eval = some s ↔
      ∃ x, (con (.op f) args).value ρ = some x ∧ s.Denotes x := by
  obtain ⟨ms, xs, hms, hxs, hden⟩ := exists_evalList hargs
  rw [eval, value, hms, hxs]
  exact SizeOp.eval_eq_some_iff hf hden ((length_evalList hms).trans hlen)

/-- A closed size evaluates to `s` exactly if all of its parts can be represented and `s` stands for
its value. -/
theorem Arithmetic.eval_eq_some_iff {t : Ty} (h : t.Arithmetic) {s : Size} :
    t.eval = some s ↔ t.Representable ρ ∧ ∃ x, t.value ρ = some x ∧ s.Denotes x := by
  induction h generalizing s with
  | @num n hn =>
    obtain ⟨m, rfl⟩ := Int.eq_ofNat_of_zero_le hn.1
    exact eval_leaf_iff (x := m) (by rw [eval]) (by simp [value, hn]) (.finite m hn.2)
  | inf => exact eval_leaf_iff (by rw [eval]) (by rw [value]) .inf
  | @op f args hf hlen _ ih =>
    rw [representable_op_iff]
    constructor
    · intro hs
      obtain ⟨ms, hms, -⟩ := Option.bind_eq_some_iff.mp (by rwa [eval] at hs)
      have hparts : ∀ a ∈ args, a.Representable ρ ∧
          ∃ m x, a.eval = some m ∧ a.value ρ = some x ∧ m.Denotes x := by
        intro a ha
        obtain ⟨m, hm⟩ := Option.isSome_iff_exists.mp (isSome_eval_of_mem hms a ha)
        obtain ⟨hrep, x, hx, hmx⟩ := (ih a ha).mp hm
        exact ⟨hrep, m, x, hm, hx, hmx⟩
      obtain ⟨x, hx, hsx⟩ := (eval_op_iff hf hlen fun a ha => (hparts a ha).2).mp hs
      exact ⟨⟨fun a ha => (hparts a ha).1, x, hx, Size.representable_iff.mpr ⟨s, hsx⟩⟩, x, hx, hsx⟩
    · rintro ⟨⟨hargs, -⟩, hs⟩
      refine (eval_op_iff hf hlen fun a ha => ?_).mpr hs
      obtain ⟨x, hx, hrep⟩ := hargs a ha a .refl
      obtain ⟨m, hm⟩ := Size.representable_iff.mp hrep
      exact ⟨m, x, (ih a ha).mpr ⟨hargs a ha, x, hx, hm⟩, hx, hm⟩
  | synonym _ ih =>
    rw [representable_synonym_iff, eval, value]
    exact ih

/-- A closed size has a value exactly if, under any valuation, each of its parts has one that is
infinite or a word, and the value is exactly this. -/
theorem eval_exact {t : Ty} (h : t.Arithmetic) (ρ : Valuation) :
    (t.eval.isSome ↔ ∀ u : Ty, u.PartOf t → ∃ x, u.value ρ = some x ∧ Size.Representable x) ∧
      ∀ s, t.eval = some s → ∃ x, t.value ρ = some x ∧ s.Denotes x := by
  refine ⟨⟨fun hs => ?_, fun hparts => ?_⟩, fun s hs => (h.eval_eq_some_iff.mp hs).2⟩
  · obtain ⟨s, hs⟩ := Option.isSome_iff_exists.mp hs
    exact (h.eval_eq_some_iff.mp hs).1
  · obtain ⟨x, hx, hrep⟩ := hparts t .refl
    obtain ⟨s, hsx⟩ := Size.representable_iff.mp hrep
    rw [h.eval_eq_some_iff.mpr ⟨hparts, x, hx, hsx⟩]
    rfl

/-- A synonym for `2 ^^ 62`. -/
def halfOfWords : Ty :=
  synonym { id := 5, ident := "Half" } [] (op .exp [num 2, num 62])

/-- `(Half - 1) + Half`. -/
def largestWord : Ty := op .add [op .sub [halfOfWords, num 1], halfOfWords]

/-- The largest word is reached without leaving the words, and its successor is refused: one part of
it has no value that can be represented. -/
theorem eval_exact_largestWord :
    largestWord.Arithmetic ∧ largestWord.eval = some (.finite Word.maxValue) ∧
      (∃ x, largestWord.value ⟨0, 0⟩ = some x ∧ (Size.finite Word.maxValue).Denotes x) ∧
      (op .add [largestWord, num 1]).Arithmetic ∧
      ¬ ∀ u : Ty, u.PartOf (op .add [largestWord, num 1]) →
        ∃ x, u.value ⟨0, 0⟩ = some x ∧ Size.Representable x := by
  have hnum : ∀ n ∈ [1, 2, 62], (num n).Arithmetic := by
    intro n hn
    refine .num ?_
    simp only [List.mem_cons, List.not_mem_nil, or_false] at hn
    rcases hn with rfl | rfl | rfl <;> decide
  have hhalf : halfOfWords.Arithmetic :=
    .synonym (.op rfl rfl (by simpa using ⟨hnum 2 (by simp), hnum 62 (by simp)⟩))
  have hlargest : largestWord.Arithmetic := by
    refine .op rfl rfl (List.forall_mem_cons.mpr ⟨.op rfl rfl ?_, by simpa using hhalf⟩)
    simpa using ⟨hhalf, hnum 1 (by simp)⟩
  have hnext : (op .add [largestWord, num 1]).Arithmetic :=
    .op rfl rfl (by simpa using ⟨hlargest, hnum 1 (by simp)⟩)
  have hvalue : largestWord.eval = some (.finite Word.maxValue) := by cbv
  have hnone : (op .add [largestWord, num 1]).eval = none := by cbv
  refine ⟨hlargest, hvalue, (eval_exact hlargest _).2 _ hvalue, hnext, fun hparts => ?_⟩
  have hsome := (eval_exact hnext _).1.mpr hparts
  rw [hnone] at hsome
  cases hsome

end Ty
end SizedTypes
