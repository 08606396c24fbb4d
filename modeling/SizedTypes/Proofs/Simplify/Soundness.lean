import SizedTypes.Proofs.Simplify.Evaluation
import SizedTypes.Proofs.Size.Primes

/-!
# Soundness of the local simplifier

A valuation that satisfies the assumptions and everything that is left of a goal satisfies the goal.
Each step is sound on its own: a discharged goal is true, a refuted goal is false, and a goal that is
taken apart follows from its parts. The work list carries this through to the end.
-/

set_option autoImplicit false

namespace SizedTypes

open Ty

variable {ρ : Valuation}

/-! ## Finite sizes -/

theorem Size.ne_top_of_quotient {f : ℕ → ℕ → ℕ} {x y m : ℕ∞}
    (h : Size.quotient f x y = some m) : x ≠ ⊤ ∧ m ≠ ⊤ := by
  unfold Size.quotient at h
  split at h
  · cases h
  · rename_i hxy
    cases h
    exact ⟨fun hx => hxy (Or.inl hx), ENat.natCast_ne_top _⟩

namespace SizeOp

variable {f : SizeOp} {x y m : ℕ∞} {xs : List ℕ∞}

theorem denote_ne_top_of_pair (hf : f.isFinPair = true) (h : f.denote (x :: y :: xs) = some m)
    (hx : x ≠ ⊤) (hy : y ≠ ⊤) : m ≠ ⊤ := by
  cases xs with
  | cons z zs => cases f <;> cases hf <;> cases h
  | nil =>
    cases f <;> cases hf <;> cases h
    · simp [hx, hy]
    · exact WithTop.mul_ne_top hx hy
    · simp [hx, hy]

theorem denote_ne_top_iff_first (hf : f.isFinFirst = true) (h : f.denote (x :: xs) = some m) :
    m ≠ ⊤ ↔ x ≠ ⊤ := by
  rcases xs with _ | ⟨y, _ | ⟨z, zs⟩⟩
  · cases f <;> cases hf <;> cases h
    cases x with
    | top => exact iff_of_false (fun h => h rfl) fun h => h rfl
    | coe n => exact iff_of_true (ENat.natCast_ne_top n.size) (ENat.natCast_ne_top n)
  · cases f with
    | sub =>
      simp only [denote] at h
      split at h
      · rename_i hy
        cases h
        simp [ENat.sub_eq_top_iff, hy.2]
      · cases h
    | div | mod =>
      obtain ⟨hx, hm⟩ := Size.ne_top_of_quotient h
      simp [hx, hm]
    | ceilDiv | ceilMod | width => cases h
    | _ => cases hf
  · cases f <;> cases h

end SizeOp

namespace Ty

theorem valueList_cons {a : Ty} {args : List Ty} {xs : List ℕ∞}
    (h : valueList ρ (a :: args) = some xs) :
    ∃ x ys, a.value ρ = some x ∧ valueList ρ args = some ys ∧ xs = x :: ys := by
  rw [valueList] at h
  obtain ⟨x, hx, h⟩ := Option.bind_eq_some_iff.mp h
  obtain ⟨ys, hys, rfl⟩ := Option.map_eq_some_iff.mp h
  exact ⟨x, ys, hx, hys, rfl⟩

theorem value_op {f : SizeOp} {a : Ty} {args : List Ty} {m : ℕ∞}
    (h : (con (.op f) (a :: args)).value ρ = some m) :
    ∃ x xs, a.value ρ = some x ∧ valueList ρ args = some xs ∧ f.denote (x :: xs) = some m := by
  rw [value] at h
  obtain ⟨_, h, hm⟩ := Option.bind_eq_some_iff.mp h
  obtain ⟨x, xs, hx, hxs, rfl⟩ := valueList_cons h
  exact ⟨x, xs, hx, hxs, hm⟩

theorem holds_iff {p : Ty} {P : Prop} (h : p.statement ρ = some P) : p.Holds ρ ↔ P := by
  refine ⟨fun ⟨Q, hQ, hholds⟩ => ?_, fun hP => ⟨P, h, hP⟩⟩
  cases hQ.symm.trans h
  exact hholds

theorem Defined.normalize {p : Ty} (h : p.Defined ρ) : p.normalize.Defined ρ := by
  obtain ⟨P, hP⟩ := Option.isSome_iff_exists.mp h
  rw [Defined, statement_normalize hP]
  rfl

theorem Defined.holds_normalize_iff {p : Ty} (h : p.Defined ρ) :
    p.normalize.Holds ρ ↔ p.Holds ρ := by
  obtain ⟨P, hP⟩ := Option.isSome_iff_exists.mp h
  rw [holds_iff hP, holds_iff (statement_normalize hP)]

theorem statement_fin {a : Ty} {x : ℕ∞} (h : a.value ρ = some x) :
    (fin a).statement ρ = some (x ≠ ⊤) := by
  simp [fin, statement, h]

theorem defined_fin {a : Ty} {x : ℕ∞} (h : a.value ρ = some x) : (fin a).Defined ρ := by
  rw [Defined, statement_fin h]
  rfl

theorem holds_fin_iff {a : Ty} {x : ℕ∞} (h : a.value ρ = some x) : (fin a).Holds ρ ↔ x ≠ ⊤ :=
  holds_iff (statement_fin h)

end Ty

/-- The verdict is right about a predicate that says `P`. -/
def Verdict.SoundFor (ρ : Valuation) (P : Prop) : Verdict → Prop
  | .undecided => True
  | .unsolvable => ¬ P
  | .reduced subs => (∀ q ∈ subs, q.Defined ρ) ∧ ((∀ q ∈ subs, q.Holds ρ) → P)

@[simp] theorem Verdict.soundFor_undecided {P : Prop} : Verdict.undecided.SoundFor ρ P := trivial

theorem Verdict.soundFor_holds {P : Prop} (h : P) : Verdict.holds.SoundFor ρ P :=
  ⟨by simp, fun _ => h⟩

/-- A test that decides the predicate. -/
theorem Verdict.soundFor_ite {c : Prop} [Decidable c] {P : Prop} (h : c ↔ P) :
    (if c then Verdict.holds else .unsolvable).SoundFor ρ P := by
  split
  · exact soundFor_holds (h.mp ‹_›)
  · exact fun hP => ‹¬ c› (h.mpr hP)

namespace Simplify

theorem soundFor_finStep {t : Ty} {m : ℕ∞} (ht : t.value ρ = some m) :
    (finStep t).SoundFor ρ (m ≠ ⊤) := by
  have hcases := finStep_cases t
  generalize finStep t = v at hcases ⊢
  rw [← value_expand] at ht
  cases hcases with
  | value h =>
    rw [value_expand] at ht
    exact Verdict.soundFor_ite (denotes_eval h ht).isFinite_iff
  | pair hf h hexp =>
    rw [hexp] at ht
    obtain ⟨x, xs, hx, hxs, hm⟩ := value_op ht
    obtain ⟨y, ys, hy, -, rfl⟩ := valueList_cons hxs
    refine ⟨by simp [defined_fin hx, defined_fin hy], fun hsubs => ?_⟩
    have hx' := (holds_fin_iff hx).mp (hsubs _ (by simp))
    have hy' := (holds_fin_iff hy).mp (hsubs _ (by simp))
    exact SizeOp.denote_ne_top_of_pair hf hm hx' hy'
  | first hf h hexp =>
    rw [hexp] at ht
    obtain ⟨x, xs, hx, -, hm⟩ := value_op ht
    refine ⟨by simp [defined_fin hx], fun hsubs => ?_⟩
    have hx' := (holds_fin_iff hx).mp (hsubs _ (by simp))
    exact (SizeOp.denote_ne_top_iff_first hf hm).mpr hx'
  | undecided => trivial

theorem compareSizes_iff {r : Comparison} {a b : Size} {m n : ℕ∞} (ha : a.Denotes m)
    (hb : b.Denotes n) : compareSizes r a b = true ↔ r.relates m n := by
  cases r with
  | equal => simp [compareSizes, Comparison.relates, ha.eq_iff hb]
  | neq => simp [compareSizes, Comparison.relates, ha.eq_iff hb]
  | geq => exact ha.geq_iff hb

theorem le_of_geqOneSided {a b : Ty} {m n : ℕ∞} (ha : a.value ρ = some m)
    (hb : b.value ρ = some n) (h : geqOneSided a.eval b.eval = true) : n ≤ m := by
  simp only [geqOneSided, Bool.or_eq_true, decide_eq_true_eq] at h
  rcases h with h | h
  · have hzero := denotes_eval h hb
    cases hzero
    exact zero_le
  · have htop := denotes_eval h ha
    cases htop
    exact le_top

theorem soundFor_compareStep {r : Comparison} {a b : Ty} {m n : ℕ∞} (ha : a.value ρ = some m)
    (hb : b.value ρ = some n) : (compareStep r a b).SoundFor ρ (r.relates m n) := by
  unfold compareStep
  split
  · rename_i hsame
    have heq := value_eq_of_same (ρ := ρ) a b hsame.2
    rw [ha, hb] at heq
    cases heq
    refine Verdict.soundFor_holds ?_
    cases r with
    | equal => rfl
    | geq => exact le_rfl
    | neq => exact absurd rfl hsame.1
  · split
    · exact Verdict.soundFor_ite (compareSizes_iff (denotes_eval ‹_› ha) (denotes_eval ‹_› hb))
    · split
      · rename_i hside
        obtain ⟨rfl, hside⟩ := hside
        exact Verdict.soundFor_holds (le_of_geqOneSided ha hb hside)
      · trivial

theorem soundFor_primeStep {t : Ty} {m : ℕ∞} (ht : t.value ρ = some m) :
    (primeStep t).SoundFor ρ (∃ n : ℕ, n.Prime ∧ m = n) := by
  unfold primeStep
  split
  · rename_i k hk
    cases denotes_eval hk ht with
    | finite n hn =>
      refine Verdict.soundFor_ite ((isPrime_iff hn).trans ⟨fun hp => ⟨n, hp, rfl⟩, ?_⟩)
      rintro ⟨n', hp, hn'⟩
      rwa [Nat.cast_inj.mp hn']
  · rename_i hk
    cases denotes_eval hk ht
    rintro ⟨n, -, hn⟩
    exact ENat.top_ne_natCast n hn
  · trivial

/-- What one step does with a predicate is right. -/
theorem soundFor_step {p : Ty} (h : p.Defined ρ) : (step p).SoundFor ρ (p.Holds ρ) := by
  obtain ⟨P, hP⟩ := Option.isSome_iff_exists.mp h
  obtain ⟨pc, args, hp, hreads⟩ := asProp?_of_statement hP
  rw [propext (holds_iff hP)]
  unfold step
  rw [hp]
  cases hreads with
  | compare ha hb => exact soundFor_compareStep ha hb
  | fin ha => exact soundFor_finStep ha
  | prime ha => exact soundFor_primeStep ha
  | conj _ _ => trivial
  | trivial => exact Verdict.soundFor_holds True.intro

end Simplify

/-! ## Assumptions -/

theorem statement_of_asCompare? {p a b : Ty} {r : Comparison} {P : Prop}
    (h : p.statement ρ = some P) (hab : p.asCompare? r = some (a, b)) :
    ∃ m n, a.value ρ = some m ∧ b.value ρ = some n ∧ P = r.relates m n := by
  obtain ⟨pc, args, hp, hreads⟩ := asProp?_of_statement h
  unfold asCompare? at hab
  rw [hp] at hab
  cases hreads with
  | @compare r' _ _ m n ha hb =>
    simp only at hab
    split at hab
    · rename_i hr
      subst hr
      cases hab
      exact ⟨m, n, ha, hb, rfl⟩
    · cases hab
  | _ => cases hab

theorem holds_of_weakens {p q : Ty} (hp : p.Defined ρ) (hq : q.Holds ρ)
    (h : Assumptions.weakens p q = true) : p.Holds ρ := by
  obtain ⟨P, hP⟩ := Option.isSome_iff_exists.mp hp
  obtain ⟨Q, hQ, hholds⟩ := hq
  unfold Assumptions.weakens at h
  split at h
  · rename_i x m y n hx hy
    obtain ⟨vx, vm, hvx, hvm, rfl⟩ := statement_of_asCompare? hP hx
    obtain ⟨vy, vn, hvy, hvn, rfl⟩ := statement_of_asCompare? hQ hy
    rw [Bool.and_eq_true] at h
    obtain ⟨hsame, h⟩ := h
    have hxy := value_eq_of_same (ρ := ρ) x y hsame
    rw [hvx, hvy] at hxy
    cases hxy
    split at h
    · rename_i m' n' hm hn
      have hle : vm ≤ vn := ((denotes_eval hn hvn).geq_iff (denotes_eval hm hvm)).mp h
      exact ⟨_, hP, hle.trans hholds⟩
    · cases h
  · cases h

theorem holds_of_entails {A : Assumptions} {p : Ty} (hA : ∀ q ∈ A.props, q.Holds ρ)
    (hp : p.Defined ρ) (h : A.entails p = true) : p.Holds ρ := by
  obtain ⟨q, hq, h⟩ := List.any_eq_true.mp h
  rw [Bool.or_eq_true] at h
  rcases h with h | h
  · obtain ⟨Q, hQ, hholds⟩ := hA q hq
    exact ⟨Q, (statement_eq_of_same h).trans hQ, hholds⟩
  · exact holds_of_weakens hp (hA q hq) h

theorem holds_of_mem_implied {p q : Ty} (hp : p.Holds ρ) (hq : q ∈ p.implied) : q.Holds ρ := by
  obtain ⟨P, hP, hholds⟩ := hp
  obtain ⟨pc, args, hprop, hreads⟩ := asProp?_of_statement hP
  unfold implied at hq
  rcases List.mem_cons.mp hq with rfl | hq
  · exact ⟨P, hP, hholds⟩
  · rw [hprop] at hq
    cases hreads with
    | prime ha =>
      obtain ⟨n, hn, rfl⟩ := hholds
      simp only [List.mem_cons, List.not_mem_nil, or_false] at hq
      rcases hq with rfl | rfl
      · exact (holds_fin_iff ha).mpr (ENat.natCast_ne_top n)
      · have htwo : (num 2).value ρ = some ((2 : ℕ) : ℕ∞) := by simp [num, value, Word.maxValue]
        have hle : ((2 : ℕ) : ℕ∞) ≤ n := by exact_mod_cast hn.two_le
        exact ⟨Comparison.geq.relates n (2 : ℕ), by simp [geq, Ty.compare, statement, ha, htwo], hle⟩
    | _ => cases hq

/-! ## Conjunctions -/

/-- A conjunction says what its parts say together. -/
theorem holds_conjuncts_iff {p : Ty} {P : Prop} (h : p.statement ρ = some P) :
    (∀ q ∈ p.conjuncts, q.Defined ρ) ∧ ((∀ q ∈ p.conjuncts, q.Holds ρ) ↔ P) := by
  induction p using Ty.induct generalizing P with
  | con c args ih =>
    cases c with
    | prop pc =>
      cases Reads.of_statement h with
      | @conj p q _ _ hp hq =>
        obtain ⟨hpd, hpiff⟩ := ih p (by simp) hp
        obtain ⟨hqd, hqiff⟩ := ih q (by simp) hq
        have hlist : (con (.prop .conj) [p, q]).conjuncts = p.conjuncts ++ q.conjuncts := by
          simp [conjuncts, conjunctsList]
        rw [hlist]
        refine ⟨fun r hr => (List.mem_append.mp hr).elim (hpd r) (hqd r), ?_⟩
        rw [List.forall_mem_append, hpiff, hqiff]
      | trivial => simp [conjuncts]
      | _ => simp [conjuncts, Defined, h, holds_iff h]
    | _ => simp [statement] at h
  | synonym n args body _ ih =>
    have hbody : body.statement ρ = some P := by rwa [statement] at h
    unfold conjuncts
    split
    · exact ih hbody
    · simp [Defined, h, holds_iff h]
  | _ => simp [statement] at h

theorem holds_of_mem_conjunctsList {ps : List Ty} {q : Ty} (hps : ∀ p ∈ ps, p.Holds ρ)
    (hq : q ∈ conjunctsList ps) : q.Holds ρ := by
  induction ps with
  | nil => cases hq
  | cons p ps ih =>
    rw [conjunctsList] at hq
    rcases List.mem_append.mp hq with hq | hq
    · obtain ⟨P, hP, hholds⟩ := hps p (by simp)
      exact (holds_conjuncts_iff hP).2.mpr hholds q hq
    · exact ih (fun p hp => hps p (by simp [hp])) hq

/-- Whatever is added to assumptions that hold is implied by what is assumed. -/
theorem holds_ofList {ps : List Ty} (hps : ∀ p ∈ ps, p.Holds ρ) :
    ∀ q ∈ (Assumptions.ofList ps).props, q.Holds ρ := by
  intro q hq
  simp only [Assumptions.ofList, Assumptions.add, List.nil_append, List.mem_flatMap] at hq
  obtain ⟨p, hp, hq⟩ := hq
  have hholds := holds_of_mem_conjunctsList hps hp
  exact holds_of_mem_implied (hholds.defined.holds_normalize_iff.mpr hholds) hq

/-! ## The work list -/

namespace Simplify

/-- What is left at the end implies every goal on the stack, and what was left before. -/
theorem holds_of_loop {A : Assumptions} {residual stack out : List Ty}
    (hA : ∀ q ∈ A.props, q.Holds ρ) (h : loop A residual stack = .ok out)
    (hstack : ∀ p ∈ stack, p.Defined ρ) (hout : ∀ r ∈ out, r.Holds ρ) :
    (∀ r ∈ residual, r.Holds ρ) ∧ ∀ p ∈ stack, p.Holds ρ := by
  revert h
  fun_induction loop A residual stack with
  | case1 residual =>
    intro h
    cases h
    exact ⟨hout, nofun⟩
  | case2 residual goal stack p hentails ih =>
    intro h
    obtain ⟨hgoal, hrest⟩ := List.forall_mem_cons.mp hstack
    obtain ⟨hresidual, hstack'⟩ := ih hrest h
    have hp := holds_of_entails hA hgoal.normalize hentails
    exact ⟨hresidual, List.forall_mem_cons.mpr ⟨hgoal.holds_normalize_iff.mp hp, hstack'⟩⟩
  | case3 residual goal stack p hentails hstep => exact fun h => nomatch h
  | case4 residual goal stack p hentails hstep ih =>
    intro h
    obtain ⟨hgoal, hrest⟩ := List.forall_mem_cons.mp hstack
    obtain ⟨hresidual, hstack'⟩ := ih hrest h
    obtain ⟨hp, hresidual⟩ := List.forall_mem_cons.mp hresidual
    exact ⟨hresidual, List.forall_mem_cons.mpr ⟨hgoal.holds_normalize_iff.mp hp, hstack'⟩⟩
  | case5 residual goal stack p hentails subs hstep ih =>
    intro h
    obtain ⟨hgoal, hrest⟩ := List.forall_mem_cons.mp hstack
    have hsound := soundFor_step hgoal.normalize
    rw [hstep] at hsound
    obtain ⟨hdefined, himp⟩ := hsound
    have hsubs : ∀ q ∈ subs.reverse ++ stack, q.Defined ρ :=
      List.forall_mem_append.mpr ⟨fun q hq => hdefined q (List.mem_reverse.mp hq), hrest⟩
    obtain ⟨hresidual, hstack'⟩ := ih hsubs h
    obtain ⟨hsubs', hstack'⟩ := List.forall_mem_append.mp hstack'
    have hp := himp fun q hq => hsubs' q (List.mem_reverse.mpr hq)
    exact ⟨hresidual, List.forall_mem_cons.mpr ⟨hgoal.holds_normalize_iff.mp hp, hstack'⟩⟩

/-- The parts of a goal lie on the stack at the start. -/
theorem holds_of_loop_conjuncts {A : Assumptions} {goal : Ty} {out : List Ty}
    (hA : ∀ q ∈ A.props, q.Holds ρ) (hgoal : goal.Defined ρ)
    (h : loop A [] goal.conjuncts.reverse = .ok out) (hout : ∀ r ∈ out, r.Holds ρ) :
    goal.Holds ρ := by
  obtain ⟨P, hP⟩ := Option.isSome_iff_exists.mp hgoal
  obtain ⟨hdefined, hiff⟩ := holds_conjuncts_iff hP
  have hstack : ∀ q ∈ goal.conjuncts.reverse, q.Defined ρ := fun q hq =>
    hdefined q (List.mem_reverse.mp hq)
  have hall := (holds_of_loop hA h hstack hout).2
  rw [holds_iff hP, ← hiff]
  exact fun q hq => hall q (List.mem_reverse.mpr hq)

end Simplify

/-! ## The simplifier is sound -/

/-- Where the assumptions and everything that is left hold, the goal holds. Every function on sizes
in the goal is defined under the valuation; a predicate that holds is defined as well. -/
theorem holds_of_simplify {goal : Ty} {assumed residual : List Ty} (hgoal : goal.Defined ρ)
    (hassumed : ∀ q ∈ assumed, q.Holds ρ)
    (h : simplify goal (Assumptions.ofList assumed) = .ok residual)
    (hresidual : ∀ r ∈ residual, r.Holds ρ) : goal.Holds ρ :=
  Simplify.holds_of_loop_conjuncts (holds_ofList hassumed) hgoal h hresidual

/-- The variable of a size. -/
def lengthVar (i : Int) : Ty := .free { id := i, kind := .num }

/-- `fin (m + n)` and `n >= 2`. -/
def finiteSum : Ty :=
  conj (fin (op .add [lengthVar 1, lengthVar 2])) (geq (lengthVar 2) (num 2))

/-- `m` is four and `n` is three. -/
def fourAndThree : Valuation where
  var i := if i = 1 then 4 else 3
  param _ := 0

/-- From `prime n` the second condition follows, and of the first one `fin m` is left. -/
theorem holds_of_simplify_finiteSum :
    simplify finiteSum (Assumptions.ofList [prime (lengthVar 2)]) = .ok [fin (lengthVar 1)] ∧
      finiteSum.Holds fourAndThree := by
  have hsimplify : simplify finiteSum (Assumptions.ofList [prime (lengthVar 2)]) =
      .ok [fin (lengthVar 1)] := by cbv
  have hm : (lengthVar 1).value fourAndThree = some 4 := rfl
  have hn : (lengthVar 2).value fourAndThree = some 3 := rfl
  have hprime : (prime (lengthVar 2)).Holds fourAndThree := by
    have hstatement : (prime (lengthVar 2)).statement fourAndThree =
        some (∃ k : ℕ, k.Prime ∧ (3 : ℕ∞) = k) := by simp [prime, statement, hn]
    exact (holds_iff hstatement).mpr ⟨3, Nat.prime_three, rfl⟩
  have hleft : (fin (lengthVar 1)).Holds fourAndThree :=
    (holds_fin_iff hm).mpr (ENat.natCast_ne_top 4)
  refine ⟨hsimplify, holds_of_simplify ?_ (by simpa using hprime) hsimplify (by simpa using hleft)⟩
  simp [finiteSum, conj, fin, geq, Ty.compare, op, num, Defined, statement, value, valueList, hm, hn,
    SizeOp.denote, Word.maxValue]

end SizedTypes
