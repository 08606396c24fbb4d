import SizedTypes.Proofs.Simplify.Soundness

/-!
# What the local simplifier keeps

A goal that holds is not refuted, and everything that is left of it holds, with one exception. Zero
times infinity is zero, yet the finiteness of a product is reduced to the finiteness of both factors.
Where no product that decides on the finiteness of a size is of this kind, the goals that are left
are equivalent to the goal.
-/

set_option autoImplicit false

namespace SizedTypes

open Ty

variable {ρ : Valuation}

/-! ## Products of zero and infinity -/

/-- Among the parts that decide whether a size is finite there is an open product of zero and
infinity. -/
inductive Ty.Collapses (ρ : Valuation) : Ty → Prop
  | product {a b : Ty} {args : List Ty} (h : (con (.op .mul) (a :: b :: args)).eval = none)
    (hab : a.value ρ = some 0 ∧ b.value ρ = some ⊤ ∨ a.value ρ = some ⊤ ∧ b.value ρ = some 0) :
    Collapses ρ (con (.op .mul) (a :: b :: args))
  | first {f : SizeOp} {a : Ty} {args : List Ty} (hf : f.isFinPair || f.isFinFirst)
    (ha : Collapses ρ a) : Collapses ρ (con (.op f) (a :: args))
  | second {f : SizeOp} {a b : Ty} {args : List Ty} (hf : f.isFinPair) (hb : Collapses ρ b) :
    Collapses ρ (con (.op f) (a :: b :: args))
  | synonym {n : Name} {args : List Ty} {body : Ty} (h : Collapses ρ body) :
    Collapses ρ (synonym n args body)

/-- A predicate that does not ask for the finiteness of a size that collapses. -/
def Ty.Regular (ρ : Valuation) (p : Ty) : Prop :=
  ∀ t args, p.asProp? = some (.fin, t :: args) → ¬ t.Collapses ρ

namespace Ty

theorem collapses_expand : ∀ {t : Ty}, t.expand.Collapses ρ → t.Collapses ρ
  | free _, h | bound _, h | con _ _, h | record _, h | newtype _ _ _ _, h => h
  | synonym _ _ body, h => .synonym (collapses_expand (t := body) h)

theorem collapses_of_normalize {t : Ty} {x : ℕ∞} (ht : t.value ρ = some x)
    (h : t.normalize.Collapses ρ) : t.Collapses ρ := by
  induction t using Ty.induct generalizing x with
  | con c args ih =>
    cases c with
    | op f =>
      rw [normalize] at h
      split at h
      · rename_i s _
        cases s <;> cases h
      · rcases args with _ | ⟨a, _ | ⟨b, args⟩⟩
        · cases h
        · obtain ⟨x, xs, hx, -, -⟩ := value_op ht
          cases h with
          | first hf ha => exact .first hf (ih a (by simp) hx ha)
        · obtain ⟨x, xs, hx, hxs, -⟩ := value_op ht
          obtain ⟨y, ys, hy, -⟩ := valueList_cons hxs
          cases h with
          | product hopen hab =>
            rw [eval, ← normalizeList, ← normalizeList, evalList_normalizeList, ← eval] at hopen
            rw [value_normalize hx, value_normalize hy] at hab
            exact .product hopen (by rwa [hx, hy])
          | first hf ha => exact .first hf (ih a (by simp) hx ha)
          | second hf hb => exact .second hf (ih b (by simp) hy hb)
    | _ => simp [value] at ht <;> cases h
  | synonym n args body _ ih =>
    rw [value] at ht
    rw [normalize] at h
    cases h with
    | synonym h => exact .synonym (ih ht h)
  | free _ | bound _ => cases h
  | _ => simp [value] at ht

theorem Regular.normalize {p : Ty} (hp : p.Defined ρ) (h : p.Regular ρ) :
    p.normalize.Regular ρ := by
  intro t args ht hcollapses
  rw [asProp?_normalize] at ht
  obtain ⟨P, hP⟩ := Option.isSome_iff_exists.mp hp
  obtain ⟨pc, args', hprop, hreads⟩ := asProp?_of_statement hP
  rw [hprop] at ht
  cases hreads with
  | fin ha =>
    simp [normalizeList] at ht
    obtain ⟨rfl, rfl⟩ := ht
    exact h _ _ hprop (collapses_of_normalize ha hcollapses)
  | _ => simp at ht

theorem regular_fin {a : Ty} (h : ¬ a.Collapses ρ) : (fin a).Regular ρ := by
  intro t args ht
  cases ht
  exact h

end Ty

/-- A product that is finite has finite factors, unless it is of zero and infinity. -/
theorem ne_top_of_pair {f : SizeOp} {a b : Ty} {args : List Ty} {x y m : ℕ∞} {ys : List ℕ∞}
    (hf : f.isFinPair = true) (heval : (Ty.con (.op f) (a :: b :: args)).eval = none)
    (hx : a.value ρ = some x) (hy : b.value ρ = some y)
    (hm : f.denote (x :: y :: ys) = some m) (hfin : m ≠ ⊤)
    (h : ¬ (Ty.con (.op f) (a :: b :: args)).Collapses ρ) : x ≠ ⊤ ∧ y ≠ ⊤ := by
  cases ys with
  | cons z zs => cases f <;> cases hf <;> cases hm
  | nil =>
    cases f <;> cases hf <;> cases hm
    · simpa using hfin
    · refine ⟨?_, ?_⟩
      · rintro rfl
        refine h (.product heval (Or.inr ⟨hx, ?_⟩))
        rw [hy, Option.some.injEq]
        by_contra hne
        exact hfin (ENat.top_mul hne)
      · rintro rfl
        refine h (.product heval (Or.inl ⟨?_, hy⟩))
        rw [hx, Option.some.injEq]
        by_contra hne
        exact hfin (ENat.mul_top hne)
    · simpa using hfin

namespace Simplify

/-- A finite size that does not collapse has finite parts that do not collapse. -/
theorem holds_of_finStep {t : Ty} {m : ℕ∞} {subs : List Ty} (ht : t.value ρ = some m)
    (hm : m ≠ ⊤) (hregular : ¬ t.Collapses ρ) (h : finStep t = .reduced subs) :
    ∀ q ∈ subs, q.Holds ρ ∧ q.Regular ρ := by
  have hcases := finStep_cases t
  have hopen : ¬ t.expand.Collapses ρ := fun hc => hregular (collapses_expand hc)
  have hvalue := ht
  rw [← value_expand] at hvalue
  generalize finStep t = v at h hcases
  cases hcases with
  | value heval =>
    split at h <;> cases h
    simp
  | pair hf heval hexp =>
    cases h
    rw [hexp] at hvalue hopen
    obtain ⟨x, xs, hx, hxs, hden⟩ := value_op hvalue
    obtain ⟨y, ys, hy, -, rfl⟩ := valueList_cons hxs
    rw [← eval_expand, hexp] at heval
    obtain ⟨hxfin, hyfin⟩ := ne_top_of_pair hf heval hx hy hden hm hopen
    simp only [List.forall_mem_cons, holds_fin_iff hx, holds_fin_iff hy]
    refine ⟨⟨hxfin, regular_fin fun ha => hopen (.first (by simp [hf]) ha)⟩,
      ⟨hyfin, regular_fin fun hb => hopen (.second hf hb)⟩, nofun⟩
  | first hf heval hexp =>
    cases h
    rw [hexp] at hvalue hopen
    obtain ⟨x, xs, hx, hxs, hden⟩ := value_op hvalue
    have hxfin := (SizeOp.denote_ne_top_iff_first hf hden).mp hm
    simp only [List.forall_mem_cons, holds_fin_iff hx]
    exact ⟨⟨hxfin, regular_fin fun ha => hopen (.first (by simp [hf]) ha)⟩, nofun⟩
  | undecided => cases h

theorem eq_nil_of_compareStep {r : Comparison} {a b : Ty} {subs : List Ty}
    (h : compareStep r a b = .reduced subs) : subs = [] := by
  unfold compareStep at h
  split at h
  · cases h
    rfl
  · split at h <;> split at h <;> cases h <;> rfl

theorem eq_nil_of_primeStep {t : Ty} {subs : List Ty} (h : primeStep t = .reduced subs) :
    subs = [] := by
  unfold primeStep at h
  split at h
  · split at h <;> cases h
    rfl
  · cases h
  · cases h

theorem holds_of_step {p : Ty} {subs : List Ty} (hp : p.Holds ρ) (hregular : p.Regular ρ)
    (h : step p = .reduced subs) : ∀ q ∈ subs, q.Holds ρ ∧ q.Regular ρ := by
  obtain ⟨P, hP, hholds⟩ := hp
  obtain ⟨pc, args, hprop, hreads⟩ := asProp?_of_statement hP
  unfold step at h
  rw [hprop] at h
  cases hreads with
  | compare ha hb => simp [eq_nil_of_compareStep h]
  | fin ha => exact holds_of_finStep ha hholds (hregular _ _ hprop) h
  | prime ha => simp [eq_nil_of_primeStep h]
  | conj _ _ => cases h
  | trivial =>
    cases h
    simp

/-- Goals on the stack that hold are not refuted, and what is left of them holds. -/
theorem exists_loop_eq_ok {A : Assumptions} {residual stack : List Ty}
    (hresidual : ∀ r ∈ residual, r.Holds ρ) (hstack : ∀ p ∈ stack, p.Holds ρ ∧ p.Regular ρ) :
    ∃ out, loop A residual stack = .ok out ∧ ∀ r ∈ out, r.Holds ρ := by
  fun_induction loop A residual stack with
  | case1 residual => exact ⟨residual, rfl, hresidual⟩
  | case2 residual goal stack p hentails ih => exact ih hresidual fun q hq => hstack q (by simp [hq])
  | case3 residual goal stack p hentails hstep =>
    obtain ⟨⟨hgoal, -⟩, -⟩ := List.forall_mem_cons.mp hstack
    have hsound := soundFor_step hgoal.defined.normalize
    rw [hstep] at hsound
    exact absurd (hgoal.defined.holds_normalize_iff.mpr hgoal) hsound
  | case4 residual goal stack p hentails hstep ih =>
    obtain ⟨⟨hgoal, -⟩, hrest⟩ := List.forall_mem_cons.mp hstack
    have hp : p.Holds ρ := hgoal.defined.holds_normalize_iff.mpr hgoal
    exact ih (List.forall_mem_cons.mpr ⟨hp, hresidual⟩) hrest
  | case5 residual goal stack p hentails subs hstep ih =>
    obtain ⟨⟨hgoal, hregular⟩, hrest⟩ := List.forall_mem_cons.mp hstack
    have hp : p.Holds ρ := hgoal.defined.holds_normalize_iff.mpr hgoal
    have hsubs := holds_of_step hp (hregular.normalize hgoal.defined) hstep
    refine ih hresidual (List.forall_mem_append.mpr ⟨fun q hq => ?_, hrest⟩)
    exact hsubs q (List.mem_reverse.mp hq)

end Simplify

/-- Where the assumptions hold and no finiteness condition of the goal collapses, what is left is
equivalent to the goal, and a goal that is reported unsolvable does not hold. -/
theorem simplify_equivalent {goal : Ty} {assumed : List Ty} (hgoal : goal.Defined ρ)
    (hassumed : ∀ q ∈ assumed, q.Holds ρ) (hregular : ∀ q ∈ goal.conjuncts, q.Regular ρ) :
    match simplify goal (Assumptions.ofList assumed) with
    | .ok residual => goal.Holds ρ ↔ ∀ r ∈ residual, r.Holds ρ
    | .error _ => ¬ goal.Holds ρ := by
  have hkept : goal.Holds ρ → ∃ out, simplify goal (Assumptions.ofList assumed) = .ok out ∧
      ∀ r ∈ out, r.Holds ρ := by
    rintro ⟨P, hP, hholds⟩
    have hparts := (holds_conjuncts_iff hP).2.mpr hholds
    refine Simplify.exists_loop_eq_ok (by simp) fun q hq => ?_
    have hq := List.mem_reverse.mp hq
    exact ⟨hparts q hq, hregular q hq⟩
  cases hs : simplify goal (Assumptions.ofList assumed) with
  | ok residual =>
    refine ⟨fun h => ?_, fun h => ?_⟩
    · obtain ⟨out, hout, hholds⟩ := hkept h
      cases hs.symm.trans hout
      exact hholds
    · exact Simplify.holds_of_loop_conjuncts (holds_ofList hassumed) hgoal hs h
  | error q =>
    intro h
    obtain ⟨out, hout, -⟩ := hkept h
    cases hs.symm.trans hout

/-- `fin (m * t)` for a variable `m`. -/
def finiteProduct (t : Ty) : Ty := fin (op .mul [lengthVar 1, t])

/-- At `m = 4` and `n = 3` the product does not collapse, and the finiteness of both factors is
equivalent to its own. -/
theorem simplify_equivalent_finiteProduct :
    (finiteProduct (lengthVar 2)).Holds fourAndThree ↔
      ∀ r ∈ [fin (lengthVar 1), fin (lengthVar 2)], r.Holds fourAndThree := by
  have hm : (lengthVar 1).value fourAndThree = some 4 := rfl
  have hn : (lengthVar 2).value fourAndThree = some 3 := rfl
  have hopen : ¬ (op .mul [lengthVar 1, lengthVar 2]).Collapses fourAndThree := by
    intro h
    cases h with
    | product _ hab => simp [hm, hn] at hab
    | first _ ha => cases ha
    | second _ hb => cases hb
  have hdefined : (finiteProduct (lengthVar 2)).Defined fourAndThree := by
    simp [finiteProduct, fin, op, Defined, statement, value, valueList, hm, hn, SizeOp.denote]
  have hregular : ∀ q ∈ (finiteProduct (lengthVar 2)).conjuncts, q.Regular fourAndThree := by
    simpa [finiteProduct, fin, conjuncts] using regular_fin hopen
  have hsimplify : simplify (finiteProduct (lengthVar 2)) (Assumptions.ofList []) =
      .ok [fin (lengthVar 1), fin (lengthVar 2)] := by cbv
  have hnone : ∀ q ∈ ([] : List Ty), q.Holds fourAndThree := by simp
  have h := simplify_equivalent hdefined hnone hregular
  rwa [hsimplify] at h

/-- `m` is zero. -/
def zeroLength : Valuation where
  var _ := 0
  param _ := 0

/-- Zero times infinity is finite, yet the finiteness of `inf` is asked for and refuted. -/
theorem finiteProduct_refuted_at_zero :
    (finiteProduct .inf).Holds zeroLength ∧
      simplify (finiteProduct .inf) (Assumptions.ofList []) = .error (fin .inf) := by
  refine ⟨⟨(0 : ℕ∞) ≠ ⊤, ?_, by simp⟩, by cbv⟩
  simp [finiteProduct, fin, op, statement, value, valueList, lengthVar, zeroLength, Ty.inf,
    SizeOp.denote]

end SizedTypes
