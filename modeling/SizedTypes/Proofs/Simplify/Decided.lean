import SizedTypes.Proofs.Simplify.Hierarchy
import SizedTypes.Proofs.Ty.Sizes

/-!
# Predicates about closed sizes

A comparison of sizes that have a value, and the finiteness of one, are decided by these values.
Simplifying leaves nothing of such a goal: it is discharged if it is true, and refuted if it is
false. Assumptions do not change this, unless one of them is refuted by the values in it.
-/

set_option autoImplicit false

namespace SizedTypes

open Simplify

namespace Size

variable {l m n : Size}

theorem geq_refl (m : Size) : m.geq m = true := by
  cases m <;> simp [geq]

theorem geq_trans (h : l.geq m = true) (h' : m.geq n = true) : l.geq n = true := by
  cases l <;> cases m <;> cases n <;> simp_all [geq]
  omega

end Size

namespace Ty

theorem eval_eq_of_same {a b : Ty} (h : a.same b = true) : a.eval = b.eval := by
  rw [← Shape.literal?_reduced a, ← Shape.literal?_reduced b, (same_iff_shape a b).mp h]

/-- The predicate is about sizes that have values, and with these it is true or false. -/
inductive Decided (p : Ty) : Bool → Prop
  | fin {t : Ty} {rest : List Ty} {m : Size} (hp : p.asProp? = some (.fin, t :: rest))
    (ht : t.eval = some m) : Decided p m.isFinite
  | compare {r : Comparison} {a b : Ty} {rest : List Ty} {m n : Size}
    (hp : p.asProp? = some (.compare r, a :: b :: rest)) (ha : a.eval = some m)
    (hb : b.eval = some n) : Decided p (compareSizes r m n)

variable {p q : Ty} {v : Bool}

theorem Decided.normalize (h : p.Decided v) : p.normalize.Decided v := by
  cases h with
  | @fin t rest m hp ht =>
    have hnormal : p.normalize.asProp? = some (.fin, t.normalize :: normalizeList rest) := by
      rw [asProp?_normalize, hp]
      rfl
    exact .fin hnormal ((eval_normalize t).trans ht)
  | @compare r a b rest m n hp ha hb =>
    have hnormal : p.normalize.asProp? =
        some (.compare r, a.normalize :: b.normalize :: normalizeList rest) := by
      rw [asProp?_normalize, hp]
      rfl
    exact .compare hnormal ((eval_normalize a).trans ha) ((eval_normalize b).trans hb)

theorem exists_asProp?_of_same {pc : PropCon} {args : List Ty} (hp : p.asProp? = some (pc, args))
    (h : p.same q = true) :
    ∃ args', q.asProp? = some (pc, args') ∧ sameList args args' = true := by
  have hexpand : p.expand = con (.prop pc) args := by
    unfold asProp? at hp
    split at hp
    · cases hp
      assumption
    · cases hp
  refine exists_of_same_prop ?_
  rw [same_iff_shape, ← hexpand, shape_expand]
  exact (same_iff_shape p q).mp h

theorem Decided.of_same (h : p.Decided v) (hsame : p.same q = true) : q.Decided v := by
  cases h with
  | fin hp ht =>
    obtain ⟨args, hq, hargs⟩ := exists_asProp?_of_same hp hsame
    cases args with
    | nil => cases hargs
    | cons t' rest =>
      rw [sameList, Bool.and_eq_true] at hargs
      exact .fin hq ((eval_eq_of_same hargs.1).symm.trans ht)
  | compare hp ha hb =>
    obtain ⟨args, hq, hargs⟩ := exists_asProp?_of_same hp hsame
    rcases args with _ | ⟨a', _ | ⟨b', rest⟩⟩
    · cases hargs
    · simp [sameList] at hargs
    · rw [sameList, sameList, Bool.and_eq_true, Bool.and_eq_true] at hargs
      exact .compare hq ((eval_eq_of_same hargs.1).symm.trans ha)
        ((eval_eq_of_same hargs.2.1).symm.trans hb)

theorem asProp?_of_asCompare? {r : Comparison} {a b : Ty} (h : p.asCompare? r = some (a, b)) :
    ∃ rest, p.asProp? = some (.compare r, a :: b :: rest) := by
  unfold asCompare? at h
  split at h
  · rename_i r' x y rest hp
    split at h
    · rename_i hr
      cases h
      exact ⟨rest, hr ▸ hp⟩
    · cases h
  · cases h

theorem Decided.isJunction (h : p.Decided v) : p.isJunction = false := by
  cases h with
  | fin hp _ => rw [Ty.isJunction, hp]
  | compare hp _ _ => rw [Ty.isJunction, hp]

/-- One step finds the answer. -/
theorem Decided.step (h : p.Decided v) :
    step p = if v then .holds else .unsolvable := by
  cases h with
  | fin hp ht =>
    rw [Simplify.step, hp]
    simp only [finStep, ht]
  | @compare r a b _ m n hp ha hb =>
    rw [Simplify.step, hp]
    simp only [compareStep, ha, hb]
    split
    · rename_i hsame
      obtain ⟨hne, hab⟩ := hsame
      obtain rfl : m = n := Option.some.inj (ha.symm.trans ((eval_eq_of_same hab).trans hb))
      have htrue : compareSizes r m m = true := by
        cases r with
        | equal => simp [compareSizes]
        | neq => exact absurd rfl hne
        | geq => exact Size.geq_refl m
      rw [htrue]
      rfl
    · rfl

theorem Decided.unique {w : Bool} (h : p.Decided v) (h' : p.Decided w) : v = w := by
  have heq := h.step.symm.trans h'.step
  cases v <;> cases w <;> first | rfl | cases heq

end Ty

/-- No assumption is refuted by the values of the sizes in it. -/
def Assumptions.Unrefuted (A : Assumptions) : Prop := ∀ q ∈ A.props, ¬ q.Decided false

namespace Ty

variable {A : Assumptions} {p q : Ty} {v : Bool}

/-- `x >= k` follows from `y >= l` if `x` and `y` are the same and `l` is at least `k`. -/
theorem Decided.of_weakens (h : p.Decided v) (hweak : Assumptions.weakens p q = true) :
    q.Decided false ∨ v = true := by
  unfold Assumptions.weakens at hweak
  split at hweak
  · rename_i x k y l hp hq
    obtain ⟨rest, hp⟩ := asProp?_of_asCompare? hp
    obtain ⟨rest', hq⟩ := asProp?_of_asCompare? hq
    rw [Bool.and_eq_true] at hweak
    obtain ⟨hxy, hlk⟩ := hweak
    cases h with
    | fin hp' _ => cases hp.symm.trans hp'
    | @compare r a b rest'' m n hp' ha hb =>
      cases hp.symm.trans hp'
      rw [hb] at hlk
      cases hl : l.eval with
      | none => simp [hl] at hlk
      | some s =>
        have hdecided : q.Decided (compareSizes .geq m s) :=
          .compare hq ((eval_eq_of_same hxy).symm.trans ha) hl
        cases hms : compareSizes .geq m s with
        | false => exact Or.inl (hms ▸ hdecided)
        | true =>
          rw [hl] at hlk
          exact Or.inr (Size.geq_trans hms hlk)
  · cases hweak

/-- Where no assumption is refuted, what they entail about closed sizes is true. -/
theorem Decided.eq_true_of_entails (h : p.Decided v) (hA : A.Unrefuted)
    (hentails : A.entails p = true) : v = true := by
  obtain ⟨q, hq, hsame | hweak⟩ := Assumptions.entails_iff.mp hentails
  · cases v with
    | true => rfl
    | false => exact absurd (h.of_same hsame) (hA q hq)
  · exact (h.of_weakens hweak).resolve_left (hA q hq)

/-- Simplifying a decided goal leaves nothing: the goal is discharged or refuted. -/
theorem Decided.simplify (h : p.Decided v) (hA : A.Unrefuted) :
    simplify p A = if v then .ok [] else .error p.normalize := by
  rw [SizedTypes.simplify, conjuncts_eq_self h.isJunction, List.reverse_singleton, loop]
  by_cases hentails : A.entails p.normalize = true
  · obtain rfl := h.normalize.eq_true_of_entails hA hentails
    simp [hentails, loop]
  · have hstep := h.normalize.step
    simp only [hentails, Bool.false_eq_true, if_false]
    cases v with
    | true =>
      split
      · rename_i heq
        cases hstep.symm.trans heq
      · rename_i heq
        cases hstep.symm.trans heq
      · rename_i subs heq
        cases hstep.symm.trans heq
        rw [List.reverse_nil, List.nil_append, loop]
        rfl
    | false =>
      split
      · rfl
      · rename_i heq
        cases hstep.symm.trans heq
      · rename_i heq
        cases hstep.symm.trans heq

end Ty
end SizedTypes
