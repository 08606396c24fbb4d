import SizedTypes.Proofs.Simplify.Evaluation
import SizedTypes.Proofs.Simplify.Variables

/-!
# What simplifying leaves

A predicate that is left of a goal is inert: it is normalized, it is no conjunction, and neither the
assumptions nor a step decide it. Simplifying an inert predicate gives it back, so simplifying what
is left changes nothing.
-/

set_option autoImplicit false

namespace SizedTypes

namespace Ty

/-! ## Normalizing twice -/

theorem normalize_op (f : SizeOp) (args : List Ty) :
    (con (.op f) args).normalize =
      ((con (.op f) args).eval.map Size.toTy).getD (con (.op f) (normalizeList args)) := by
  have hargs : (con (.op f) (normalizeList args)).eval = (con (.op f) args).eval := by
    rw [eval, eval, evalList_normalizeList args]
  rw [normalize, hargs]
  cases (con (.op f) args).eval <;> rfl

theorem normalize_toTy (n : Size) : n.toTy.normalize = n.toTy := by
  cases n <;> rfl

mutual
/-- A second normalization changes nothing. -/
theorem normalize_normalize : ∀ t : Ty, t.normalize.normalize = t.normalize
  | free _ | bound _ => rfl
  | con c args => by
    have ih := normalizeList_normalizeList args
    cases c with
    | op f =>
      rw [normalize]
      split
      · exact normalize_toTy _
      · rename_i hnone
        rw [normalize, ih]
        split
        · rename_i hsome
          cases hnone.symm.trans hsome
        · rfl
    | _ => simp only [normalize, ih]
  | record fields => by simp only [normalize, normalizeFields_normalizeFields fields]
  | synonym _ args body => by
    simp only [normalize, normalizeList_normalizeList args, normalize_normalize body]
  | newtype _ _ _ args => by simp only [normalize, normalizeList_normalizeList args]

theorem normalizeList_normalizeList : ∀ ts : List Ty,
    normalizeList (normalizeList ts) = normalizeList ts
  | [] => rfl
  | t :: ts => by simp only [normalizeList, normalize_normalize t, normalizeList_normalizeList ts]

theorem normalizeFields_normalizeFields : ∀ fs : List (String × Ty),
    normalizeFields (normalizeFields fs) = normalizeFields fs
  | [] => rfl
  | (_, t) :: fs => by
    simp only [normalizeFields, normalize_normalize t, normalizeFields_normalizeFields fs]
end

/-- The arguments of a normalized predicate are normalized. -/
theorem normalizeList_of_asProp? {p : Ty} {c : PropCon} {args : List Ty} (hp : p.normalize = p)
    (h : p.asProp? = some (c, args)) : normalizeList args = args := by
  have hargs := asProp?_normalize p
  rw [hp, h, Option.map_some, Option.some.injEq, Prod.mk.injEq] at hargs
  exact hargs.2.symm

/-! ## Conjunctions -/

theorem isJunction_normalize (p : Ty) : p.normalize.isJunction = p.isJunction := by
  unfold isJunction
  rw [asProp?_normalize]
  rcases p.asProp? with _ | ⟨_ | _ | _ | _ | _ | _ | _, args⟩ <;> rfl

/-- A predicate that is no conjunction is its own only part. -/
theorem conjuncts_eq_self {p : Ty} (h : p.isJunction = false) : p.conjuncts = [p] := by
  unfold conjuncts
  split
  · cases h
  · cases h
  · rename_i n args body
    have hbody : body.isJunction = false := h
    simp [hbody]
  · rfl

theorem conjunctsList_eq_flatMap (ps : List Ty) : conjunctsList ps = ps.flatMap conjuncts := by
  induction ps with
  | nil => rfl
  | cons p ps ih => rw [conjunctsList, ih, List.flatMap_cons]

/-- The parts of a predicate are no conjunctions. -/
theorem isJunction_of_mem_conjuncts {p q : Ty} (h : q ∈ p.conjuncts) : q.isJunction = false := by
  induction p using Ty.induct with
  | con c args ih =>
    unfold conjuncts at h
    split at h
    · rename_i heq
      cases heq
      rw [conjunctsList_eq_flatMap] at h
      obtain ⟨a, ha, h⟩ := List.mem_flatMap.mp h
      exact ih a ha h
    · cases h
    · rename_i heq
      cases heq
    · rename_i hconj htrivial _
      rw [List.mem_singleton.mp h]
      cases c with
      | prop pc =>
        cases pc with
        | conj => exact absurd rfl (hconj args)
        | trivial => exact absurd rfl (htrivial args)
        | _ => rfl
      | _ => rfl
  | synonym n args body _ ih =>
    unfold conjuncts at h
    split at h
    · exact ih h
    · rename_i hbody
      rw [List.mem_singleton.mp h]
      exact Bool.eq_false_iff.mpr hbody
  | free v | bound p | record fs | newtype n ps fs args =>
    rw [List.mem_singleton.mp h]
    rfl

end Ty

/-! ## Parts of a predicate -/

/-- Predicates of one of the sorts that steps reduce to. -/
inductive Ty.Elementary : Ty → Prop
  | fin (n : Ty) : Elementary (.fin n)
  | geq (a b : Ty) : Elementary (.geq a b)
  | prime (n : Ty) : Elementary (.prime n)
  | cls (c : TyClass) (args : List Ty) : Elementary (.cls c args)

theorem Ty.Elementary.isJunction {p : Ty} (h : p.Elementary) : p.isJunction = false := by
  cases h <;> rfl

open Ty (Elementary)

attribute [simp] Elementary.fin Elementary.geq Elementary.prime Elementary.cls

namespace TyClass

variable {c : TyClass} {vals : List Ty}

theorem elementary_forBit : (c.forBit vals).Leaves Elementary := by
  unfold forBit
  split <;> simp

theorem elementary_forInteger : (c.forInteger vals).Leaves Elementary := by
  unfold forInteger
  split <;> simp

theorem elementary_forRational : (c.forRational vals).Leaves Elementary := by
  unfold forRational
  split <;> simp

theorem elementary_forIntMod {n : Ty} : (c.forIntMod vals n).Leaves Elementary := by
  unfold forIntMod
  split <;> simp

theorem elementary_forSeq {n elem : Ty} : (c.forSeq vals n elem).Leaves Elementary := by
  unfold forSeq
  split <;> simp

theorem elementary_step (args : List Ty) : (c.step args).Leaves Elementary := by
  unfold step
  split
  · unfold instanceFor
    split
    · simp
    · simp
    · split
      · exact Verdict.leaves_reduced.mpr (List.forall_mem_map.mpr fun f _ => .cls c [f.2])
      · simp
    · split <;> simp
    · split <;> simp
    · exact elementary_forBit
    · exact elementary_forInteger
    · exact elementary_forRational
    · exact elementary_forIntMod
    · exact elementary_forSeq
    · simp
  · simp

end TyClass

namespace Simplify

theorem elementary_finStep (t : Ty) : (finStep t).Leaves Elementary := by
  have hcases := finStep_cases t
  generalize finStep t = v at hcases ⊢
  cases hcases with
  | value _ => split <;> simp
  | _ => simp

theorem elementary_step (p : Ty) : (step p).Leaves Elementary := by
  unfold step
  split
  · exact TyClass.elementary_step _
  · exact elementary_finStep _
  · exact leaves_compareStep _ _ _
  · exact leaves_primeStep _
  · simp
  · simp

/-! ## One turn of the loop -/

section loop

variable {A : Assumptions} {goal : Ty} {residual stack : List Ty}

theorem loop_of_entails (h : A.entails goal.normalize = true) :
    loop A residual (goal :: stack) = loop A residual stack := by
  rw [loop, if_pos h]

theorem loop_of_unsolvable (h : A.entails goal.normalize = false)
    (hstep : step goal.normalize = .unsolvable) :
    loop A residual (goal :: stack) = .error goal.normalize := by
  rw [loop, if_neg (Bool.eq_false_iff.mp h)]
  split
  · rfl
  · rename_i heq
    cases heq.symm.trans hstep
  · rename_i heq
    cases heq.symm.trans hstep

theorem loop_of_undecided (h : A.entails goal.normalize = false)
    (hstep : step goal.normalize = .undecided) :
    loop A residual (goal :: stack) = loop A (goal.normalize :: residual) stack := by
  rw [loop, if_neg (Bool.eq_false_iff.mp h)]
  split
  · rename_i heq
    cases heq.symm.trans hstep
  · rfl
  · rename_i heq
    cases heq.symm.trans hstep

theorem loop_of_reduced {subs : List Ty} (h : A.entails goal.normalize = false)
    (hstep : step goal.normalize = .reduced subs) :
    loop A residual (goal :: stack) = loop A residual (subs.reverse ++ stack) := by
  rw [loop, if_neg (Bool.eq_false_iff.mp h)]
  split
  · rename_i heq
    cases heq.symm.trans hstep
  · rename_i heq
    cases heq.symm.trans hstep
  · rename_i heq
    cases heq.symm.trans hstep
    rfl

end loop

/-! ## Inert predicates -/

/-- A predicate on which the simplifier has nothing to do under the assumptions. -/
structure Inert (A : Assumptions) (p : Ty) : Prop where
  normalized : p.normalize = p
  whole : p.isJunction = false
  unknown : A.entails p = false
  undecided : step p = .undecided

variable {A B : Assumptions}

theorem Inert.congr (h : ∀ p, A.entails p = B.entails p) {p : Ty} (hp : Inert A p) : Inert B p :=
  ⟨hp.normalized, hp.whole, (h p).symm.trans hp.unknown, hp.undecided⟩

/-- What the loop leaves is inert. -/
theorem inert_of_loop {residual stack out : List Ty} (h : loop A residual stack = .ok out)
    (hresidual : ∀ r ∈ residual, Inert A r) (hstack : ∀ p ∈ stack, p.isJunction = false) :
    ∀ r ∈ out, Inert A r := by
  revert h
  fun_induction loop A residual stack with
  | case1 residual =>
    intro h
    cases h
    exact hresidual
  | case2 residual goal stack p hentails ih =>
    exact ih hresidual fun q hq => hstack q (List.mem_cons_of_mem _ hq)
  | case3 residual goal stack p hentails hstep =>
    intro h
    cases h
  | case4 residual goal stack p hentails hstep ih =>
    have hgoal := hstack goal (List.mem_cons_self ..)
    have hp : Inert A p :=
      ⟨Ty.normalize_normalize goal, (Ty.isJunction_normalize goal).trans hgoal,
        Bool.eq_false_iff.mpr hentails, hstep⟩
    exact ih (List.forall_mem_cons.mpr ⟨hp, hresidual⟩) fun q hq =>
      hstack q (List.mem_cons_of_mem _ hq)
  | case5 residual goal stack p hentails subs hstep ih =>
    refine ih hresidual fun q hq => ?_
    rcases List.mem_append.mp hq with hq | hq
    · exact (elementary_step p subs hstep q (List.mem_reverse.mp hq)).isJunction
    · exact hstack q (List.mem_cons_of_mem _ hq)

/-- The loop sees the assumptions through what they entail. -/
theorem loop_congr (h : ∀ p, A.entails p = B.entails p) (residual stack : List Ty) :
    loop A residual stack = loop B residual stack := by
  fun_induction loop A residual stack with
  | case1 residual => rw [loop]
  | case2 residual goal stack p hentails ih =>
    rw [ih, loop_of_entails ((h p).symm.trans hentails)]
  | case3 residual goal stack p hentails hstep =>
    have hunknown := (h p).symm.trans (Bool.eq_false_iff.mpr hentails)
    rw [loop_of_unsolvable hunknown hstep]
  | case4 residual goal stack p hentails hstep ih =>
    have hunknown := (h p).symm.trans (Bool.eq_false_iff.mpr hentails)
    rw [ih, loop_of_undecided hunknown hstep]
  | case5 residual goal stack p hentails subs hstep ih =>
    have hunknown := (h p).symm.trans (Bool.eq_false_iff.mpr hentails)
    rw [ih, loop_of_reduced hunknown hstep]

end Simplify

open Simplify (Inert)

variable {A B : Assumptions}

theorem simplify_congr (h : ∀ p, A.entails p = B.entails p) (goal : Ty) :
    simplify goal A = simplify goal B := Simplify.loop_congr h _ _

/-- Everything that is left of a goal is inert. -/
theorem inert_of_simplify {goal : Ty} {residual : List Ty} (h : simplify goal A = .ok residual) :
    ∀ r ∈ residual, Inert A r :=
  Simplify.inert_of_loop h (fun _ hr => nomatch hr) fun _ hq =>
    Ty.isJunction_of_mem_conjuncts (List.mem_reverse.mp hq)

/-- An inert predicate is left as it is. -/
theorem Simplify.Inert.simplify {r : Ty} (h : Inert A r) : simplify r A = .ok [r] := by
  have hunknown : A.entails r.normalize = false := h.normalized.symm ▸ h.unknown
  have hundecided : step r.normalize = .undecided := h.normalized.symm ▸ h.undecided
  rw [SizedTypes.simplify, Ty.conjuncts_eq_self h.whole, List.reverse_singleton,
    loop_of_undecided hunknown hundecided, h.normalized, loop]

end SizedTypes
