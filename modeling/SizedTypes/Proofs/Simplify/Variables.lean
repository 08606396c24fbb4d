import SizedTypes.Proofs.Ty.Shape
import SizedTypes.Simplify
import SizedTypes.Simplify.Improve

/-!
# Variables under simplification

What simplifying leaves of a predicate is made of the predicate's parts, so a property that a type
passes on to its parts goes over. In particular simplifying brings in no variables. An equality that
forces a variable binds one of its own to a number.
-/

set_option autoImplicit false

namespace SizedTypes

namespace Ty

/-- All variables of a type satisfy `S`. -/
def Within (S : Int → Prop) (t : Ty) : Prop := ∀ i ∈ t.varIds, S i

variable {S : Int → Prop}

@[simp] theorem within_con {c : Con} {args : List Ty} :
    (con c args).Within S ↔ ∀ a ∈ args, a.Within S := by
  simp only [Within, varIds, vars, varsList_eq_flatMap, List.map_flatMap, List.mem_flatMap]
  exact ⟨fun h a ha i hi => h i ⟨a, ha, hi⟩, fun h i ⟨a, ha, hi⟩ => h a ha i hi⟩

@[simp] theorem within_record {fs : List (String × Ty)} :
    (record fs).Within S ↔ ∀ f ∈ fs, f.2.Within S := by
  simp only [Within, varIds, vars, varsFields_eq_flatMap, List.map_flatMap, List.mem_flatMap]
  exact ⟨fun h f hf i hi => h i ⟨f, hf, hi⟩, fun h i ⟨f, hf, hi⟩ => h f hf i hi⟩

@[simp] theorem within_expand {t : Ty} : t.expand.Within S ↔ t.Within S := by
  rw [Within, varIds_expand, Within]

theorem within_toTy (n : Size) : n.toTy.Within S := by
  cases n <;> simp [Size.toTy, num, inf]

theorem normalizeList_eq_map (ts : List Ty) : normalizeList ts = ts.map normalize := by
  induction ts with
  | nil => rfl
  | cons t ts ih => rw [normalizeList, ih, List.map_cons]

theorem normalizeFields_eq_map (fs : List (String × Ty)) :
    normalizeFields fs = fs.map fun f => (f.1, f.2.normalize) := by
  induction fs with
  | nil => rfl
  | cons f fs ih => rw [normalizeFields, ih, List.map_cons]

theorem Within.normalize {t : Ty} (h : t.Within S) : t.normalize.Within S := by
  induction t using Ty.induct with
  | free v => exact h
  | bound p => exact h
  | con c args ih =>
    rw [within_con] at h
    have hargs : ∀ a ∈ normalizeList args, a.Within S := by
      rw [normalizeList_eq_map]
      intro a ha
      obtain ⟨b, hb, rfl⟩ := List.mem_map.mp ha
      exact ih b hb (h b hb)
    cases c with
    | op f =>
      rw [Ty.normalize]
      split
      · exact within_toTy _
      · exact within_con.mpr hargs
    | _ => exact within_con.mpr hargs
  | record fs ih =>
    rw [within_record] at h
    rw [Ty.normalize, normalizeFields_eq_map, within_record]
    intro f hf
    obtain ⟨e, he, rfl⟩ := List.mem_map.mp hf
    exact ih e he (h e he)
  | synonym n args body _ ih => exact ih h
  | newtype n ps fs args ih =>
    have hargs : ∀ a ∈ args, a.Within S := within_con.mp (show (con .bit args).Within S from h)
    show (con .bit (normalizeList args)).Within S
    rw [within_con, normalizeList_eq_map]
    intro a ha
    obtain ⟨b, hb, rfl⟩ := List.mem_map.mp ha
    exact ih b hb (hargs b hb)

/-! ## Properties that a type passes on -/

end Ty

/-- Sizes without arguments. -/
def Con.isLiteral : Con → Bool
  | .num _ | .inf => true
  | _ => false

namespace Ty

variable {S : Int → Prop}

/-- A property that a type passes on to its parts, and that its parts pass on to a type whose
constructor is not a literal. -/
structure Inherited (P : Ty → Prop) : Prop where
  args {c : Con} {args : List Ty} : P (con c args) → ∀ a ∈ args, P a
  con {c : Con} {args : List Ty} : (c.isLiteral = true → args = []) → (∀ a ∈ args, P a) →
    P (con c args)
  fields {fs : List (String × Ty)} : P (record fs) → ∀ f ∈ fs, P f.2
  body {n : Name} {args : List Ty} {body : Ty} : P (synonym n args body) → P body
  normalize {t : Ty} : P t → P t.normalize

theorem inherited_within : Inherited (Within S) where
  args := within_con.mp
  con _ := within_con.mpr
  fields := within_record.mp
  body h := h
  normalize h := h.normalize

namespace Inherited

variable {P : Ty → Prop} (hP : Inherited P)

include hP

theorem expand {t : Ty} (h : P t) : P t.expand := by
  induction t using Ty.induct with
  | synonym n args body _ ih => exact ih (hP.body h)
  | _ => exact h

theorem num (n : Int) : P (num n) := hP.con (fun _ => rfl) fun _ ha => nomatch ha

theorem fin {n : Ty} (h : P n) : P (fin n) :=
  hP.con (fun hc => nomatch hc) (List.forall_mem_singleton.mpr h)

theorem prime {n : Ty} (h : P n) : P (prime n) :=
  hP.con (fun hc => nomatch hc) (List.forall_mem_singleton.mpr h)

theorem geq {a b : Ty} (ha : P a) (hb : P b) : P (geq a b) :=
  hP.con (fun hc => nomatch hc) (List.forall_mem_cons.mpr ⟨ha, List.forall_mem_singleton.mpr hb⟩)

theorem op {f : SizeOp} {args : List Ty} (h : ∀ a ∈ args, P a) : P (op f args) :=
  hP.con (fun hc => nomatch hc) h

theorem cls {c : TyClass} {args : List Ty} (h : ∀ a ∈ args, P a) : P (cls c args) :=
  hP.con (fun hc => nomatch hc) h

theorem asProp? {p : Ty} {c : PropCon} {args : List Ty} (hp : P p)
    (h : p.asProp? = some (c, args)) : ∀ a ∈ args, P a := by
  unfold Ty.asProp? at h
  split at h
  · rename_i hexp
    cases h
    exact hP.args (hexp ▸ hP.expand hp)
  · cases h

end Inherited
end Ty

/-! ## One step -/

/-- What a verdict leaves to prove has the property `P`. -/
def Verdict.Leaves (P : Ty → Prop) (v : Verdict) : Prop :=
  ∀ subs, v = .reduced subs → ∀ q ∈ subs, P q

namespace Verdict

variable {P : Ty → Prop}

@[simp] theorem leaves_undecided : Leaves P .undecided := fun _ h => nomatch h

@[simp] theorem leaves_unsolvable : Leaves P .unsolvable := fun _ h => nomatch h

@[simp] theorem leaves_reduced {subs : List Ty} : Leaves P (.reduced subs) ↔ ∀ q ∈ subs, P q :=
  ⟨fun h => h subs rfl, fun h _ heq => by cases heq; exact h⟩

@[simp] theorem leaves_holds : Leaves P .holds := by simp [holds]

end Verdict

variable {P : Ty → Prop}

namespace TyClass

variable {c : TyClass} {vals : List Ty}

theorem leaves_forBit (hP : Ty.Inherited P) (h : ∀ a ∈ vals, P a) : (c.forBit vals).Leaves P := by
  unfold forBit
  split <;> simp_all [hP.fin, hP.geq, hP.num]

theorem leaves_forInteger (hP : Ty.Inherited P) (h : ∀ a ∈ vals, P a) :
    (c.forInteger vals).Leaves P := by
  unfold forInteger
  split <;> simp_all [hP.fin]

theorem leaves_forRational (hP : Ty.Inherited P) (h : ∀ a ∈ vals, P a) :
    (c.forRational vals).Leaves P := by
  unfold forRational
  split <;> simp_all [hP.fin, hP.geq, hP.num]

theorem leaves_forIntMod (hP : Ty.Inherited P) {n : Ty} (h : ∀ a ∈ vals, P a) (hn : P n) :
    (c.forIntMod vals n).Leaves P := by
  unfold forIntMod
  split <;> simp_all [hP.fin, hP.geq, hP.num, hP.prime, hP.op]

theorem leaves_forSeq (hP : Ty.Inherited P) {n elem : Ty} (h : ∀ a ∈ vals, P a) (hn : P n)
    (helem : P elem) : (c.forSeq vals n elem).Leaves P := by
  unfold forSeq
  split <;> simp_all [hP.fin, hP.geq, hP.num, hP.cls, hP.op]

theorem leaves_instanceFor (hP : Ty.Inherited P) {t : Ty} (h : ∀ a ∈ vals, P a) (ht : P t) :
    (c.instanceFor vals t).Leaves P := by
  unfold instanceFor
  split
  · simp
  · simp
  · split
    · refine Verdict.leaves_reduced.mpr fun q hq => ?_
      obtain ⟨f, hf, rfl⟩ := List.mem_map.mp hq
      exact hP.cls (List.forall_mem_singleton.mpr (hP.fields ht f hf))
    · simp
  · split
    · refine Verdict.leaves_reduced.mpr fun q hq => ?_
      obtain ⟨a, ha, rfl⟩ := List.mem_map.mp hq
      exact hP.cls (List.forall_mem_singleton.mpr (hP.args ht a ha))
    · simp
  · have hargs := hP.args ht
    split
    · simp_all [hP.cls]
    · simp
  · exact leaves_forBit hP h
  · exact leaves_forInteger hP h
  · exact leaves_forRational hP h
  · exact leaves_forIntMod hP h (hP.args ht _ (by simp))
  · exact leaves_forSeq hP h (hP.args ht _ (by simp)) (hP.expand (hP.args ht _ (by simp)))
  · simp

theorem leaves_step (hP : Ty.Inherited P) {args : List Ty} (h : ∀ a ∈ args, P a) :
    (c.step args).Leaves P := by
  unfold step
  split
  · rename_i t ht
    refine leaves_instanceFor hP (fun a ha => h a (List.dropLast_subset _ ha)) ?_
    exact hP.expand (h t (List.mem_of_getLast? ht))
  · simp

end TyClass

namespace Simplify

open Ty

theorem leaves_finStep (hP : Inherited P) {t : Ty} (h : P t) : (finStep t).Leaves P := by
  have hargs : ∀ {c : Con} {args : List Ty}, t.expand = .con c args → ∀ a ∈ args, P a :=
    fun heq => hP.args (heq ▸ hP.expand h)
  have hcases := finStep_cases t
  generalize finStep t = v at hcases ⊢
  cases hcases with
  | value _ => split <;> simp
  | pair _ _ ht => simpa using ⟨hP.fin (hargs ht _ (by simp)), hP.fin (hargs ht _ (by simp))⟩
  | first _ _ ht => simpa using hP.fin (hargs ht _ (by simp))
  | undecided => simp

theorem leaves_compareStep (r : Comparison) (a b : Ty) : (compareStep r a b).Leaves P := by
  unfold compareStep
  split
  · simp
  · split <;> split <;> simp

theorem leaves_primeStep (t : Ty) : (primeStep t).Leaves P := by
  unfold primeStep
  split
  · split <;> simp
  · simp
  · simp

theorem leaves_step (hP : Inherited P) {p : Ty} (h : P p) : (step p).Leaves P := by
  unfold step
  split
  · rename_i hp
    exact TyClass.leaves_step hP (hP.asProp? h hp)
  · rename_i hp
    exact leaves_finStep hP (hP.asProp? h hp _ (by simp))
  · exact leaves_compareStep _ _ _
  · exact leaves_primeStep _
  · simp
  · simp

/-- The loop keeps to a property of the stack and of what is left already. -/
theorem loop_inherits (hP : Inherited P) {asmps : Assumptions} {residual stack out : List Ty}
    (h : loop asmps residual stack = .ok out) (hresidual : ∀ r ∈ residual, P r)
    (hstack : ∀ p ∈ stack, P p) : ∀ r ∈ out, P r := by
  revert h
  fun_induction loop asmps residual stack with
  | case1 residual =>
    intro h
    cases h
    exact hresidual
  | case2 residual goal stack p hentails ih =>
    exact ih hresidual fun q hq => hstack q (List.mem_cons_of_mem _ hq)
  | case3 residual goal stack p hentails hstep => exact fun h => nomatch h
  | case4 residual goal stack p hentails hstep ih =>
    have hp := hP.normalize (hstack goal (List.mem_cons_self ..))
    exact ih (List.forall_mem_cons.mpr ⟨hp, hresidual⟩) fun q hq =>
      hstack q (List.mem_cons_of_mem _ hq)
  | case5 residual goal stack p hentails subs hstep ih =>
    have hp := hP.normalize (hstack goal (List.mem_cons_self ..))
    refine ih hresidual fun q hq => ?_
    rcases List.mem_append.mp hq with hq | hq
    · exact leaves_step hP hp subs hstep q (List.mem_reverse.mp hq)
    · exact hstack q (List.mem_cons_of_mem _ hq)

theorem conjuncts_inherit (hP : Inherited P) {p : Ty} (h : P p) : ∀ q ∈ p.conjuncts, P q := by
  induction p using Ty.induct with
  | con c args ih =>
    have hargs := hP.args h
    have hlist : ∀ ts : List Ty, (∀ a ∈ ts, a ∈ args) → ∀ q ∈ conjunctsList ts, P q := by
      intro ts hts
      induction ts with
      | nil => exact fun _ hq => nomatch hq
      | cons t ts ihts =>
        intro q hq
        have ht := hts t (List.mem_cons_self ..)
        rcases List.mem_append.mp hq with hq | hq
        · exact ih t ht (hargs t ht) q hq
        · exact ihts (fun a ha => hts a (List.mem_cons_of_mem _ ha)) q hq
    unfold conjuncts
    split
    · rename_i heq
      cases heq
      exact hlist args fun _ ha => ha
    · exact fun _ hq => nomatch hq
    · rename_i heq
      cases heq
    · exact List.forall_mem_singleton.mpr h
  | synonym n args body _ ih =>
    unfold conjuncts
    split
    · exact ih (hP.body h)
    · exact List.forall_mem_singleton.mpr h
  | _ => exact List.forall_mem_singleton.mpr h

end Simplify

/-- What simplifying leaves has the properties that the goal passes on. -/
theorem simplify_inherits (hP : Ty.Inherited P) {goal : Ty} {asmps : Assumptions}
    {residual : List Ty} (h : simplify goal asmps = .ok residual) (hgoal : P goal) :
    ∀ r ∈ residual, P r := by
  refine Simplify.loop_inherits hP h (fun _ hr => nomatch hr) fun q hq => ?_
  exact Simplify.conjuncts_inherit hP hgoal q (List.mem_reverse.mp hq)

/-- Simplifying brings in no variables. -/
theorem within_simplify {S : Int → Prop} {goal : Ty} {asmps : Assumptions} {residual : List Ty}
    (h : simplify goal asmps = .ok residual) (hgoal : goal.Within S) :
    ∀ r ∈ residual, r.Within S := simplify_inherits Ty.inherited_within h hgoal

/-! ## Improvement -/

namespace Improve

/-- The variable is one of the type's, and its value is a number. -/
theorem invert_spec {t u : Ty} {n : Int} {v : TyVar} (h : invert t n = some (v, u)) :
    v.id ∈ t.varIds ∧ ∃ m : Int, u = .num m := by
  have hpart : ∀ {c : Con} {args : List Ty} {a : Ty}, a ∈ args → v.id ∈ a.varIds →
      v.id ∈ (Ty.con c args).varIds := by
    intro c args a ha hv
    rw [Ty.varIds, Ty.vars, Ty.varsList_eq_flatMap, List.map_flatMap]
    exact List.mem_flatMap.mpr ⟨a, ha, hv⟩
  fun_induction invert t n with
  | case1 w n =>
    cases h
    exact ⟨List.mem_singleton_self _, n, rfl⟩
  | case2 _ _ body n ih => exact ih h
  | _ => grind

theorem against_spec {t u : Ty} {n : Option Size} {v : TyVar} (h : against t n = some (v, u)) :
    v.id ∈ t.varIds ∧ ∃ m : Size, u = m.toTy := by
  cases n with
  | none => cases h
  | some n =>
    cases hfree : t.asFree? with
    | some w =>
      simp only [against, hfree, Option.some.injEq, Prod.mk.injEq] at h
      obtain ⟨rfl, rfl⟩ := h
      refine ⟨?_, n, rfl⟩
      unfold Ty.asFree? at hfree
      split at hfree
      · rename_i hexp
        cases hfree
        rw [← Ty.varIds_expand, hexp]
        exact List.mem_singleton_self _
      · cases hfree
    | none =>
      cases n with
      | inf => simp [against, hfree] at h
      | finite m =>
        simp only [against, hfree] at h
        obtain ⟨hv, k, rfl⟩ := invert_spec h
        exact ⟨hv, .finite k, rfl⟩

end Improve

/-- An equality that forces a variable binds one of its own to a size. -/
theorem improve_spec {p u : Ty} {v : TyVar} (h : improve p = some (v, u)) :
    v.id ∈ p.varIds ∧ ∃ m : Size, u = m.toTy := by
  unfold improve at h
  split at h
  · rename_i a b hab
    have hsides : ∀ t ∈ [a, b], t.Within (· ∈ p.varIds) := by
      unfold Ty.asCompare? at hab
      split at hab
      · rename_i hp
        have hargs := Ty.inherited_within.asProp? (fun _ hi => hi) hp
        split at hab
        · cases hab
          simpa using ⟨hargs a (by simp), hargs b (by simp)⟩
        · cases hab
      · cases hab
    rcases Option.or_eq_some_iff.mp h with h | ⟨-, h⟩
    · obtain ⟨hv, hu⟩ := Improve.against_spec h
      exact ⟨hsides a (by simp) _ hv, hu⟩
    · obtain ⟨hv, hu⟩ := Improve.against_spec h
      exact ⟨hsides b (by simp) _ hv, hu⟩
  · cases h

end SizedTypes
