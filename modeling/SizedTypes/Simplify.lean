import SizedTypes.Simplify.Instances
import SizedTypes.Ty.Lemmas
import SizedTypes.Ty.Measure

/-!
# Simplifying predicates

A goal is taken apart until every part holds, is refuted or cannot be decided here. What is left
undecided is equivalent to the goal under the assumptions. The work ends because the parts of a
goal weigh less than the goal.
-/

set_option autoImplicit false

namespace SizedTypes

/-! ## Assumptions -/

/-- Predicates known to hold, closed under what follows directly from each of them. -/
structure Assumptions where
  props : List Ty := []
deriving Inhabited, Repr

namespace Assumptions

/-- Assume more. -/
def add (a : Assumptions) (ps : List Ty) : Assumptions :=
  ⟨a.props ++ (Ty.conjunctsList ps).flatMap fun p => p.normalize.implied⟩

def ofList (ps : List Ty) : Assumptions := Assumptions.add {} ps

/-- `x >= m` follows from `x >= n` where `n` is at least `m`. -/
def weakens (p q : Ty) : Bool :=
  match p.asCompare? .geq, q.asCompare? .geq with
  | some (x, m), some (y, n) =>
    x.same y && match m.eval, n.eval with
      | some m, some n => n.geq m
      | _, _ => false
  | _, _ => false

/-- Whether a predicate follows from one of the assumptions. -/
def entails (a : Assumptions) (p : Ty) : Bool := a.props.any fun q => p.same q || weakens p q

end Assumptions

/-- Finite if both arguments are. -/
def SizeOp.isFinPair : SizeOp → Bool
  | .add | .mul | .max => true
  | _ => false

/-- Finite exactly if the first argument is. -/
def SizeOp.isFinFirst : SizeOp → Bool
  | .width | .div | .mod | .ceilDiv | .ceilMod | .sub => true
  | _ => false

namespace Simplify

open Ty

/-! ## One step -/

/-- A size is finite if it is a number, or built from finite sizes. -/
def finStep (t : Ty) : Verdict :=
  match t.eval with
  | some n => if n.isFinite then .holds else .unsolvable
  | none => match t.expand with
    | .con (.op .add) (a :: b :: _) | .con (.op .mul) (a :: b :: _)
    | .con (.op .max) (a :: b :: _) => .reduced [fin a, fin b]
    | .con (.op .width) (a :: _) | .con (.op .div) (a :: _) | .con (.op .mod) (a :: _)
    | .con (.op .ceilDiv) (a :: _) | .con (.op .ceilMod) (a :: _)
    | .con (.op .sub) (a :: _) => .reduced [fin a]
    | _ => .undecided

/-- What one step does with the finiteness of `t`. -/
inductive FinStep (t : Ty) : Verdict → Prop
  | value {n : Size} (h : t.eval = some n) : FinStep t (if n.isFinite then .holds else .unsolvable)
  | pair {f : SizeOp} {a b : Ty} {args : List Ty} (hf : f.isFinPair = true) (h : t.eval = none)
    (ht : t.expand = .con (.op f) (a :: b :: args)) : FinStep t (.reduced [fin a, fin b])
  | first {f : SizeOp} {a : Ty} {args : List Ty} (hf : f.isFinFirst = true) (h : t.eval = none)
    (ht : t.expand = .con (.op f) (a :: args)) : FinStep t (.reduced [fin a])
  | undecided : FinStep t .undecided

theorem finStep_cases (t : Ty) : FinStep t (finStep t) := by
  unfold finStep
  split
  · exact .value ‹_›
  · split
    · exact .pair (f := .add) rfl ‹_› ‹_›
    · exact .pair (f := .mul) rfl ‹_› ‹_›
    · exact .pair (f := .max) rfl ‹_› ‹_›
    · exact .first (f := .width) rfl ‹_› ‹_›
    · exact .first (f := .div) rfl ‹_› ‹_›
    · exact .first (f := .mod) rfl ‹_› ‹_›
    · exact .first (f := .ceilDiv) rfl ‹_› ‹_›
    · exact .first (f := .ceilMod) rfl ‹_› ‹_›
    · exact .first (f := .sub) rfl ‹_› ‹_›
    · exact .undecided

/-- Whether two values compare as required. -/
def compareSizes : Comparison → Size → Size → Bool
  | .equal, a, b => decide (a = b)
  | .neq, a, b => decide (a ≠ b)
  | .geq, a, b => a.geq b

/-- `a >= b` holds whatever the other side is. -/
def geqOneSided (a b : Option Size) : Bool :=
  decide (b = some (.finite 0)) || decide (a = some .inf)

def compareStep (r : Comparison) (a b : Ty) : Verdict :=
  if r ≠ .neq ∧ a.same b then .holds
  else match a.eval, b.eval with
    | some m, some n => if compareSizes r m n then .holds else .unsolvable
    | m, n => if r = .geq ∧ geqOneSided m n then .holds else .undecided

def primeStep (t : Ty) : Verdict :=
  match t.eval with
  | some (.finite n) => if isPrime n then .holds else .unsolvable
  | some .inf => .unsolvable
  | none => .undecided

/-- Simplify a predicate once. -/
def step (p : Ty) : Verdict :=
  match p.asProp? with
  | some (.cls c, args) => c.step args
  | some (.fin, n :: _) => finStep n
  | some (.compare r, a :: b :: _) => compareStep r a b
  | some (.prime, n :: _) => primeStep n
  | some (.trivial, _) => .holds
  | _ => .undecided

/-! ## The weight of a goal -/

/-- A bound on the number of steps that a goal and its parts take. -/
def weight (p : Ty) : Nat :=
  match p.asProp? with
  | some (.cls _, args) => max 1 (4 * sizeList args)
  | some (.fin, args) => 2 * sizeList args + 1
  | _ => 1

def weights : List Ty → Nat
  | [] => 0
  | p :: ps => weight p + weights ps

theorem weights_nil : weights [] = 0 := rfl

theorem weights_cons (p : Ty) (ps : List Ty) : weights (p :: ps) = weight p + weights ps := rfl

theorem weights_append (ps qs : List Ty) : weights (ps ++ qs) = weights ps + weights qs := by
  induction ps with
  | nil => simp [weights]
  | cons p ps ih =>
    rw [List.cons_append, weights_cons, weights_cons, ih]
    omega

theorem weights_reverse (ps : List Ty) : weights ps.reverse = weights ps := by
  induction ps with
  | nil => rfl
  | cons p ps ih =>
    rw [List.reverse_cons, weights_append, ih, weights_cons, weights_cons, weights_nil]
    omega

theorem weight_pos (p : Ty) : 0 < weight p := by
  unfold weight
  split <;> omega

theorem weight_fin (n : Ty) : weight (fin n) = 2 * n.size + 1 := by
  simp [weight, fin, asProp?, expand, sizeList]

theorem weight_geq (a b : Ty) : weight (geq a b) = 1 := rfl

theorem weight_prime (n : Ty) : weight (prime n) = 1 := rfl

theorem weight_cls (c : TyClass) (t : Ty) : weight (cls c [t]) = 4 * t.size := by
  have := t.size_pos
  simp only [weight, cls, asProp?, expand, sizeList]
  omega

theorem weight_normalize_le (p : Ty) : weight p.normalize ≤ weight p := by
  unfold weight
  rw [asProp?_normalize]
  cases p.asProp? with
  | none => simp
  | some e =>
    obtain ⟨c, args⟩ := e
    have := sizeList_normalize_le args
    cases c <;> simp only [Option.map_some] <;> omega

theorem weights_map_cls (c : TyClass) (ts : List Ty) :
    weights (ts.map fun t => cls c [t]) = 4 * sizeList ts := by
  induction ts with
  | nil => rfl
  | cons t ts ih =>
    rw [List.map_cons, weights_cons, weight_cls, ih]
    simp only [sizeList]
    omega

theorem weights_map_fields (c : TyClass) (fs : List (String × Ty)) :
    weights (fs.map fun f => cls c [f.2]) = 4 * sizeFields fs := by
  induction fs with
  | nil => rfl
  | cons f fs ih =>
    rw [List.map_cons, weights_cons, weight_cls, ih]
    simp only [sizeFields]
    omega

/-! Reduced class predicates weigh less than four times the arguments of the class. -/

theorem weights_forBit {c : TyClass} {vals subs : List Ty} (h : c.forBit vals = .reduced subs) :
    weights subs < 4 * (sizeList vals + 1) := by
  unfold TyClass.forBit at h
  split at h <;> cases h <;>
    simp only [weights_nil, weights_cons, weight_fin, weight_geq, sizeList] <;> omega

theorem weights_forInteger {c : TyClass} {vals subs : List Ty}
    (h : c.forInteger vals = .reduced subs) : weights subs < 4 * (sizeList vals + 1) := by
  unfold TyClass.forInteger at h
  split at h <;> cases h <;>
    simp only [weights_nil, weights_cons, weight_fin, sizeList] <;> omega

theorem weights_forRational {c : TyClass} {vals subs : List Ty}
    (h : c.forRational vals = .reduced subs) : weights subs < 4 * (sizeList vals + 1) := by
  unfold TyClass.forRational at h
  split at h <;> cases h <;>
    simp only [weights_nil, weights_cons, weight_fin, weight_geq, sizeList] <;> omega

theorem weights_forIntMod {c : TyClass} {vals subs : List Ty} {n : Ty}
    (h : c.forIntMod vals n = .reduced subs) : weights subs < 4 * (sizeList vals + 1 + n.size) := by
  unfold TyClass.forIntMod at h
  split at h <;> cases h <;>
    simp only [weights_nil, weights_cons, weight_fin, weight_geq, weight_prime, sizeList] <;> omega

theorem weights_forSeq {c : TyClass} {vals subs : List Ty} {n a : Ty}
    (h : c.forSeq vals n a = .reduced subs) :
    weights subs < 4 * (sizeList vals + 1 + n.size + a.size) := by
  unfold TyClass.forSeq at h
  split at h <;> cases h <;>
    simp only [weights_nil, weights_cons, weight_fin, weight_geq, weight_cls, sizeList] <;> omega

theorem weights_instanceFor {c : TyClass} {vals subs : List Ty} {t : Ty}
    (h : c.instanceFor vals t = .reduced subs) : weights subs < 4 * (sizeList vals + t.size) := by
  unfold TyClass.instanceFor at h
  split at h
  · simp at h
  · simp at h
  · split at h
    · cases h
      rw [weights_map_fields]
      simp only [size]
      omega
    · simp at h
  · split at h
    · cases h
      rw [weights_map_cls]
      simp only [size]
      omega
    · simp at h
  · split at h
    · cases h
      simp only [weights_cons, weights_nil, weight_cls, size, sizeList]
      omega
    · simp at h
  · have := weights_forBit h
    simp only [size]
    omega
  · have := weights_forInteger h
    simp only [size]
    omega
  · have := weights_forRational h
    simp only [size]
    omega
  · have := weights_forIntMod h
    simp only [size, sizeList]
    omega
  · rename_i a _
    have := weights_forSeq h
    have := a.size_expand_le
    simp only [size, sizeList]
    omega
  · simp at h

theorem weights_step {c : TyClass} {args subs : List Ty} (h : c.step args = .reduced subs) :
    weights subs < 4 * sizeList args := by
  unfold TyClass.step at h
  split at h
  · rename_i t ht
    have hw := weights_instanceFor h
    have := t.size_expand_le
    have hargs : sizeList args = sizeList args.dropLast + t.size := by
      obtain ⟨hne, rfl⟩ := List.getLast?_eq_some_iff.mp ht
      simp [sizeList_append, sizeList]
    omega
  · simp at h

theorem weights_finStep {t : Ty} {subs : List Ty} (h : finStep t = .reduced subs) :
    weights subs < 2 * t.size + 1 := by
  have hs := t.size_expand_le
  have hcases := finStep_cases t
  rw [h] at hcases
  generalize hv : Verdict.reduced subs = v at hcases
  cases hcases with
  | @value n _ =>
    split at hv
    · cases hv
      simp only [weights_nil]
      omega
    · cases hv
  | pair _ _ ht =>
    cases hv
    simp only [ht, size, sizeList] at hs
    simp only [weights_cons, weights_nil, weight_fin]
    omega
  | first _ _ ht =>
    cases hv
    simp only [ht, size, sizeList] at hs
    simp only [weights_cons, weights_nil, weight_fin]
    omega
  | undecided => cases hv

theorem weights_lt_weight {p : Ty} {subs : List Ty} (h : step p = .reduced subs) :
    weights subs < weight p := by
  have hp := weight_pos p
  have hholds : ∀ {v : Verdict}, v = .holds → v = .reduced subs → weights subs < weight p := by
    intro v hv hr
    cases hv.symm.trans hr
    exact hp
  unfold step at h
  split at h
  · rename_i c args hc
    have := weights_step h
    simp only [weight, hc]
    omega
  · rename_i n rest hc
    have := weights_finStep h
    simp only [weight, hc, sizeList]
    omega
  · unfold compareStep at h
    split at h
    · exact hholds rfl h
    · split at h <;> split at h <;> grind
  · unfold primeStep at h
    split at h
    · split at h
      · exact hholds rfl h
      · simp at h
    · simp at h
    · simp at h
  · exact hholds rfl h
  · simp at h

/-! ## The loop -/

/-- Simplify the goals on the stack, the top first. `residual` holds what could not be decided;
the goal that is refuted, if there is one, is the result on the left. -/
def loop (asmps : Assumptions) (residual : List Ty) : List Ty → Except Ty (List Ty)
  | [] => .ok residual
  | goal :: stack =>
    let p := goal.normalize
    if asmps.entails p then loop asmps residual stack
    else match _h : step p with
      | .unsolvable => .error p
      | .undecided => loop asmps (p :: residual) stack
      | .reduced subs => loop asmps residual (subs.reverse ++ stack)
termination_by stack => weights stack
decreasing_by
  · have := weight_pos goal
    rw [weights_cons]
    omega
  · have := weight_pos goal
    rw [weights_cons]
    omega
  · have : weights subs < weight goal.normalize := weights_lt_weight _h
    have := weight_normalize_le goal
    rw [weights_append, weights_reverse, weights_cons]
    omega

end Simplify

/-- Simplify a goal under assumptions. The result is what is left to prove, in the order of the
goal, or the part of the goal that can never hold. -/
def simplify (goal : Ty) (asmps : Assumptions) : Except Ty (List Ty) :=
  Simplify.loop asmps [] goal.conjuncts.reverse

end SizedTypes
