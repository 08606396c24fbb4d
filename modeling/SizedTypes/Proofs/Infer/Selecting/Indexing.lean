import SizedTypes.Proofs.Infer.Goals.Rounds
import SizedTypes.Proofs.Infer.Selecting
import SizedTypes.Proofs.Simplify.Decided

/-!
# Picking an element of a sequence

An element is picked by its index. The goals for that say that the sequence is finite and longer than
the index, and where the length is known they are discharged or refuted at once. So a selection is
accepted exactly if the index is within the sequence, but for the largest index, whose successor is
negative.
-/

set_option autoImplicit false

namespace SizedTypes

namespace Ty

theorem expand_bind_of_con (f : TyVar → Ty) (g : Param → Ty) {c : Con} :
    ∀ {t : Ty}, t.expand = con c [] → (t.bind f g).expand = con c []
  | con _ _, h => by
    cases h
    rfl
  | synonym _ _ body, h => expand_bind_of_con f g (t := body) h
  | free _, h | bound _, h | record _, h | newtype _ _ _ _, h => nomatch h

end Ty

/-- Where a length is a literal or `inf`, it stays one under a substitution. -/
theorem Subst.eval_apply_of_expand (θ : Subst) {n : Ty} {m : Size} (h : n.expand = m.toTy) :
    (θ.apply n).eval = some m := by
  rw [apply_eq_bind, ← Ty.eval_expand]
  cases m with
  | finite k => rw [Ty.expand_bind_of_con _ _ h]; rfl
  | inf => rw [Ty.expand_bind_of_con _ _ h]; rfl

namespace Infer

variable {c : Context} {s s' : State} {g : SelectorGoal} {v : TyVar} {n a : Ty} {m : Size} {i : Int}

theorem returns_unifyFrom_takes (h : s.subst.Takes v a) (src : GoalSource) (source : TypeSource) :
    ∃ θ, Returns (unifyFrom src ⟨.free v, source⟩ a) c s ⟨⟩ { s with subst := θ } := by
  obtain ⟨x, u, hext, hunify⟩ := h.exists_unify
  refine ⟨s.subst.bindVar x u, ?_⟩
  unfold unifyFrom
  rw [returns_get_bind]
  simp only [Subst.apply_free_of_unbound h.unbound, h.apply, hunify]
  unfold mergeSubst
  simp only [bind_assoc, returns_get_bind, hext.merge]
  rfl

/-! ## Goals about closed sizes -/

/-- The state with more errors. -/
def State.withErrors (s : State) (es : List Diagnostic) : State :=
  { s with errors := s.errors ++ es }

theorem State.withErrors_nil (s : State) : s.withErrors [] = s := by
  rw [withErrors, List.append_nil]

theorem State.withErrors_withErrors (s : State) (es es' : List Diagnostic) :
    (s.withErrors es).withErrors es' = s.withErrors (es ++ es') := by
  simp [withErrors]

/-- What is true is discharged, and what is false is an error. -/
theorem exists_simplifyGoal_of_decided {goal : Goal} {b : Bool}
    (h : (s.subst.apply goal.prop).Decided b) (hA : s.assumptions.Unrefuted) :
    ∃ es, Returns (simplifyGoal goal) c s ([], false) (s.withErrors es) ∧
      (es = [] ↔ b = true) := by
  have hsimplify := h.simplify hA
  cases b with
  | true =>
    refine ⟨[], (returns_simplifyGoal_of_ok hsimplify).mpr ⟨rfl, ?_⟩, by simp⟩
    rw [State.withErrors_nil]
    rfl
  | false =>
    exact ⟨[_], (returns_simplifyGoal_of_error hsimplify).mpr ⟨rfl, rfl⟩, by simp⟩

theorem exists_simplifyPass_of_decided {gs : List Goal}
    (h : ∀ g ∈ gs, ∃ b, (s.subst.apply g.prop).Decided b) (hA : s.assumptions.Unrefuted) :
    ∃ es, Returns (simplifyPass gs) c s ([], false) (s.withErrors es) ∧
      (es = [] ↔ ∀ g ∈ gs, (s.subst.apply g.prop).Decided true) := by
  induction gs generalizing s with
  | nil => exact ⟨[], returns_pure.mpr ⟨rfl, s.withErrors_nil⟩, by simp⟩
  | cons g gs ih =>
    obtain ⟨⟨b, hg⟩, hgs⟩ := List.forall_mem_cons.mp h
    obtain ⟨es, hfirst, hes⟩ := exists_simplifyGoal_of_decided (c := c) hg hA
    obtain ⟨es', hrest, hes'⟩ := ih (s := s.withErrors es) hgs hA
    refine ⟨es ++ es', ?_, ?_⟩
    · rw [State.withErrors_withErrors] at hrest
      exact returns_bind.mpr ⟨_, _, hfirst, returns_bind.mpr ⟨_, _, hrest, returns_pure.mpr ⟨rfl, rfl⟩⟩⟩
    · have hhead : b = true ↔ (s.subst.apply g.prop).Decided true :=
        ⟨fun hb => hb ▸ hg, fun ht => hg.unique ht⟩
      rw [List.append_eq_nil_iff, hes, hes', hhead, List.forall_mem_cons]
      rfl

/-- Goals about closed sizes are settled in one pass. There is no error if all of them are true. -/
theorem exists_simplifyGoals_of_decided {gs : List Goal}
    (h : ∀ g ∈ gs, ∃ b, (s.subst.apply g.prop).Decided b) (hA : s.assumptions.Unrefuted) :
    ∃ es, Returns (simplifyGoals gs) c s [] (s.withErrors es) ∧
      (es = [] ↔ ∀ g ∈ gs, (s.subst.apply g.prop).Decided true) := by
  obtain ⟨es, hpass, hes⟩ := exists_simplifyPass_of_decided (c := c) h hA
  exact ⟨es, returns_get_bind.mpr (returns_simplifyPasses_of_last hpass), hes⟩

/-! ## Picking -/

end Infer

/-- A goal for the element at index `i` of a sequence of length `m`. Its variable is not bound and
can stand for the type of the elements. -/
structure SelectorGoal.Picks (g : SelectorGoal) (i : Int) (m : Size) (v : TyVar)
    (s : Infer.State) : Prop where
  sel : g.sel = .element i
  field : g.field = .free v
  sequence : ∃ n a, (s.subst.apply g.record).expand = .con .seq [n, a] ∧ n.expand = m.toTy ∧
    s.subst.Takes v a

namespace Infer

variable {c : Context} {s : State} {g : SelectorGoal} {v : TyVar} {a : Ty} {m : Size} {i : Int}

/-- The state after an element has been picked, with the goals for that. -/
def State.pickedElement (s : State) (r : Range) (g : SelectorGoal) (i : Int) (n : Ty) (θ : Subst) :
    State :=
  { s with
    subst := θ
    goals := s.goals ++ [⟨.selector, r, .fin n⟩, ⟨.selector, r, .geq n (.num (Word.next i))⟩]
    solutions := s.solutions.insert g.id (.direct (.element i) (s.subst.apply g.record)) }

theorem returns_addGoals_element (n : Ty) (i : Int) :
    Returns (addGoals .selector (componentGoals (.element i) (.con .seq [n, a]))) c s ⟨⟩
      { s with goals := s.goals ++
          [⟨.selector, c.range, .fin n⟩, ⟨.selector, c.range, .geq n (.num (Word.next i))⟩] } :=
  returns_addGoals_of_plain (plain_componentGoals (.element i) (.con .seq [n, a]))

theorem exists_solveSelector_of_picks (h : g.Picks i m v s) :
    ∃ n θ, n.expand = m.toTy ∧
      Returns (solveSelector g) c s true (s.pickedElement (g.range.orElse c.range) g i n θ) := by
  obtain ⟨n, a, hrecord, hn, htakes⟩ := h.sequence
  obtain ⟨θ, hunify⟩ := returns_unifyFrom_takes
    (c := { c with range := g.range.orElse c.range }) htakes .selector (.recordField g.sel.text)
  refine ⟨n, θ, hn, ?_⟩
  unfold solveSelector applied
  simp only [bind_assoc, returns_get_bind, pure_bind]
  rw [hrecord]
  refine returns_bind.mpr ⟨⟨⟩, _, ?_, returns_pure.mpr ⟨rfl, rfl⟩⟩
  unfold solveSelectorAt
  rw [hrecord, h.sel, h.field]
  rw [h.sel] at hunify
  refine returns_bind.mpr ⟨⟨⟩, _, hunify, ?_⟩
  exact returns_bind.mpr ⟨⟨⟩, _, returns_addGoals_element n i, rfl⟩

/-- The bounds check, by the word for the successor of the index. -/
theorem withinBounds_iff (hi : 0 ≤ i) (hmax : i ≤ Word.maxValue)
    (hlen : ∀ k, m = .finite k → 0 ≤ k) :
    (m.isFinite = true ∧ m.geq (.finite (Word.next i)) = true) ↔
      ∃ k, m = .finite k ∧ (i < k ∨ i = Word.maxValue) := by
  cases m with
  | inf => simp [Size.isFinite]
  | finite k =>
    have hk : 0 ≤ k := hlen k rfl
    have hgeq : (Size.finite k).geq (.finite (Word.next i)) = true ↔ Word.next i ≤ k := by
      simp [Size.geq]
    simp only [Size.isFinite, true_and, hgeq, Size.finite.injEq, exists_eq_left']
    rcases hmax.lt_or_eq with hlt | rfl
    · have hnext : Word.next i = i + 1 :=
        Word.wrap_eq_self ⟨by omega, by unfold Word.maxValue at *; omega⟩
      rw [hnext]
      omega
    · -- the successor of the largest index wraps around
      have hnext : Word.next Word.maxValue = -9223372036854775808 := by decide
      exact iff_of_true (by omega) (Or.inr rfl)

/-- The goal is solved, and its goals are settled. There is no error if the length passes the
bounds check. -/
theorem exists_pickElement (h : g.Picks i m v s) (hA : s.assumptions.Unrefuted) :
    ∃ s₁ gs s₂, Returns (solveSelector g) c s true s₁ ∧ s₁.goals = s.goals ++ gs ∧
      Returns (simplifyGoals gs) c s₁ [] s₂ ∧
      (s₂.errors = s.errors ↔ m.isFinite = true ∧ m.geq (.finite (Word.next i)) = true) := by
  obtain ⟨n, θ, hn, hsolve⟩ := exists_solveSelector_of_picks (c := c) h
  have heval : (θ.apply n).eval = some m := θ.eval_apply_of_expand hn
  have hfin : (θ.apply (.fin n)).Decided m.isFinite := by
    rw [Ty.fin, Subst.apply_con]
    exact .fin rfl heval
  have hgeq : (θ.apply (.geq n (.num (Word.next i)))).Decided (m.geq (.finite (Word.next i))) := by
    rw [Ty.geq, Ty.compare, Subst.apply_con]
    exact .compare (r := .geq) rfl heval (θ.eval_apply_of_expand (m := .finite _) rfl)
  have hgoals : ∀ g' ∈ [(⟨.selector, g.range.orElse c.range, .fin n⟩ : Goal),
      ⟨.selector, g.range.orElse c.range, .geq n (.num (Word.next i))⟩],
      ∃ b, (θ.apply g'.prop).Decided b :=
    List.forall_mem_cons.mpr ⟨⟨_, hfin⟩, List.forall_mem_singleton.mpr ⟨_, hgeq⟩⟩
  obtain ⟨es, hsimplify, hes⟩ := exists_simplifyGoals_of_decided (c := c)
    (s := s.pickedElement (g.range.orElse c.range) g i n θ) hgoals hA
  refine ⟨_, _, _, hsolve, rfl, hsimplify, ?_⟩
  have herrors : ∀ es' : List Diagnostic, s.errors ++ es' = s.errors ↔ es' = [] := by simp
  refine (herrors es).trans (hes.trans ?_)
  rw [List.forall_mem_cons, List.forall_mem_singleton]
  constructor
  · rintro ⟨hf, hg⟩
    exact ⟨hfin.unique hf, hgeq.unique hg⟩
  · rintro ⟨hf, hg⟩
    rw [hf] at hfin
    rw [hg] at hgeq
    exact ⟨hfin, hgeq⟩

/-- An element is picked without an error, and nothing is left to prove, exactly if the sequence is
finite and longer than the index. The largest index is the exception: it is within every finite
sequence, as its successor is negative. -/
theorem pickElement_accepted_iff (hi : 0 ≤ i) (hmax : i ≤ Word.maxValue)
    (hlen : ∀ k, m = .finite k → 0 ≤ k) (h : g.Picks i m v s) (hA : s.assumptions.Unrefuted) :
    ∃ s₁ gs s₂, Returns (solveSelector g) c s true s₁ ∧ s₁.goals = s.goals ++ gs ∧
      Returns (simplifyGoals gs) c s₁ [] s₂ ∧
      (s₂.errors = s.errors ↔ ∃ k, m = .finite k ∧ (i < k ∨ i = Word.maxValue)) := by
  obtain ⟨s₁, gs, s₂, hsolve, hgoals, hsimplify, herrors⟩ := exists_pickElement (c := c) h hA
  exact ⟨s₁, gs, s₂, hsolve, hgoals, hsimplify, herrors.trans (withinBounds_iff hi hmax hlen)⟩

/-! ## Sequences of three elements -/

/-- A goal for an element of a sequence of three elements of a type that is not known yet. -/
def elementOfThree (i : Int) : SelectorGoal :=
  ⟨0, .empty, .element i, .seq (.num 3) (.free { id := 1, kind := .type }),
    .free { id := 2, kind := .type }⟩

def selectingContext : Context :=
  { options := {}, solver := Solver.localRules, range := .empty, prims := [], external := {} }

theorem picks_elementOfThree (i : Int) :
    (elementOfThree i).Picks i (.finite 3) { id := 2, kind := .type } default where
  sel := rfl
  field := rfl
  sequence := by
    refine ⟨.num 3, .free { id := 1, kind := .type }, rfl, rfl, rfl, rfl, fun j hj => ?_, ?_⟩
    · obtain rfl : j = 1 := List.mem_singleton.mp hj
      exact ⟨rfl, by decide⟩
    · exact List.forall_mem_nil _

/-- Nothing is assumed, so nothing is refuted. -/
theorem unrefuted_default : (default : State).assumptions.Unrefuted := fun _ h => nomatch h

/-- The last element is accepted, and the one after it is not. -/
theorem pickElement_accepted_iff_three :
    (∃ s₁ gs s₂, Returns (solveSelector (elementOfThree 2)) selectingContext default true s₁ ∧
      s₁.goals = gs ∧ Returns (simplifyGoals gs) selectingContext s₁ [] s₂ ∧ s₂.errors = []) ∧
    ∃ s₁ gs s₂, Returns (solveSelector (elementOfThree 3)) selectingContext default true s₁ ∧
      s₁.goals = gs ∧ Returns (simplifyGoals gs) selectingContext s₁ [] s₂ ∧ s₂.errors ≠ [] := by
  have hlen : ∀ k, Size.finite 3 = .finite k → 0 ≤ k := by
    rintro k ⟨⟩
    decide
  constructor
  · obtain ⟨s₁, gs, s₂, hsolve, hgoals, hsimplify, herrors⟩ :=
      pickElement_accepted_iff (c := selectingContext) (i := 2) (by decide) (by decide) hlen
        (picks_elementOfThree 2) unrefuted_default
    exact ⟨s₁, gs, s₂, hsolve, hgoals, hsimplify, herrors.mpr ⟨3, rfl, Or.inl (by decide)⟩⟩
  · obtain ⟨s₁, gs, s₂, hsolve, hgoals, hsimplify, herrors⟩ :=
      pickElement_accepted_iff (c := selectingContext) (i := 3) (by decide) (by decide) hlen
        (picks_elementOfThree 3) unrefuted_default
    refine ⟨s₁, gs, s₂, hsolve, hgoals, hsimplify, fun hnone => ?_⟩
    obtain ⟨k, ⟨⟩, hbelow | hmax⟩ := herrors.mp hnone
    · exact absurd hbelow (by decide)
    · exact absurd hmax (by decide)

/-- The largest index is accepted although it is not within the sequence. -/
theorem pickElement_accepts_largest_index :
    ¬ Word.maxValue < 3 ∧
    ∃ s₁ gs s₂, Returns (solveSelector (elementOfThree Word.maxValue)) selectingContext default
        true s₁ ∧
      s₁.goals = gs ∧ Returns (simplifyGoals gs) selectingContext s₁ [] s₂ ∧ s₂.errors = [] := by
  obtain ⟨s₁, gs, s₂, hsolve, hgoals, hsimplify, herrors⟩ :=
    exists_pickElement (c := selectingContext) (picks_elementOfThree Word.maxValue)
      unrefuted_default
  exact ⟨by decide, s₁, gs, s₂, hsolve, hgoals, hsimplify, herrors.mpr ⟨rfl, by decide⟩⟩

end Infer
end SizedTypes
