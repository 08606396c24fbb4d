import SizedTypes.Proofs.Infer.Monad
import SizedTypes.Proofs.Infer.Routes
import SizedTypes.Proofs.Infer.Ledger
import SizedTypes.Proofs.Unify.Variable

/-!
# Solving a selector goal

A goal whose record type is closed is solved through goals for smaller types, one for each sequence
and function around the record, while other goals wait.
-/

set_option autoImplicit false

namespace SizedTypes

namespace Layer

/-- What the variable stands for that the solver invents inside the layer. -/
def source : Layer → TypeSource
  | seq _ _ => .seqElement
  | arrow _ _ => .result

/-- The solution of a goal through the goal `sub`, which selects `inner` inside the layer. -/
def solution (sub : Int) (inner : Ty) : Layer → Solution
  | seq len elem => .overSeq sub len elem inner
  | arrow arg _ => .overArrow sub arg

end Layer

namespace Infer

variable {c : Context} {s s' : State} {g : SelectorGoal} {v : TyVar} {t : Ty} {l : Layer} {k : ℕ}

/-! ## States of the solver -/

/-- The next `k` type variables and goals, and those after them, have not been used. -/
structure State.Spare (s : State) (k : ℕ) : Prop where
  lowVar : -9223372036854775808 ≤ s.nextTypeVar
  highVar : s.nextTypeVar + k ≤ Word.maxValue
  unbound : ∀ i, s.nextTypeVar ≤ i → s.subst.lookup i = none
  unnarrowed : ∀ i, s.nextTypeVar ≤ i → s.subst.scopes.find? i = none
  lowGoal : -9223372036854775808 ≤ s.nextGoal
  highGoal : s.nextGoal + k ≤ Word.maxValue
  unsolved : ∀ i, s.nextGoal ≤ i → s.solutions.find? i = none

/-- The variable that the solver invents inside a layer. -/
def State.innerVar (s : State) (l : Layer) : TyVar :=
  .ofScope s.nextTypeVar .type s.params (some l.source)

/-- The goal inside a layer. -/
def State.subgoal (s : State) (range : Range) (g : SelectorGoal) (l : Layer) : SelectorGoal :=
  ⟨s.nextGoal, range, g.sel, l.inside, .free (s.innerVar l)⟩

/-- The state after a goal has been solved through the goal inside a layer. -/
def State.through (s : State) (range : Range) (g : SelectorGoal) (v : TyVar) (l : Layer) : State :=
  { s with
    nextTypeVar := Word.next s.nextTypeVar
    draws := s.draws + 1
    subst := s.subst.bindVar v (l.around (.free (s.innerVar l)))
    nextGoal := Word.next s.nextGoal
    pending := s.pending ++ [s.subgoal range g l]
    selectorGoals := s.selectorGoals.insert s.nextGoal (s.subgoal range g l)
    solutions := s.solutions.insert g.id (l.solution s.nextGoal (.free (s.innerVar l))) }

theorem State.Spare.next_typeVar (h : s.Spare (k + 1)) :
    Word.next s.nextTypeVar = s.nextTypeVar + 1 :=
  Word.wrap_eq_self ⟨by have := h.lowVar; omega, by have := h.highVar; omega⟩

theorem State.Spare.next_goal (h : s.Spare (k + 1)) : Word.next s.nextGoal = s.nextGoal + 1 :=
  Word.wrap_eq_self ⟨by have := h.lowGoal; omega, by have := h.highGoal; omega⟩

theorem State.Spare.lt_next_typeVar (h : s.Spare (k + 1)) :
    s.nextTypeVar < Word.next s.nextTypeVar :=
  (Int.lt_succ _).trans_eq h.next_typeVar.symm

theorem State.Spare.lt_next_goal (h : s.Spare (k + 1)) : s.nextGoal < Word.next s.nextGoal :=
  (Int.lt_succ _).trans_eq h.next_goal.symm

theorem State.Spare.mono {j : ℕ} (h : s.Spare k) (hjk : j ≤ k) : s.Spare j :=
  ⟨h.lowVar, by have := h.highVar; omega, h.unbound, h.unnarrowed, h.lowGoal,
    by have := h.highGoal; omega, h.unsolved⟩

/-- Predicates that are no selector predicates are added to the goals. -/
theorem returns_addGoals_of_plain {src : GoalSource} {ps : List Ty}
    (h : ∀ p ∈ Ty.conjunctsList ps, p.asHas? = none) :
    Returns (addGoals src ps) c s ⟨⟩ { s with
      goals := s.goals ++ (Ty.conjunctsList ps).map fun p => ⟨src, c.range, p⟩ } := by
  unfold addGoals
  generalize Ty.conjunctsList ps = qs at h
  induction qs generalizing s with
  | nil =>
    rw [List.map_nil, List.append_nil]
    exact returns_pure.mpr ⟨rfl, rfl⟩
  | cons q qs ih =>
    obtain ⟨hq, hqs⟩ := List.forall_mem_cons.mp h
    have hone : Returns (addGoal src q) c s ⟨⟩
        { s with goals := s.goals ++ [⟨src, c.range, q⟩] } := by
      unfold addGoal
      rw [hq]
      rfl
    refine returns_bind.mpr ⟨⟨⟩, _, hone, ?_⟩
    have hrest := ih (s := { s with goals := s.goals ++ [⟨src, c.range, q⟩] }) hqs
    rwa [List.append_assoc] at hrest

/-- The goals for an element are no selector goals. -/
theorem plain_componentGoals (sel : Selector) (record : Ty) :
    ∀ p ∈ Ty.conjunctsList (componentGoals sel record), p.asHas? = none := by
  unfold componentGoals
  split
  · intro p hp
    have hp : p = .fin _ ∨ p = .geq _ _ := List.mem_pair.mp hp
    rcases hp with rfl | rfl <;> rfl
  · exact List.forall_mem_nil _

end Infer

/-! ## One goal -/

/-- A goal for the type `v` of what is selected from a closed type. It is not solved, and its
variable is not bound. -/
structure SelectorGoal.Asks (g : SelectorGoal) (v : TyVar) (s : Infer.State) : Prop where
  field : g.field = .free v
  sel : g.sel.OfRecord
  kinded : ∃ Γ, g.record.WellKinded Γ
  closed : g.record.leafIds = []
  declared : g.record.Declared
  kind : v.kind = .type
  unbound : s.subst.lookup v.id = none
  drawn : v.id < s.nextTypeVar
  /-- The variable may depend on the parameters of the record type. -/
  allowed : ∀ p ∈ g.record.params, p.id ∈ s.subst.scopeOf v
  issued : g.id < s.nextGoal
  unsolved : s.solutions.find? g.id = none

/-- The variable of the goal may depend on the parameters of what is selected as well. Those inside
the outermost layer are in scope: the variables that the solver invents depend on nothing else. -/
structure SelectorGoal.Ready (g : SelectorGoal) (v : TyVar) (s : Infer.State) : Prop
    extends g.Asks v s where
  selected : ∀ t, g.record.lift g.sel = some t → ∀ p ∈ t.params, p.id ∈ s.subst.scopeOf v
  inScope : ∀ l, g.record.layer? = some l →
    ∀ p ∈ l.inside.selectedParams g.sel, p.id ∈ s.params.map Param.id

namespace SelectorGoal.Ready

open Infer

variable {c : Context} {s s' : State} {g : SelectorGoal} {v : TyVar} {t : Ty} {l : Layer} {k : ℕ}

/-- The invented variable may depend on all that is in scope and that the variable of the goal may
depend on. -/
theorem mem_scopeOf_innerVar (h : g.Ready v s) (hspare : s.Spare k) (hl : g.record.layer? = some l)
    (range : Range) {p : Param} (hp : p ∈ l.inside.selectedParams g.sel)
    (hallowed : p.id ∈ s.subst.scopeOf v) :
    p.id ∈ (s.through range g v l).subst.scopeOf (s.innerVar l) := by
  obtain ⟨Γ, hkinded⟩ := h.kinded
  have hinner : p.id ∈ s.subst.scopeOf (s.innerVar l) := by
    have hnone : s.subst.scopes.find? (s.innerVar l).id = none := hspare.unnarrowed _ le_rfl
    rw [Subst.scopeOf, hnone]
    simpa [State.innerVar, TyVar.ofScope] using h.inScope l hl p hp
  refine Subst.mem_scopeOf_bindVar hinner hallowed fun u hu _ => ?_
  exact Ty.vars_around (Ty.closed_of_layer? hkinded h.closed hl).1 hu ▸ hinner

/-- The goal inside a layer asks for the invented variable. -/
theorem inside (h : g.Ready v s) (hspare : s.Spare (k + 1)) (hl : g.record.layer? = some l)
    (range : Range) : (s.subgoal range g l).Ready (s.innerVar l) (s.through range g v l) := by
  obtain ⟨Γ, hkinded⟩ := h.kinded
  obtain ⟨hside, hinside⟩ := Ty.closed_of_layer? hkinded h.closed hl
  refine ⟨⟨rfl, h.sel, ⟨Γ, hkinded.inside hl⟩, hinside, Ty.declared_of_layer? hl h.declared, rfl,
    ?_, ?_, fun p hp => ?_, ?_, ?_⟩, fun t ht p hp => ?_, fun l' hl' p hp => ?_⟩
  · refine Subst.lookup_eq_none_iff.mpr (List.forall_mem_cons.mpr ⟨ne_of_lt h.drawn, ?_⟩)
    exact Subst.lookup_eq_none_iff.mp (hspare.unbound _ le_rfl)
  · exact hspare.lt_next_typeVar
  · refine h.mem_scopeOf_innerVar hspare hl range (Ty.mem_selectedParams.mpr (.inl hp))
      (h.allowed p ?_)
    rw [Ty.params_of_layer? hkinded hl]
    exact List.mem_append_right _ hp
  · exact hspare.lt_next_goal
  · show Table.find? s.nextGoal (s.solutions.insert g.id _) = none
    rw [Table.find?_insert, if_neg (ne_of_gt h.issued)]
    exact hspare.unsolved _ le_rfl
  · refine h.mem_scopeOf_innerVar hspare hl range (Ty.mem_selectedParams.mpr (.inr ⟨t, ht, hp⟩))
      (h.selected (l.around t) ?_ p ?_)
    · rw [Ty.lift_of_layer? hl]
      exact congrArg (Option.map l.around) ht
    · rw [Ty.params_around]
      exact List.mem_append_right _ hp
  · exact h.inScope l hl p (Ty.selectedParams_inside (hkinded.inside hl) hl' hp)

/-- The variable of a goal stands for the layer around what the invented variable stands for. -/
theorem apply_around (h : g.Ready v s) (hspare : s.Spare k)
    (hl : g.record.layer? = some l) {θ : Subst} {new : List (TyVar × Ty)}
    (hθ : θ.bindings = new ++ (v, l.around (.free (s.innerVar l))) :: s.subst.bindings) :
    θ.apply (.free v) = l.around (θ.apply (.free (s.innerVar l))) := by
  obtain ⟨Γ, hkinded⟩ := h.kinded
  obtain ⟨hside, -⟩ := Ty.closed_of_layer? hkinded h.closed hl
  have hunbound : s.subst.lookup (s.innerVar l).id = none := hspare.unbound _ le_rfl
  have hne : (s.innerVar l).id ≠ v.id := ne_of_gt h.drawn
  have hsplit : ∀ t : Ty, θ.apply t = ({ bindings := new } : Subst).apply
      ((s.subst.apply t).replace v.id (l.around (.free (s.innerVar l)))) :=
    Subst.apply_append (s := s.subst.bindVar v _) hθ
  rw [hsplit, hsplit, Subst.apply_free_of_unbound h.unbound, Subst.apply_free_of_unbound hunbound]
  simp only [Ty.replace, Ty.bind, if_true, if_neg hne]
  rw [Layer.around, Subst.apply_con]
  simp [Subst.apply_of_closed _ hside, Layer.around]

end SelectorGoal.Ready

namespace Infer

variable {c : Context} {s s' : State} {g : SelectorGoal} {v : TyVar} {t : Ty} {l : Layer} {k : ℕ}

/-! ## Rounds -/

/-- A goal that the solver takes up and solves, and the errors that it records for it. -/
structure Visit where
  goal : SelectorGoal
  errors : List Diagnostic

/-- A pass over goals from a state to another. Goals whose record type is not known go back to the
pending ones. The flag says whether a goal has been solved. -/
inductive SelectorPass (c : Context) :
    List SelectorGoal → State → Bool → List Visit → State → Prop
  | nil {s : State} : SelectorPass c [] s false [] s
  | stuck {g : SelectorGoal} {gs : List SelectorGoal} {s s' : State} {b : Bool}
      {visits : List Visit} : Returns (solveSelector g) c s false s →
      SelectorPass c gs { s with pending := s.pending ++ [g] } b visits s' →
      SelectorPass c (g :: gs) s b visits s'
  | solved {g : SelectorGoal} {gs : List SelectorGoal} {s s₁ s' : State} {b : Bool}
      {visits : List Visit} {es : List Diagnostic} : Returns (solveSelector g) c s true s₁ →
      s₁.errors = s.errors ++ es → SelectorPass c gs s₁ b visits s' →
      SelectorPass c (g :: gs) s true (⟨g, es⟩ :: visits) s'

/-- At most so many rounds from a state to another. The last one solves no goal, if there are rounds
left. -/
inductive SelectorRounds (c : Context) : ℕ → State → List Visit → State → Prop
  | none {s : State} : SelectorRounds c 0 s [] s
  | last {n : ℕ} {s s' : State} {visits : List Visit} :
      SelectorPass c s.pending { s with pending := [] } false visits s' →
      SelectorRounds c (n + 1) s visits s'
  | next {n : ℕ} {s s₁ s' : State} {visits visits' : List Visit} :
      SelectorPass c s.pending { s with pending := [] } true visits s₁ →
      SelectorRounds c n s₁ visits' s' → SelectorRounds c (n + 1) s (visits ++ visits') s'

namespace SelectorPass

variable {gs gs' : List SelectorGoal} {s₁ : State} {b b' : Bool} {visits visits' : List Visit}

theorem returns (h : SelectorPass c gs s b visits s') :
    Returns (solveSelectorsOnce gs) c s b s' := by
  induction h with
  | nil => exact returns_pure.mpr ⟨rfl, rfl⟩
  | stuck hg _ ih =>
    refine returns_bind.mpr ⟨false, _, hg, returns_bind.mpr ⟨⟨⟩, _, rfl, ?_⟩⟩
    exact returns_bind.mpr ⟨_, _, ih, returns_pure.mpr ⟨rfl, rfl⟩⟩
  | solved hg _ _ ih =>
    exact returns_bind.mpr ⟨true, _, hg, returns_bind.mpr ⟨_, _, ih, rfl⟩⟩

theorem errors (h : SelectorPass c gs s b visits s') :
    s'.errors = s.errors ++ visits.flatMap Visit.errors := by
  induction h with
  | nil => exact (List.append_nil _).symm
  | stuck _ _ ih => exact ih
  | solved _ hes _ ih => rw [ih, hes, List.flatMap_cons, List.append_assoc]

theorem append (h : SelectorPass c gs s b visits s₁) (h' : SelectorPass c gs' s₁ b' visits' s') :
    SelectorPass c (gs ++ gs') s (b || b') (visits ++ visits') s' := by
  induction h with
  | nil => exact h'
  | stuck hg _ ih => exact .stuck hg (ih h')
  | solved hg hes _ ih => exact .solved hg hes (ih h')

end SelectorPass

namespace SelectorRounds

variable {n : ℕ} {visits : List Visit}

theorem returns (h : SelectorRounds c n s visits s') :
    Returns (solveSelectorRounds n) c s ⟨⟩ s' := by
  induction h with
  | none => exact returns_pure.mpr ⟨rfl, rfl⟩
  | last hpass =>
    rw [solveSelectorRounds, returns_get_bind, returns_modify_bind]
    exact returns_bind.mpr ⟨false, _, hpass.returns, returns_pure.mpr ⟨rfl, rfl⟩⟩
  | next hpass _ ih =>
    rw [solveSelectorRounds, returns_get_bind, returns_modify_bind]
    exact returns_bind.mpr ⟨true, _, hpass.returns, ih⟩

theorem errors (h : SelectorRounds c n s visits s') :
    s'.errors = s.errors ++ visits.flatMap Visit.errors := by
  induction h with
  | none => exact (List.append_nil _).symm
  | last hpass => exact hpass.errors
  | next hpass _ ih => rw [ih, hpass.errors, List.flatMap_append, List.append_assoc]

end SelectorRounds

/-- The record type of a goal is not known yet. -/
def Stuck (s : Subst) (g : SelectorGoal) : Prop := ∃ w, (s.apply g.record).expand = .free w

end Infer
end SizedTypes
