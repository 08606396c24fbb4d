import SizedTypes.Proofs.Infer.Goals.Settled
import SizedTypes.Proofs.Simplify.Closure

/-!
# Rounds of simplification

Goals are simplified in rounds, each a pass over all of them, until a pass binds no variable. Every
other pass uses up a variable, so the rounds end before their fuel does. What the last pass leaves
is inert, forces nothing and mentions no bound variable: one more pass leaves it as it is.
-/

set_option autoImplicit false

namespace SizedTypes

open Simplify (Inert)

/-! ## Improvement -/

theorem Size.leafIds_toTy (m : Size) : m.toTy.leafIds = [] := by
  cases m <;> rfl

theorem Size.params_toTy (m : Size) : m.toTy.params = [] := by
  cases m <;> rfl

namespace Subst

theorem apply_toTy (θ : Subst) (m : Size) : θ.apply m.toTy = m.toTy :=
  apply_eq_self fun i hi => by rw [m.leafIds_toTy] at hi; cases hi

/-- A variable that is not bound takes any size. -/
theorem exists_extend_toTy {θ : Subst} {v : TyVar} (h : θ.lookup v.id = none) (m : Size) :
    ∃ θ', θ.extend v m.toTy = .ok θ' := by
  have hfree : m.toTy.isFree v.id = false := by
    cases m <;> rfl
  have hoccurs : m.toTy.occurs v.id = false := by
    rw [Ty.occurs, m.varIds_toTy]
    rfl
  have hescaped : θ.escapedParams v m.toTy = [] := by
    rw [escapedParams, m.params_toTy]
    rfl
  refine ⟨{ bindings := (v, m.toTy) :: θ.bindings, scopes := θ.narrow v m.toTy }, ?_⟩
  rw [extend, h]
  simp only [Option.isSome_none, Bool.false_eq_true, if_false, apply_toTy, hfree, hoccurs, hescaped,
    List.isEmpty_nil, if_true]

/-- Constants close no cycle. -/
theorem Reaches.acyclic_of_constants {θ θ' : Subst} (h : Reaches ToConstant θ θ')
    (hθ : θ.Acyclic) : θ'.Acyclic := by
  refine h.induct hθ fun {s s' v t} hs hconst hext => hext.acyclic hs ?_
  obtain ⟨c, rfl⟩ := hconst
  rw [apply_eq_self (t := .con c []) fun i hi => by cases hi]
  exact fun hi => nomatch hi

end Subst

namespace Improvement

/-- What `j` makes of the predicates that come after those of `i`. -/
def followedBy (i j : Improvement) : Improvement where
  subst := j.subst
  rest := j.rest ++ i.rest
  improved := i.improved || j.improved

theorem followedBy_start (i : Improvement) : i.followedBy { subst := i.subst } = i := by
  simp [followedBy]

theorem followedBy_absorb (i j : Improvement) (r : Ty) :
    (i.followedBy j).absorb r = i.followedBy (j.absorb r) := by
  unfold absorb
  cases improve r with
  | none => rfl
  | some b =>
    simp only [followedBy]
    cases j.subst.extend b.1 b.2 with
    | ok θ => simp
    | error e => rfl

/-- Predicates are absorbed in the same way whatever came before. -/
theorem foldl_absorb (i : Improvement) (residual : List Ty) :
    residual.foldl absorb i = i.followedBy (residual.foldl absorb { subst := i.subst }) := by
  have key : ∀ j : Improvement,
      residual.foldl absorb (i.followedBy j) = i.followedBy (residual.foldl absorb j) := by
    induction residual with
    | nil => exact fun _ => rfl
    | cons r residual ih =>
      intro j
      rw [List.foldl_cons, List.foldl_cons, followedBy_absorb, ih]
  rw [← key, followedBy_start]

/-- Predicates that force nothing are kept. -/
theorem foldl_absorb_of_idle {i : Improvement} {residual : List Ty}
    (h : ∀ r ∈ residual, improve r = none) :
    residual.foldl absorb i = { i with rest := residual.reverse ++ i.rest } := by
  induction residual generalizing i with
  | nil => rfl
  | cons r residual ih =>
    obtain ⟨hr, hresidual⟩ := List.forall_mem_cons.mp h
    have habsorb : i.absorb r = { i with rest := r :: i.rest } := by
      rw [absorb, hr]
    rw [List.foldl_cons, habsorb, ih hresidual]
    simp

theorem improved_foldl {i : Improvement} {residual : List Ty} (h : i.improved = true) :
    (residual.foldl absorb i).improved = true := by
  rw [foldl_absorb]
  simp [followedBy, h]

/-- Where nothing was bound, none of the predicates forces a variable. -/
theorem idle_of_foldl {θ : Subst} {residual rest : List Ty}
    (hvars : ∀ r ∈ residual, ∀ v ∈ r.varIds, θ.lookup v = none)
    (h : (residual.foldl absorb { subst := θ, rest := rest }).improved = false) :
    ∀ r ∈ residual, improve r = none := by
  induction residual generalizing rest with
  | nil => exact List.forall_mem_nil _
  | cons r residual ih =>
    obtain ⟨hr, hresidual⟩ := List.forall_mem_cons.mp hvars
    rw [List.foldl_cons] at h
    cases himprove : improve r with
    | none =>
      rw [absorb, himprove] at h
      exact List.forall_mem_cons.mpr ⟨himprove, ih hresidual h⟩
    | some b =>
      obtain ⟨v, t⟩ := b
      obtain ⟨hv, m, rfl⟩ := improve_spec himprove
      obtain ⟨θ', hextend⟩ := Subst.exists_extend_toTy (hr v.id hv) m
      rw [absorb, himprove] at h
      simp only [hextend] at h
      rw [improved_foldl rfl] at h
      cases h

end Improvement

namespace Infer

variable {c : Context} {s s₁ s' : State}

/-! ## One goal -/

/-- What is left of a goal whose residual predicates are `residual`. -/
def absorbed (θ : Subst) (residual : List Ty) : Improvement :=
  residual.foldl Improvement.absorb { subst := θ }

theorem returns_simplifyGoal_of_ok {g : Goal} {residual : List Ty} {r : List Goal × Bool}
    (h : simplify (s.subst.apply g.prop) s.assumptions = .ok residual) :
    Returns (simplifyGoal g) c s r s' ↔
      r = ((absorbed s.subst residual).rest.reverse.map fun p => { g with prop := p },
        (absorbed s.subst residual).improved) ∧
      s' = { s with subst := (absorbed s.subst residual).subst } := by
  unfold simplifyGoal
  simp only [returns_get_bind, h, returns_set_bind, returns_pure]
  rfl

theorem returns_simplifyGoal_of_error {g : Goal} {p : Ty} {r : List Goal × Bool}
    (h : simplify (s.subst.apply g.prop) s.assumptions = .error p) :
    Returns (simplifyGoal g) c s r s' ↔
      r = ([], false) ∧
      s' = { s with errors := s.errors ++ [⟨g.range.orElse c.range,
        .unsolvableGoal { g with prop := s.subst.apply g.prop }⟩] } := by
  unfold simplifyGoal withRange
  rw [returns_get_bind]
  simp only [h, returns_bind, returns_pure, returns_withReader, returns_recordError_iff]
  constructor
  · rintro ⟨-, s₁, rfl, rfl, rfl⟩
    exact ⟨rfl, rfl⟩
  · rintro ⟨rfl, rfl⟩
    exact ⟨⟨⟩, _, rfl, rfl, rfl⟩

theorem exists_returns_simplifyGoal (c : Context) (s : State) (g : Goal) :
    ∃ r s', Returns (simplifyGoal g) c s r s' := by
  cases h : simplify (s.subst.apply g.prop) s.assumptions with
  | error p => exact ⟨_, _, (returns_simplifyGoal_of_error h).mpr ⟨rfl, rfl⟩⟩
  | ok residual => exact ⟨_, _, (returns_simplifyGoal_of_ok h).mpr ⟨rfl, rfl⟩⟩

/-! ## Rounds -/

theorem exists_returns_simplifyPass (c : Context) (s : State) (gs : List Goal) :
    ∃ r s', Returns (simplifyPass gs) c s r s' := by
  induction gs generalizing s with
  | nil => exact ⟨_, _, returns_pure.mpr ⟨rfl, rfl⟩⟩
  | cons g gs ih =>
    obtain ⟨⟨left, b⟩, s₁, hg⟩ := exists_returns_simplifyGoal c s g
    obtain ⟨⟨lefts, b'⟩, s', hgs⟩ := ih s₁
    refine ⟨(left ++ lefts, b || b'), s', ?_⟩
    simp only [simplifyPass, returns_bind, returns_pure]
    exact ⟨_, s₁, hg, _, s', hgs, rfl, rfl⟩

theorem exists_returns_simplifyPasses (c : Context) (s : State) (fuel : Nat) (gs : List Goal) :
    ∃ left s', Returns (simplifyPasses fuel gs) c s left s' := by
  induction fuel generalizing s gs with
  | zero => exact ⟨_, _, returns_pure.mpr ⟨rfl, rfl⟩⟩
  | succ fuel ih =>
    obtain ⟨⟨gs', improved⟩, s₁, hpass⟩ := exists_returns_simplifyPass c s gs
    simp only [simplifyPasses, returns_bind]
    cases improved with
    | true =>
      obtain ⟨left, s', h⟩ := ih s₁ gs'
      exact ⟨left, s', _, s₁, hpass, h⟩
    | false => exact ⟨gs', s₁, _, s₁, hpass, returns_pure.mpr ⟨rfl, rfl⟩⟩

theorem exists_returns_simplifyGoals (c : Context) (s : State) (gs : List Goal) :
    ∃ left s', Returns (simplifyGoals gs) c s left s' := exists_returns_simplifyPasses c s _ gs

/-- Passes over goals up to one that binds nothing: `left` is what the last one leaves. -/
inductive Rounds (c : Context) (left : List Goal) (s' : State) : State → List Goal → Prop
  | last {s : State} {gs : List Goal} (hpass : Returns (simplifyPass gs) c s (left, false) s') :
    Rounds c left s' s gs
  | next {s s₁ : State} {gs gs' : List Goal} (hpass : Returns (simplifyPass gs) c s (gs', true) s₁)
    (hrest : Rounds c left s' s₁ gs') : Rounds c left s' s gs

/-- The number of variables bounds the rounds. -/
theorem rounds_of_simplifyPasses {fuel : Nat} {gs left : List Goal}
    (h : Returns (simplifyPasses fuel gs) c s left s') (hs : s.subst.Triangular)
    (hfuel : distinctCount (goalIds s.subst gs) < fuel) : Rounds c left s' s gs := by
  induction fuel generalizing gs s with
  | zero => omega
  | succ fuel ih =>
    rw [simplifyPasses, returns_bind] at h
    obtain ⟨⟨gs', improved⟩, s₁, hpass, h⟩ := h
    have hspec : Pass s.subst s₁.subst gs gs' improved := returns_simplifyPass hpass
    cases improved with
    | true =>
      have hlt := hspec.distinctCount_lt hs
      exact .next hpass (ih h (hspec.triangular hs) (by omega))
    | false =>
      obtain ⟨rfl, rfl⟩ := returns_pure.mp h
      exact .last hpass

/-- Simplification ends with a pass that binds nothing. -/
theorem rounds_of_simplifyGoals {gs left : List Goal}
    (h : Returns (simplifyGoals gs) c s left s') (hs : s.subst.Triangular) :
    Rounds c left s' s gs := by
  refine rounds_of_simplifyPasses (returns_get_bind.mp h) hs (Nat.lt_succ_of_le ?_)
  refine (distinctCount_le_of_subset fun i hi => ?_).trans (distinctCount_le_length _)
  rw [Ty.freeIds, List.mem_eraseDups, List.flatMap_map]
  exact hi

theorem returns_simplifyPasses_of_last {fuel : Nat} {gs left : List Goal}
    (h : Returns (simplifyPass gs) c s (left, false) s') :
    Returns (simplifyPasses (fuel + 1) gs) c s left s' := by
  rw [simplifyPasses, returns_bind]
  exact ⟨_, s', h, returns_pure.mpr ⟨rfl, rfl⟩⟩

/-! ## Idle goals -/

/-- Nothing is to be done about the goal under the assumptions and the substitution. -/
structure Idle (asmps : Assumptions) (θ : Subst) (p : Ty) : Prop where
  inert : Inert asmps p
  unforced : improve p = none
  unbound : ∀ i ∈ p.leafIds, θ.lookup i = none

theorem idle_of_simplifyGoal {g : Goal} {left : List Goal}
    (h : Returns (simplifyGoal g) c s (left, false) s') (hs : s.subst.Acyclic) :
    ∀ l ∈ left, Idle s.assumptions s.subst l.prop := by
  cases hsimplify : simplify (s.subst.apply g.prop) s.assumptions with
  | error p =>
    obtain ⟨hleft, -⟩ := (returns_simplifyGoal_of_error hsimplify).mp h
    cases hleft
    exact List.forall_mem_nil _
  | ok residual =>
    obtain ⟨hleft, -⟩ := (returns_simplifyGoal_of_ok hsimplify).mp h
    rw [Prod.mk.injEq] at hleft
    obtain ⟨rfl, himproved⟩ := hleft
    have hinert := inert_of_simplify hsimplify
    have hunbound :=
      simplify_inherits (Ty.inherited_leafIds fun i => s.subst.lookup i = none) hsimplify
      fun i hi => hs.lookup_of_mem_leafIds hi
    have hidle := Improvement.idle_of_foldl
      (fun r hr v hv => hunbound r hr v (Ty.mem_leafIds_of_mem_varIds hv)) himproved.symm
    intro l hl
    obtain ⟨p, hp, rfl⟩ := List.mem_map.mp hl
    have hp' : p ∈ residual :=
      (Improvement.from_foldl s.subst residual).rest p (List.mem_reverse.mp hp)
    exact ⟨hinert p hp', hidle p hp', hunbound p hp'⟩

theorem idle_of_simplifyPass {gs left : List Goal}
    (h : Returns (simplifyPass gs) c s (left, false) s') (hs : s.subst.Acyclic) :
    ∀ l ∈ left, Idle s.assumptions s.subst l.prop := by
  induction gs generalizing s left with
  | nil =>
    rw [simplifyPass, returns_pure] at h
    cases h.1
    exact List.forall_mem_nil _
  | cons g gs ih =>
    simp only [simplifyPass, returns_bind, returns_pure, Prod.mk.injEq] at h
    obtain ⟨⟨first, b⟩, s₁, hg, ⟨rest, b'⟩, _, hgs, ⟨rfl, himproved⟩, rfl⟩ := h
    rw [eq_comm, Bool.or_eq_false_iff] at himproved
    obtain ⟨rfl, rfl⟩ := himproved
    -- nothing is bound on the way
    have hsubst : s₁.subst = s.subst := (returns_simplifyGoal hg).same rfl
    have hasmps := (bindsConstants_of_simplifyGoal hg).assumptions
    have hrest := ih hgs (hsubst ▸ hs)
    rw [hsubst, hasmps] at hrest
    exact List.forall_mem_append.mpr ⟨idle_of_simplifyGoal hg hs, hrest⟩

theorem Idle.apply {asmps : Assumptions} {θ : Subst} {p : Ty} (h : Idle asmps θ p) :
    θ.apply p = p := Subst.apply_eq_self h.unbound

/-- An idle goal is left as it is. -/
theorem returns_simplifyGoal_of_idle {g : Goal} (h : Idle s.assumptions s.subst g.prop) :
    Returns (simplifyGoal g) c s ([g], false) s := by
  have hsimplify : simplify (s.subst.apply g.prop) s.assumptions = .ok [g.prop] := by
    rw [h.apply]
    exact h.inert.simplify
  have habsorbed : absorbed s.subst [g.prop] = { subst := s.subst, rest := [g.prop] } :=
    Improvement.foldl_absorb_of_idle (List.forall_mem_singleton.mpr h.unforced)
  rw [returns_simplifyGoal_of_ok hsimplify, habsorbed]
  exact ⟨rfl, rfl⟩

theorem returns_simplifyPass_of_idle {gs : List Goal}
    (h : ∀ g ∈ gs, Idle s.assumptions s.subst g.prop) :
    Returns (simplifyPass gs) c s (gs, false) s := by
  induction gs with
  | nil => exact returns_pure.mpr ⟨rfl, rfl⟩
  | cons g gs ih =>
    obtain ⟨hg, hgs⟩ := List.forall_mem_cons.mp h
    simp only [simplifyPass, returns_bind, returns_pure]
    exact ⟨([g], false), s, returns_simplifyGoal_of_idle hg, (gs, false), s, ih hgs, rfl, rfl⟩

/-- What the rounds leave is idle. -/
theorem Rounds.idle {gs left : List Goal} (h : Rounds c left s' s gs) (hs : s.subst.Acyclic) :
    ∀ l ∈ left, Idle s'.assumptions s'.subst l.prop := by
  induction h with
  | last hpass =>
    have hsubst := (returns_simplifyPass hpass).same rfl
    rw [hsubst, (bindsConstants_of_simplifyPass hpass).assumptions]
    exact idle_of_simplifyPass hpass hs
  | next hpass _ ih =>
    exact ih ((bindsConstants_of_simplifyPass hpass).reaches.acyclic_of_constants hs)

/-- Idle goals stay as they are. -/
theorem returns_simplifyGoals_of_idle {gs : List Goal}
    (h : ∀ g ∈ gs, Idle s.assumptions s.subst g.prop) :
    Returns (simplifyGoals gs) c s gs s :=
  returns_get_bind.mpr (returns_simplifyPasses_of_last (returns_simplifyPass_of_idle h))

end Infer
end SizedTypes
