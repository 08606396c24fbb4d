import SizedTypes.Proofs.Infer.Respects.Goals
import SizedTypes.Proofs.Subst.Acyclic
import SizedTypes.Proofs.Ty.Transparent

/-!
# What becomes of goals

Simplification and defaults bind variables to constants. A goal that is simplified is settled: it
can never hold and is reported, or it forces the value of a variable and the variable takes it, or
all that is left of it is kept. Where the goals are transparent, so is what is kept.
-/

set_option autoImplicit false

namespace SizedTypes

namespace Subst

/-- The type is a constructor without arguments. -/
def ToConstant (_ : TyVar) (t : Ty) : Prop := ∃ c, t = .con c []

variable {B : TyVar → Ty → Prop} {θ θ' : Subst}

/-- What solves a substitution solves those it comes from. -/
theorem Reaches.solves (h : Reaches B θ θ') {σ : Int → Shape} (hσ : Solves σ θ') : Solves σ θ :=
  h.induct (P := fun θ₁ => Solves σ θ₁ → Solves σ θ) id
    (fun hback _ hext hσ => hback (hext.solves hσ)) hσ

/-- Constants bring in no variables. -/
theorem Reaches.varIds (h : Reaches ToConstant θ θ') (t : Ty) {i : Int}
    (hi : i ∈ (θ'.apply t).varIds) : i ∈ (θ.apply t).varIds :=
  h.induct (P := fun θ₁ => i ∈ (θ₁.apply t).varIds → i ∈ (θ.apply t).varIds) id
    (fun hback ⟨_, hc⟩ hext hi => hback (hext.varIds (hc ▸ rfl) t hi)) hi

theorem Reaches.transparent (h : Reaches ToConstant θ θ') {t : Ty}
    (ht : (θ.apply t).Transparent) : (θ'.apply t).Transparent := by
  refine h.induct (P := fun θ₁ => (θ₁.apply t).Transparent) ht fun {s₁ s₂ v u} hs hconst hext => ?_
  obtain ⟨c, rfl⟩ := hconst
  rw [hext.apply, apply_eq_self (t := .con c []) fun i hi => by cases hi]
  exact hs.replace_const v.id c

/-- A transparent type none of whose variables is bound stays as it is. -/
theorem apply_of_transparent {t : Ty} (h : t.Transparent) (ht : ∀ i ∈ t.varIds, θ.lookup i = none) :
    θ.apply t = t := apply_eq_self fun i hi => ht i (h.mem_varIds hi)

end Subst

open Subst (Reaches Solves ToConstant)

theorem Size.toTy_eq (m : Size) : ∃ c, m.toTy = .con c [] := by
  cases m <;> exact ⟨_, rfl⟩

/-! ## Residual predicates of one goal -/

/-- Absorbing residual predicates binds variables to constants, and each predicate is kept or has
forced the value of a variable. -/
structure Improvement.Absorbs (θ : Subst) (residual : List Ty) (i : Improvement) : Prop where
  reaches : Reaches ToConstant θ i.subst
  absorbed : ∀ r ∈ residual, r ∈ i.rest ∨ ∃ v t, improve r = some (v, t) ∧
    ∀ σ, Solves σ i.subst → σ v.id = t.shape.subst σ

theorem Improvement.Absorbs.absorb {θ : Subst} {residual : List Ty} {i : Improvement}
    (h : i.Absorbs θ residual) (goal : Ty) : (i.absorb goal).Absorbs θ (residual ++ [goal]) := by
  have hkept : ({ i with rest := goal :: i.rest } : Improvement).Absorbs θ (residual ++ [goal]) := by
    refine ⟨h.reaches, List.forall_mem_append.mpr ⟨fun r hr => ?_, ?_⟩⟩
    · exact (h.absorbed r hr).imp_left (List.mem_cons_of_mem _)
    · exact List.forall_mem_singleton.mpr (Or.inl (List.mem_cons_self ..))
  unfold Improvement.absorb
  split
  · exact hkept
  · rename_i v t himprove
    split
    · rename_i θ' hextend
      obtain ⟨-, m, rfl⟩ := improve_spec himprove
      refine ⟨h.reaches.tail (.extend m.toTy_eq hextend),
        List.forall_mem_append.mpr ⟨fun r hr => ?_, List.forall_mem_singleton.mpr ?_⟩⟩
      · refine (h.absorbed r hr).imp_right fun ⟨w, u, hw, hu⟩ => ⟨w, u, hw, fun σ hσ => ?_⟩
        exact hu σ (Subst.solves_of_extend hextend hσ)
      · exact Or.inr ⟨v, _, himprove, fun σ hσ => Subst.eq_of_extend hextend hσ⟩
    · exact hkept

theorem Improvement.absorbs_foldl (θ : Subst) (residual : List Ty) :
    (residual.foldl Improvement.absorb { subst := θ }).Absorbs θ residual := by
  have key : ∀ (rest before : List Ty) (i : Improvement), i.Absorbs θ before →
      (rest.foldl Improvement.absorb i).Absorbs θ (before ++ rest) := by
    intro rest
    induction rest with
    | nil =>
      intro before i hi
      rwa [List.append_nil]
    | cons r rest ih =>
      intro before i hi
      have hall := ih (before ++ [r]) (i.absorb r) (hi.absorb r)
      rwa [List.append_assoc, List.singleton_append] at hall
  exact key residual [] _ ⟨.refl, fun _ hr => nomatch hr⟩

namespace Infer

variable {c : Context} {s s₁ s' : State}

/-! ## Computations that bind constants -/

/-- From `s` to `s'` variables are bound to constants and messages are added. -/
structure BindsConstants (s s' : State) : Prop where
  reaches : Reaches ToConstant s.subst s'.subst
  goals : s'.goals = s.goals
  assumptions : s'.assumptions = s.assumptions
  errors : s.errors ⊆ s'.errors

namespace BindsConstants

theorem refl (s : State) : BindsConstants s s := ⟨.refl, rfl, rfl, List.Subset.refl _⟩

theorem trans (h : BindsConstants s s₁) (h' : BindsConstants s₁ s') : BindsConstants s s' where
  reaches := h.reaches.trans h'.reaches
  goals := h'.goals.trans h.goals
  assumptions := h'.assumptions.trans h.assumptions
  errors _ he := h'.errors (h.errors he)

end BindsConstants

theorem returns_recordError_iff {e : TypeError} {a : Unit} : Returns (recordError e) c s a s' ↔
    s' = { s with errors := s.errors ++ [⟨c.range, e⟩] } := by
  unfold recordError currentRange
  simp only [bind_assoc, returns_read_bind, pure_bind, returns_modify]

theorem bindsConstants_of_simplifyGoal {e : Goal} {r : List Goal × Bool}
    (h : Returns (simplifyGoal e) c s r s') : BindsConstants s s' := by
  unfold simplifyGoal at h
  rw [returns_get_bind] at h
  dsimp only at h
  split at h
  · rw [returns_bind] at h
    obtain ⟨⟨⟩, s₁, herror, h⟩ := h
    rw [(returns_pure.mp h).2, returns_recordError_iff.mp (returns_withReader.mp herror)]
    exact ⟨.refl, rfl, rfl, List.subset_append_left ..⟩
  · rw [returns_set_bind, returns_pure] at h
    rw [h.2]
    exact ⟨(Improvement.absorbs_foldl ..).reaches, rfl, rfl, List.Subset.refl _⟩

theorem bindsConstants_of_simplifyPass {gs : List Goal} {r : List Goal × Bool}
    (h : Returns (simplifyPass gs) c s r s') : BindsConstants s s' := by
  induction gs generalizing s r with
  | nil =>
    rw [simplifyPass, returns_pure] at h
    rw [h.2]
    exact .refl s
  | cons e gs ih =>
    simp only [simplifyPass, returns_bind, returns_pure] at h
    obtain ⟨_, s₁, hgoal, _, _, hgoals, -, rfl⟩ := h
    exact (bindsConstants_of_simplifyGoal hgoal).trans (ih hgoals)

theorem bindsConstants_of_simplifyPasses {fuel : Nat} {gs left : List Goal}
    (h : Returns (simplifyPasses fuel gs) c s left s') : BindsConstants s s' := by
  induction fuel generalizing gs s with
  | zero =>
    rw [simplifyPasses, returns_pure] at h
    rw [h.2]
    exact .refl s
  | succ fuel ih =>
    rw [simplifyPasses, returns_bind] at h
    obtain ⟨⟨gs', improved⟩, s₁, hpass, h⟩ := h
    refine (bindsConstants_of_simplifyPass hpass).trans ?_
    cases improved with
    | true => exact ih h
    | false =>
      rw [(returns_pure.mp h).2]
      exact .refl s₁

theorem bindsConstants_of_simplifyGoals {gs left : List Goal}
    (h : Returns (simplifyGoals gs) c s left s') : BindsConstants s s' :=
  bindsConstants_of_simplifyPasses (returns_get_bind.mp h)

theorem constant_of_defaultFor {v : TyVar} {goals : List Ty} {t : Ty}
    (h : defaultFor v goals = some t) : ToConstant v t := by
  unfold defaultFor at h
  split at h
  · cases h
  · split at h
    · cases h
      exact ⟨_, rfl⟩
    · obtain ⟨cs, -, rfl⟩ := Option.map_eq_some_iff.mp h
      split <;> exact ⟨_, rfl⟩
    · cases h

theorem constant_of_defaulted {θ θ' : Subst} {asmps : Assumptions} {goals : List Goal} {v : TyVar}
    {t : Ty} (h : defaulted? θ asmps goals v = some (θ', t)) : ToConstant v t := by
  unfold defaulted? at h
  split at h
  · cases h
  · simp only [Option.bind_eq_bind, Option.bind_eq_some_iff] at h
    obtain ⟨u, hu, trial, -, h⟩ := h
    split at h
    · cases h
      exact constant_of_defaultFor hu
    · cases h

theorem bindsConstants_of_defaultVar {goals : List Goal} {v : TyVar} {a : Unit}
    (h : Returns (defaultVar goals v) c s a s') : BindsConstants s s' := by
  unfold defaultVar at h
  rw [returns_get_bind] at h
  split at h
  · rw [(returns_pure.mp h).2]
    exact .refl s
  · rename_i θ t hdefault
    have hreaches : Reaches ToConstant s.subst θ := .single
      (.extend (constant_of_defaulted hdefault) (defaulted?_eq_some hdefault).1)
    rw [returns_set_bind, returns_bind] at h
    obtain ⟨⟨⟩, s₁, hwarn, htrace⟩ := h
    rw [returns_modify.mp htrace]
    unfold recordWarning currentRange at hwarn
    split at hwarn
    · simp only [bind_assoc, returns_read_bind, pure_bind, returns_modify] at hwarn
      rw [hwarn]
      exact ⟨hreaches, rfl, rfl, List.Subset.refl _⟩
    · rw [(returns_pure.mp hwarn).2]
      exact ⟨hreaches, rfl, rfl, List.Subset.refl _⟩

theorem bindsConstants_of_defaultVars {vs : List TyVar} {goals : List Goal} {a : Unit}
    (h : Returns (defaultVars vs goals) c s a s') : BindsConstants s s' := by
  unfold defaultVars at h
  generalize Ty.dedupVars [] vs = ws at h
  induction ws generalizing s with
  | nil =>
    simp only [List.forM_eq_forM, List.forM_nil, returns_pure] at h
    rw [h.2]
    exact .refl s
  | cons w ws ih =>
    rw [List.forM_eq_forM, List.forM_cons, returns_bind] at h
    obtain ⟨⟨⟩, s₁, hw, h⟩ := h
    exact (bindsConstants_of_defaultVar hw).trans (ih h)

/-! ## Settled goals -/

/-- What becomes of a goal under the assumptions, once variables have the values `σ` and `errors`
are reported: it is kept, or it is refuted and reported, or it forces the value that a variable
takes, or the predicates that simplifying leaves of it are settled in turn. -/
inductive GoalSettled (asmps : Assumptions) (errors : List Diagnostic) (σ : Int → Shape)
    (kept : Goal → Prop) : Goal → Prop
  | kept {e : Goal} : kept e → GoalSettled asmps errors σ kept e
  | refuted {e : Goal} {θ : Subst} {p : Ty} {range : Range} : Solves σ θ →
      simplify (θ.apply e.prop) asmps = .error p →
      ⟨range, .unsolvableGoal { e with prop := θ.apply e.prop }⟩ ∈ errors →
      GoalSettled asmps errors σ kept e
  | forced {e : Goal} {v : TyVar} {t : Ty} : improve e.prop = some (v, t) →
      σ v.id = t.shape.subst σ → GoalSettled asmps errors σ kept e
  | reduced {e : Goal} {θ : Subst} {residual : List Ty} : Solves σ θ →
      simplify (θ.apply e.prop) asmps = .ok residual →
      (∀ p ∈ residual, GoalSettled asmps errors σ kept { e with prop := p }) →
      GoalSettled asmps errors σ kept e

section GoalSettled

variable {errors : List Diagnostic} {σ : Int → Shape} {kept : Goal → Prop} {asmps : Assumptions}

theorem GoalSettled.imp {e : Goal} {kept' : Goal → Prop} (h : GoalSettled asmps errors σ kept e)
    (hkept : ∀ l, kept l → kept' l) : GoalSettled asmps errors σ kept' e := by
  induction h with
  | kept hk => exact .kept (hkept _ hk)
  | refuted hσ hrefuted hreported => exact .refuted hσ hrefuted hreported
  | forced hv ht => exact .forced hv ht
  | reduced hσ hresidual _ ih => exact .reduced hσ hresidual ih

/-- A goal is settled if what simplifying it once leaves is. -/
theorem settled_of_simplifyGoal {e : Goal} {r : List Goal × Bool}
    (h : Returns (simplifyGoal e) c s r s') (hasmps : s.assumptions = asmps)
    (herrors : s'.errors ⊆ errors) (hσ : Solves σ s'.subst)
    (hleft : ∀ l ∈ r.1, GoalSettled asmps errors σ kept l) : GoalSettled asmps errors σ kept e := by
  have hsolves := (bindsConstants_of_simplifyGoal h).reaches.solves hσ
  unfold simplifyGoal at h
  rw [returns_get_bind, hasmps] at h
  dsimp only at h
  split at h
  · rename_i p hrefuted
    rw [returns_bind] at h
    obtain ⟨⟨⟩, s₁, herror, h⟩ := h
    rw [(returns_pure.mp h).2, returns_recordError_iff.mp (returns_withReader.mp herror)] at herrors
    exact .refuted hsolves hrefuted (herrors (List.mem_append_right _ (List.mem_singleton_self _)))
  · rename_i residual hresidual
    rw [returns_set_bind, returns_pure] at h
    obtain ⟨rfl, rfl⟩ := h
    refine .reduced hsolves hresidual fun p hp => ?_
    rcases (Improvement.absorbs_foldl s.subst residual).absorbed p hp with hrest | ⟨v, t, hv, ht⟩
    · exact hleft _ (List.mem_map_of_mem (List.mem_reverse.mpr hrest))
    · exact .forced hv (ht σ hσ)

theorem settled_of_simplifyPass {gs : List Goal} {r : List Goal × Bool}
    (h : Returns (simplifyPass gs) c s r s') (hasmps : s.assumptions = asmps)
    (herrors : s'.errors ⊆ errors) (hσ : Solves σ s'.subst)
    (hleft : ∀ l ∈ r.1, GoalSettled asmps errors σ kept l) :
    ∀ e ∈ gs, GoalSettled asmps errors σ kept e := by
  induction gs generalizing s r with
  | nil => exact List.forall_mem_nil _
  | cons e gs ih =>
    simp only [simplifyPass, returns_bind, returns_pure] at h
    obtain ⟨⟨left, b⟩, s₁, hgoal, ⟨lefts, b'⟩, _, hgoals, rfl, rfl⟩ := h
    obtain ⟨hleft, hlefts⟩ := List.forall_mem_append.mp hleft
    have hfirst := bindsConstants_of_simplifyGoal hgoal
    have hrest := bindsConstants_of_simplifyPass hgoals
    refine List.forall_mem_cons.mpr ⟨?_, ih hgoals (hfirst.assumptions.trans hasmps) hlefts⟩
    exact settled_of_simplifyGoal hgoal hasmps (fun _ he => herrors (hrest.errors he))
      (hrest.reaches.solves hσ) hleft

theorem settled_of_simplifyPasses {fuel : Nat} {gs left : List Goal}
    (h : Returns (simplifyPasses fuel gs) c s left s') (hasmps : s.assumptions = asmps)
    (herrors : s'.errors ⊆ errors) (hσ : Solves σ s'.subst)
    (hleft : ∀ l ∈ left, GoalSettled asmps errors σ kept l) :
    ∀ e ∈ gs, GoalSettled asmps errors σ kept e := by
  induction fuel generalizing gs s with
  | zero =>
    rw [simplifyPasses, returns_pure] at h
    rwa [← h.1]
  | succ fuel ih =>
    rw [simplifyPasses, returns_bind] at h
    obtain ⟨⟨gs', improved⟩, s₁, hpass, h⟩ := h
    cases improved with
    | true =>
      have hfirst := bindsConstants_of_simplifyPass hpass
      have hrest := bindsConstants_of_simplifyPasses h
      exact settled_of_simplifyPass hpass hasmps (fun _ he => herrors (hrest.errors he))
        (hrest.reaches.solves hσ) (ih h (hfirst.assumptions.trans hasmps))
    | false =>
      obtain ⟨rfl, rfl⟩ := returns_pure.mp h
      exact settled_of_simplifyPass hpass hasmps herrors hσ hleft

/-- Goals are settled if what simplifying them leaves is. -/
theorem settled_of_simplifyGoals {gs left : List Goal}
    (h : Returns (simplifyGoals gs) c s left s') (hasmps : s.assumptions = asmps)
    (herrors : s'.errors ⊆ errors) (hσ : Solves σ s'.subst)
    (hleft : ∀ l ∈ left, GoalSettled asmps errors σ kept l) :
    ∀ e ∈ gs, GoalSettled asmps errors σ kept e :=
  settled_of_simplifyPasses (returns_get_bind.mp h) hasmps herrors hσ hleft

end GoalSettled

/-! ## Variables of the goals that are kept -/

/-- The variables of the goals that are left are variables of the goals. -/
theorem mem_goalIds_of_simplifyPasses {fuel : Nat} {gs left : List Goal}
    (h : Returns (simplifyPasses fuel gs) c s left s') (hs : s.subst.Triangular) {i : Int}
    (hi : i ∈ goalIds s'.subst left) : i ∈ goalIds s.subst gs := by
  induction fuel generalizing gs s with
  | zero =>
    obtain ⟨rfl, rfl⟩ := returns_pure.mp h
    exact hi
  | succ fuel ih =>
    rw [simplifyPasses, returns_bind] at h
    obtain ⟨⟨gs', improved⟩, s₁, hpass, h⟩ := h
    replace hpass : Pass s.subst s₁.subst gs gs' improved := returns_simplifyPass hpass
    refine hpass.mem_goalIds hs ?_
    cases improved with
    | true => exact ih h (hpass.triangular hs)
    | false =>
      obtain ⟨rfl, rfl⟩ := returns_pure.mp h
      exact hi

theorem mem_goalIds_of_simplifyGoals {gs left : List Goal}
    (h : Returns (simplifyGoals gs) c s left s') (hs : s.subst.Triangular) {i : Int}
    (hi : i ∈ goalIds s'.subst left) : i ∈ goalIds s.subst gs :=
  mem_goalIds_of_simplifyPasses (returns_get_bind.mp h) hs hi

theorem transparent_of_simplifyGoal {e : Goal} {r : List Goal × Bool}
    (h : Returns (simplifyGoal e) c s r s') (hs : s.subst.Triangular)
    (he : (s.subst.apply e.prop).Transparent) :
    ∀ l ∈ r.1, l.prop.Transparent ∧ (s'.subst.apply l.prop).Transparent := by
  have hreaches := (bindsConstants_of_simplifyGoal h).reaches
  unfold simplifyGoal at h
  rw [returns_get_bind] at h
  dsimp only at h
  split at h
  · simp only [returns_bind, returns_pure] at h
    obtain ⟨⟨⟩, _, -, rfl, -⟩ := h
    exact List.forall_mem_nil _
  · rename_i residual hresidual
    rw [returns_set_bind, returns_pure] at h
    rw [h.1]
    intro l hl
    obtain ⟨p, hp, rfl⟩ := List.mem_map.mp hl
    replace hp := (Improvement.from_foldl s.subst residual).rest p (List.mem_reverse.mp hp)
    have htransparent := simplify_inherits Ty.Transparent.inherited hresidual he p hp
    -- what is left mentions no variable that was bound
    have hunbound : ∀ i ∈ p.varIds, s.subst.lookup i = none :=
      within_simplify hresidual (fun _ hi => hs.lookup_of_mem_varIds hi) p hp
    refine ⟨htransparent, hreaches.transparent ?_⟩
    rwa [Subst.apply_of_transparent htransparent hunbound]

theorem transparent_of_simplifyPass {gs : List Goal} {r : List Goal × Bool}
    (h : Returns (simplifyPass gs) c s r s') (hs : s.subst.Triangular)
    (hgs : ∀ e ∈ gs, (s.subst.apply e.prop).Transparent) :
    ∀ l ∈ r.1, l.prop.Transparent ∧ (s'.subst.apply l.prop).Transparent := by
  induction gs generalizing s r with
  | nil =>
    rw [simplifyPass, returns_pure] at h
    rw [h.1]
    exact List.forall_mem_nil _
  | cons e gs ih =>
    simp only [simplifyPass, returns_bind, returns_pure] at h
    obtain ⟨⟨left, b⟩, s₁, hgoal, ⟨lefts, b'⟩, _, hgoals, rfl, rfl⟩ := h
    have hreaches := (bindsConstants_of_simplifyGoal hgoal).reaches
    obtain ⟨he, hgs⟩ := List.forall_mem_cons.mp hgs
    refine List.forall_mem_append.mpr ⟨fun l hl => ?_, ?_⟩
    · obtain ⟨hl, happly⟩ := transparent_of_simplifyGoal hgoal hs he l hl
      exact ⟨hl, (bindsConstants_of_simplifyPass hgoals).reaches.transparent happly⟩
    · exact ih hgoals (hreaches.triangular hs) fun e he => hreaches.transparent (hgs e he)

theorem transparent_of_simplifyPasses {fuel : Nat} {gs left : List Goal}
    (h : Returns (simplifyPasses fuel gs) c s left s') (hs : s.subst.Triangular)
    (hgs : ∀ e ∈ gs, e.prop.Transparent ∧ (s.subst.apply e.prop).Transparent) :
    ∀ l ∈ left, l.prop.Transparent := by
  induction fuel generalizing gs s with
  | zero =>
    obtain ⟨rfl, -⟩ := returns_pure.mp h
    exact fun l hl => (hgs l hl).1
  | succ fuel ih =>
    rw [simplifyPasses, returns_bind] at h
    obtain ⟨⟨gs', improved⟩, s₁, hpass, h⟩ := h
    have hleft := transparent_of_simplifyPass hpass hs fun e he => (hgs e he).2
    cases improved with
    | true => exact ih h ((bindsConstants_of_simplifyPass hpass).reaches.triangular hs) hleft
    | false =>
      obtain ⟨rfl, -⟩ := returns_pure.mp h
      exact fun l hl => (hleft l hl).1

/-- Simplifying transparent goals leaves transparent goals. -/
theorem transparent_of_simplifyGoals {gs left : List Goal}
    (h : Returns (simplifyGoals gs) c s left s') (hs : s.subst.Triangular)
    (hgs : ∀ e ∈ gs, e.prop.Transparent ∧ (s.subst.apply e.prop).Transparent) :
    ∀ l ∈ left, l.prop.Transparent :=
  transparent_of_simplifyPasses (returns_get_bind.mp h) hs hgs

end Infer
end SizedTypes
