import SizedTypes.Infer.Defaulting
import SizedTypes.Proofs.Infer.Monad
import SizedTypes.Proofs.Simplify.Variables
import SizedTypes.Proofs.Subst.WellFormed

/-!
# Goals after simplification

Simplification binds variables to sizes only, so no type gains a variable by it. Passes over goals
end with one that binds nothing: every other pass takes a variable from the goals. So what is left
of the goals mentions no variable that is bound.
-/

set_option autoImplicit false

namespace SizedTypes

/-- A variable that is bound does not occur any more. -/
theorem Subst.Extended.not_mem_varIds {θ θ' : Subst} {v : TyVar} {t : Ty} (h : Extended θ v t θ')
    (hθ : θ.Triangular) (u : Ty) : v.id ∉ (θ'.apply u).varIds := by
  intro hv
  have hnone := (h.triangular hθ).lookup_of_mem_varIds hv
  rw [Subst.lookup_eq_none_iff, h.eq] at hnone
  exact hnone _ (List.mem_cons_self ..) rfl

theorem Size.varIds_toTy (m : Size) : m.toTy.varIds = [] := by
  cases m <;> rfl

theorem Subst.varIds_apply_eq_nil {θ : Subst} {t : Ty} (h : t.varIds = []) :
    (θ.apply t).varIds = [] := by
  rw [Ty.varIds, vars_apply_eq_self]
  · exact h
  · rw [h]
    exact fun _ hi => nomatch hi

/-- A closed type in place of a variable brings in no variables. -/
theorem Subst.Extended.varIds {θ θ' : Subst} {v : TyVar} {u : Ty} (h : Extended θ v u θ')
    (hu : u.varIds = []) (t : Ty) {j : Int} (hj : j ∈ (θ'.apply t).varIds) :
    j ∈ (θ.apply t).varIds := by
  have happly : θ'.apply t = (θ.apply t).replace v.id (θ.apply u) := by rw [h.eq]; rfl
  rw [happly] at hj
  rcases Ty.mem_vars_replace _ hj with ⟨hj, -⟩ | hj
  · exact hj
  · rw [varIds_apply_eq_nil hu] at hj
    cases hj

/-! ## Residual predicates of one goal -/

/-- What absorbing residual predicates comes to, from the substitution `θ` on. -/
structure Improvement.From (θ : Subst) (residual : List Ty) (i : Improvement) : Prop where
  triangular : θ.Triangular → i.subst.Triangular
  vars : ∀ t j, j ∈ (i.subst.apply t).varIds → j ∈ (θ.apply t).varIds
  rest : ∀ r ∈ i.rest, r ∈ residual
  same : i.improved = false → i.subst = θ
  gone : θ.Triangular → i.improved = true →
    ∃ r ∈ residual, ∃ v ∈ r.varIds, ∀ t, v ∉ (i.subst.apply t).varIds

theorem Improvement.From.start (θ : Subst) : From θ [] { subst := θ } where
  triangular h := h
  vars _ _ hj := hj
  rest _ hr := nomatch hr
  same _ := rfl
  gone _ h := nomatch h

theorem Improvement.From.absorb {θ : Subst} {residual : List Ty} {i : Improvement}
    (h : From θ residual i) (goal : Ty) : From θ (residual ++ [goal]) (i.absorb goal) := by
  have hkept : From θ (residual ++ [goal]) { i with rest := goal :: i.rest } := by
    refine ⟨h.triangular, h.vars, ?_, h.same, fun hθ himp => ?_⟩
    · exact List.forall_mem_cons.mpr ⟨by simp, fun r hr => List.mem_append_left _ (h.rest r hr)⟩
    · obtain ⟨r, hr, hv⟩ := h.gone hθ himp
      exact ⟨r, List.mem_append_left _ hr, hv⟩
  unfold Improvement.absorb
  split
  · exact hkept
  · rename_i v t himprove
    obtain ⟨hv, m, rfl⟩ := improve_spec himprove
    split
    · rename_i θ' hextend
      rcases Subst.extend_eq_ok hextend with ⟨-, -, hshape⟩ | hext
      · -- a size is not the variable itself
        rw [Subst.shape_apply_eq_self (by rw [m.varIds_toTy]; exact fun _ hi => nomatch hi)] at hshape
        cases m <;> cases hshape
      · refine ⟨fun hθ => hext.triangular (h.triangular hθ),
          fun t j hj => h.vars t j (hext.varIds m.varIds_toTy t hj),
          fun r hr => List.mem_append_left _ (h.rest r hr), (fun himp => nomatch himp),
          fun hθ _ => ?_⟩
        exact ⟨goal, by simp, v.id, hv, hext.not_mem_varIds (h.triangular hθ)⟩
    · exact hkept

theorem Improvement.from_foldl (θ : Subst) (residual : List Ty) :
    From θ residual (residual.foldl Improvement.absorb { subst := θ }) := by
  have key : ∀ (rest before : List Ty) (i : Improvement), From θ before i →
      From θ (before ++ rest) (rest.foldl Improvement.absorb i) := by
    intro rest
    induction rest with
    | nil =>
      intro before i hi
      rwa [List.append_nil]
    | cons r rest ih =>
      intro before i hi
      have hall := ih (before ++ [r]) (i.absorb r) (hi.absorb r)
      rwa [List.append_assoc, List.singleton_append] at hall
  exact key residual [] _ (.start θ)

namespace Infer

variable {c : Context} {s s' : State}

theorem subst_of_recordError {e : TypeError} {a : Unit} (h : Returns (recordError e) c s a s') :
    s'.subst = s.subst := by
  unfold recordError currentRange at h
  simp only [bind_assoc, returns_read_bind, pure_bind, returns_modify] at h
  rw [h]

/-! ## Passes -/

/-- What simplifying the goals `gs` once comes to, from the substitution `θ` to `θ'`. -/
structure Pass (θ θ' : Subst) (gs left : List Goal) (improved : Bool) : Prop where
  triangular : θ.Triangular → θ'.Triangular
  vars : ∀ t j, j ∈ (θ'.apply t).varIds → j ∈ (θ.apply t).varIds
  left : ∀ l ∈ left, ∃ g ∈ gs, ∀ i ∈ l.prop.varIds, i ∈ (θ.apply g.prop).varIds
  same : improved = false → θ' = θ
  gone : θ.Triangular → improved = true →
    ∃ g ∈ gs, ∃ v ∈ (θ.apply g.prop).varIds, ∀ t, v ∉ (θ'.apply t).varIds

/-- A pass that leaves nothing and binds nothing. -/
theorem Pass.nothing (θ : Subst) (gs : List Goal) : Pass θ θ gs [] false where
  triangular h := h
  vars _ _ hj := hj
  left _ hl := nomatch hl
  same _ := rfl
  gone _ himp := nomatch himp

theorem returns_simplifyGoal {g : Goal} {r : List Goal × Bool}
    (h : Returns (simplifyGoal g) c s r s') : Pass s.subst s'.subst [g] r.1 r.2 := by
  unfold simplifyGoal at h
  rw [returns_get_bind] at h
  dsimp only at h
  split at h
  · simp only [returns_bind, returns_pure] at h
    obtain ⟨⟨⟩, _, herror, rfl, rfl⟩ := h
    rw [subst_of_recordError herror]
    exact .nothing ..
  · rename_i residual hresidual
    rw [returns_set_bind, returns_pure] at h
    obtain ⟨rfl, rfl⟩ := h
    have hwithin := within_simplify hresidual (S := (· ∈ (s.subst.apply g.prop).varIds)) fun _ hi => hi
    have hi := Improvement.from_foldl s.subst residual
    refine ⟨hi.triangular, hi.vars, fun l hl => ?_, hi.same, fun hs himp => ?_⟩
    · obtain ⟨p, hp, rfl⟩ := List.mem_map.mp hl
      exact ⟨g, by simp, hwithin p (hi.rest p (List.mem_reverse.mp hp))⟩
    · obtain ⟨p, hp, v, hv, hgone⟩ := hi.gone hs himp
      exact ⟨g, by simp, v, hwithin p hp v hv, hgone⟩

theorem Pass.append {θ θ₁ θ' : Subst} {g : Goal} {gs left lefts : List Goal} {b b' : Bool}
    (h : Pass θ θ₁ [g] left b) (h' : Pass θ₁ θ' gs lefts b') :
    Pass θ θ' (g :: gs) (left ++ lefts) (b || b') where
  triangular hθ := h'.triangular (h.triangular hθ)
  vars t j hj := h.vars t j (h'.vars t j hj)
  left l hl := by
    rcases List.mem_append.mp hl with hl | hl
    · obtain ⟨e, he, hvars⟩ := h.left l hl
      exact ⟨e, List.mem_cons.mpr (Or.inl (List.mem_singleton.mp he)), hvars⟩
    · obtain ⟨e, he, hvars⟩ := h'.left l hl
      exact ⟨e, List.mem_cons_of_mem _ he, fun i hi => h.vars _ i (hvars i hi)⟩
  same himp := by
    rw [Bool.or_eq_false_iff] at himp
    rw [h'.same himp.2, h.same himp.1]
  gone hθ himp := by
    rcases Bool.or_eq_true_iff.mp himp with himp | himp
    · obtain ⟨e, he, v, hv, hgone⟩ := h.gone hθ himp
      refine ⟨e, List.mem_cons.mpr (Or.inl (List.mem_singleton.mp he)), v, hv, fun t hmem => ?_⟩
      exact hgone t (h'.vars t v hmem)
    · obtain ⟨e, he, v, hv, hgone⟩ := h'.gone (h.triangular hθ) himp
      exact ⟨e, List.mem_cons_of_mem _ he, v, h.vars _ v hv, hgone⟩

theorem returns_simplifyPass {gs : List Goal} {r : List Goal × Bool}
    (h : Returns (simplifyPass gs) c s r s') : Pass s.subst s'.subst gs r.1 r.2 := by
  induction gs generalizing s r with
  | nil =>
    rw [simplifyPass, returns_pure] at h
    obtain ⟨rfl, rfl⟩ := h
    exact .nothing ..
  | cons g gs ih =>
    simp only [simplifyPass, returns_bind, returns_pure] at h
    obtain ⟨⟨left, b⟩, s₁, hg, ⟨lefts, b'⟩, _, hgs, rfl, rfl⟩ := h
    exact (returns_simplifyGoal hg).append (ih hgs)

/-- The variables of goals under a substitution. -/
def goalIds (θ : Subst) (gs : List Goal) : List Int := gs.flatMap fun g => (θ.apply g.prop).varIds

theorem Pass.mem_goalIds {θ θ' : Subst} {gs left : List Goal} {b : Bool} (h : Pass θ θ' gs left b)
    (hθ : θ.Triangular) {i : Int} (hi : i ∈ goalIds θ' left) : i ∈ goalIds θ gs := by
  obtain ⟨l, hl, hi⟩ := List.mem_flatMap.mp hi
  obtain ⟨g, hg, hvars⟩ := h.left l hl
  refine List.mem_flatMap.mpr ⟨g, hg, hvars i ?_⟩
  -- what is left of the goal has variables that were not bound
  have hself : (θ.apply l.prop).varIds = l.prop.varIds := by
    rw [Ty.varIds, Subst.vars_apply_eq_self fun j hj => hθ.lookup_of_mem_varIds (hvars j hj)]
    rfl
  exact hself ▸ h.vars l.prop i hi

/-- A pass that binds takes a variable from the goals. -/
theorem Pass.distinctCount_lt {θ θ' : Subst} {gs left : List Goal} (h : Pass θ θ' gs left true)
    (hθ : θ.Triangular) : distinctCount (goalIds θ' left) < distinctCount (goalIds θ gs) := by
  obtain ⟨g, hg, v, hv, hgone⟩ := h.gone hθ rfl
  refine distinctCount_lt_of_subset (fun i hi => h.mem_goalIds hθ hi)
    (List.mem_flatMap.mpr ⟨g, hg, hv⟩) fun hmem => ?_
  obtain ⟨l, -, hl⟩ := List.mem_flatMap.mp hmem
  exact hgone l.prop hl

/-- What at most `fuel` passes over the goals `gs` come to, from the substitution `θ` to `θ'`. -/
structure Passes (fuel : Nat) (θ θ' : Subst) (gs left : List Goal) : Prop where
  triangular : θ.Triangular → θ'.Triangular
  vars : ∀ t j, j ∈ (θ'.apply t).varIds → j ∈ (θ.apply t).varIds
  left : θ.Triangular → distinctCount (goalIds θ gs) < fuel →
    ∀ l ∈ left, ∀ i ∈ l.prop.varIds, θ'.lookup i = none

theorem returns_simplifyPasses {fuel : Nat} {gs left : List Goal}
    (h : Returns (simplifyPasses fuel gs) c s left s') :
    Passes fuel s.subst s'.subst gs left := by
  induction fuel generalizing gs s with
  | zero =>
    rw [simplifyPasses, returns_pure] at h
    obtain ⟨rfl, rfl⟩ := h
    exact ⟨fun hs => hs, fun _ _ hj => hj, fun _ hfuel => absurd hfuel (Nat.not_lt_zero _)⟩
  | succ fuel ih =>
    rw [simplifyPasses, returns_bind] at h
    obtain ⟨⟨gs', improved⟩, s₁, hpass, h⟩ := h
    replace hpass : Pass s.subst s₁.subst gs gs' improved := returns_simplifyPass hpass
    cases improved with
    | true =>
      have hrest := ih h
      refine ⟨fun hs => hrest.triangular (hpass.triangular hs),
        fun t j hj => hpass.vars t j (hrest.vars t j hj), fun hs hfuel => ?_⟩
      have hlt := hpass.distinctCount_lt hs
      exact hrest.left (hpass.triangular hs) (by omega)
    | false =>
      replace h : Returns (pure gs') c s₁ left s' := h
      rw [returns_pure] at h
      obtain ⟨rfl, rfl⟩ := h
      refine ⟨hpass.triangular, hpass.vars, fun hs _ l hl i hi => ?_⟩
      obtain ⟨g, -, hvars⟩ := hpass.left l hl
      have hnone := hs.lookup_of_mem_varIds (hvars i hi)
      rwa [← hpass.same rfl] at hnone

theorem distinctCount_le_length (l : List Int) : distinctCount l ≤ l.length := by
  induction l with
  | nil => rfl
  | cons x l ih =>
    rw [distinctCount, List.length_cons]
    split <;> omega

/-- Simplification lets no type gain a variable, and what it leaves of the goals mentions no
variable that is bound. -/
theorem returns_simplifyGoals {gs left : List Goal} (h : Returns (simplifyGoals gs) c s left s') :
    (∀ t j, j ∈ (s'.subst.apply t).varIds → j ∈ (s.subst.apply t).varIds) ∧
      (s.subst.Triangular → s'.subst.Triangular ∧
        ∀ l ∈ left, ∀ i ∈ l.prop.varIds, s'.subst.lookup i = none) := by
  unfold simplifyGoals at h
  rw [returns_get_bind] at h
  have hpasses := returns_simplifyPasses h
  refine ⟨hpasses.vars, fun hs => ⟨hpasses.triangular hs, hpasses.left hs (Nat.lt_succ_of_le ?_)⟩⟩
  refine (distinctCount_le_of_subset fun i hi => ?_).trans (distinctCount_le_length _)
  rw [Ty.freeIds, List.mem_eraseDups, List.flatMap_map]
  exact hi

end Infer
end SizedTypes
