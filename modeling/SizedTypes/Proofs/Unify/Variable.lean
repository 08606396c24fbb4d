import SizedTypes.Proofs.Subst.Acyclic
import SizedTypes.Proofs.Subst.Scope
import SizedTypes.Proofs.Ty.Transparent
import SizedTypes.Proofs.Unify.Step

/-!
# Unifying a variable with a type

A variable is unified with a type that is no variable by one binding, which merges into the
substitution under which both have been taken.
-/

set_option autoImplicit false

namespace SizedTypes

namespace Subst

/-- `v` is bound to `t` on top of `s`. -/
def bindVar (s : Subst) (v : TyVar) (t : Ty) : Subst :=
  { bindings := (v, t) :: s.bindings, scopes := s.narrow v t }

theorem mem_scopeOf_bindVar {s : Subst} {v w : TyVar} {t : Ty} {i : Int} (hw : i ∈ s.scopeOf w)
    (hv : i ∈ s.scopeOf v) (ht : ∀ u ∈ t.vars, u.id = w.id → i ∈ s.scopeOf u) :
    i ∈ (s.bindVar v t).scopeOf w := by
  unfold scopeOf bindVar
  rcases find?_narrow s v t w.id with hkept | ⟨u, hu, hid, hcut⟩
  · rw [hkept]
    exact hw
  · rw [hcut]
    exact List.mem_filter.mpr ⟨ht u hu hid, List.contains_iff_mem.mpr hv⟩

theorem apply_of_closed (s : Subst) {t : Ty} (h : t.leafIds = []) : s.apply t = t :=
  apply_eq_self fun i hi => by simp [h] at hi

theorem apply_append {s s' : Subst} {new : List (TyVar × Ty)}
    (h : s'.bindings = new ++ s.bindings) (t : Ty) :
    s'.apply t = ({ bindings := new } : Subst).apply (s.apply t) := by
  rw [apply, h, List.foldr_append]
  rfl

theorem apply_con (s : Subst) (c : Con) (args : List Ty) :
    s.apply (.con c args) = .con c (args.map s.apply) := by
  rw [apply_eq_bind, Ty.bind, Ty.bindList_eq_map]
  exact congrArg _ (List.map_congr_left fun a _ => (apply_eq_bind s a).symm)

/-! ## One binding -/

/-- The variable `v` can be bound to `t`. -/
structure Extends (s : Subst) (v : TyVar) (t : Ty) : Prop where
  unbound : s.lookup v.id = none
  kept : s.apply t = t
  notSelf : t.isFree v.id = false
  fresh : t.occurs v.id = false
  inScope : s.escapedParams v t = []

theorem Extends.extend {s : Subst} {v : TyVar} {t : Ty} (h : s.Extends v t) :
    s.extend v t = .ok (s.bindVar v t) := by
  simp [Subst.extend, h.unbound, h.kept, h.notSelf, h.fresh, h.inScope, bindVar]

theorem Extends.onlyScopes {s : Subst} {v : TyVar} {t : Ty} (h : s.Extends v t) :
    s.onlyScopes.Extends v t :=
  ⟨rfl, rfl, h.notSelf, h.fresh, h.inScope⟩

/-- The unifier that binds one variable. -/
def single (s : Subst) (v : TyVar) (t : Ty) : Subst :=
  { bindings := [(v, t)], scopes := s.narrow v t }

theorem Extends.merge {s : Subst} {v : TyVar} {t : Ty} (h : s.Extends v t) :
    s.merge (s.single v t) = .ok (s.bindVar v t) := by
  have hentries : (s.single v t).entries = [(v, t)] := rfl
  rw [Subst.merge, hentries, List.foldlM_cons, h.extend]
  rfl

/-- Two types are unified by the binding that their first step asks for. -/
theorem Extends.unify {s : Subst} {v : TyVar} {a b t : Ty} (h : s.Extends v t)
    (hstep : Unify.step s.onlyScopes a b = .ok (.assign v t h.fresh)) :
    unify s a b = .ok ⟨s.single v t, []⟩ := by
  have hcommit : Unify.commit s.onlyScopes v t = .ok (s.single v t) := by
    rw [Unify.commit, h.onlyScopes.extend]
    rfl
  have hreduces : Unify.Reduces ⟨s.onlyScopes, [], [(a, b)]⟩ ⟨s.single v t, [], []⟩ :=
    .assign hstep hcommit
  have hsolve : Unify.solve s.onlyScopes [] [(a, b)] = .ok (s.single v t, []) := by
    refine hreduces.solve_eq.trans ?_
    rw [Unify.Problem.solve, Unify.solve]
  rw [SizedTypes.unify, hsolve]

/-! ## Types that are no variable -/

/-- What it takes to bind `v` to `t`, which is no variable. -/
structure Binds (s : Subst) (v : TyVar) (t : Ty) : Prop where
  unbound : s.lookup v.id = none
  kind : t.kindOf = v.kind
  known : ∀ w, t.expand ≠ .free w
  leaves : ∀ i ∈ t.leafIds, s.lookup i = none ∧ i ≠ v.id
  inScope : ∀ p ∈ t.params, p.id ∈ s.scopeOf v

variable {s : Subst} {v : TyVar} {t : Ty}

theorem Binds.expand (h : s.Binds v t) : s.Binds v t.expand where
  unbound := h.unbound
  kind := (Ty.kindOf_expand t).trans h.kind
  known w := by
    rw [Ty.expand_expand]
    exact h.known w
  leaves i hi := h.leaves i (Ty.mem_leafIds_of_expand hi)
  inScope p hp := h.inScope p (Ty.params_expand t ▸ hp)

theorem Binds.occurs (h : s.Binds v t) : t.occurs v.id = false := by
  refine Bool.eq_false_iff.mpr fun hocc => ?_
  exact (h.leaves v.id (Ty.mem_leafIds_of_mem_varIds (by simpa [Ty.occurs] using hocc))).2 rfl

theorem Binds.apply (h : s.Binds v t) : s.apply t = t := apply_eq_self fun i hi => (h.leaves i hi).1

theorem Binds.extends (h : s.Binds v t) (hfree : t.isFree v.id = false) : s.Extends v t where
  unbound := h.unbound
  kept := h.apply
  notSelf := hfree
  fresh := h.occurs
  inScope := escapedParams_eq_nil.mpr h.inScope

theorem Binds.isFree (h : s.Binds v t) : t.expand.isFree v.id = false := by
  refine Bool.eq_false_iff.mpr fun hfree => ?_
  obtain ⟨w, hw, -⟩ := isFree_iff.mp hfree
  exact h.known w hw

theorem Binds.extends_expand (h : s.Binds v t) : s.Extends v t.expand := h.expand.extends h.isFree

/-- A variable is unified with a type by binding it to the type without synonyms around it. -/
theorem Binds.unify (h : s.Binds v t) :
    unify s (.free v) t = .ok ⟨s.single v t.expand, []⟩ := by
  refine h.extends_expand.unify ?_
  have hchecked : Unify.bindChecked s.onlyScopes v t.expand =
      .ok (.assign v t.expand h.expand.occurs) := by
    simp [Unify.bindChecked, h.expand.kind, h.expand.occurs, h.extends_expand.onlyScopes.inScope]
  have hknown := h.known
  unfold Unify.step
  rw [if_neg (by simp [Unify.sameSynonym])]
  show Unify.bindVar s.onlyScopes v t.expand = _
  unfold Unify.bindVar
  split
  · rename_i w heq
    exact absurd heq (hknown w)
  · exact hchecked

theorem Binds.merge (h : s.Binds v t) :
    s.merge (s.single v t.expand) = .ok (s.bindVar v t.expand) :=
  h.extends_expand.merge

/-! ## Variables -/

/-- A variable stands for no parameters, so only the other variable has to be unbound. -/
theorem extends_variable {w : TyVar} (hv : s.lookup v.id = none) (hw : s.lookup w.id = none)
    (hne : w.id ≠ v.id) : s.Extends v (.free w) where
  unbound := hv
  kept := apply_free_of_unbound hw
  notSelf := by simpa [Ty.isFree] using hne
  fresh := by simpa [Ty.occurs, Ty.varIds, Ty.vars] using hne.symm
  inScope := rfl

/-- Of two variables of a kind, one is bound to the other. -/
theorem exists_unify_variables {w : TyVar} (ht : t.expand = .free w) (hv : s.lookup v.id = none)
    (hw : s.lookup w.id = none) (hne : w.id ≠ v.id) (hkind : w.kind = v.kind) :
    ∃ x u, s.Extends x u ∧ SizedTypes.unify s (.free v) t = .ok ⟨s.single x u, []⟩ := by
  have hstep : Unify.step s.onlyScopes (.free v) t = Unify.bindVar s.onlyScopes v (.free w) := by
    unfold Unify.step
    rw [if_neg (by simp [Unify.sameSynonym]), ht]
    rfl
  have hvw := extends_variable (s := s) hv hw hne
  have hwv := extends_variable (s := s) hw hv hne.symm
  simp only [Unify.bindVar, dif_neg hne] at hstep
  by_cases hwider : v.kind = w.kind ∧
      Unify.scopeWithin (s.onlyScopes.scopeOf v) (s.onlyScopes.scopeOf w) = true
  · rw [if_pos hwider] at hstep
    exact ⟨w, .free v, hwv, hwv.unify hstep⟩
  · rw [if_neg hwider] at hstep
    refine ⟨v, .free w, hvw, hvw.unify (hstep.trans ?_)⟩
    have hkind' : (Ty.free w).kindOf = v.kind := hkind
    simp [Unify.bindChecked, hkind', hvw.fresh, hvw.onlyScopes.inScope]

/-- What it takes to unify the unbound variable `v` with `t`: `Binds`, where `t` may be another
variable. -/
structure Takes (s : Subst) (v : TyVar) (t : Ty) : Prop where
  unbound : s.lookup v.id = none
  kind : t.kindOf = v.kind
  leaves : ∀ i ∈ t.leafIds, s.lookup i = none ∧ i ≠ v.id
  inScope : ∀ p ∈ t.params, p.id ∈ s.scopeOf v

theorem Takes.apply (h : s.Takes v t) : s.apply t = t := apply_eq_self fun i hi => (h.leaves i hi).1

/-- A variable is unified with what it takes by one binding. -/
theorem Takes.exists_unify (h : s.Takes v t) :
    ∃ x u, s.Extends x u ∧ SizedTypes.unify s (.free v) t = .ok ⟨s.single x u, []⟩ := by
  by_cases hknown : ∃ w, t.expand = .free w
  · obtain ⟨w, hw⟩ := hknown
    have hleaf : w.id ∈ t.leafIds := Ty.mem_leafIds_of_expand (by
      rw [hw]
      exact List.mem_singleton_self _)
    have hkind : w.kind = v.kind := by
      rw [← h.kind, ← Ty.kindOf_expand, hw]
      rfl
    obtain ⟨hunbound, hne⟩ := h.leaves w.id hleaf
    exact exists_unify_variables hw h.unbound hunbound hne hkind
  · have hbinds : s.Binds v t :=
      ⟨h.unbound, h.kind, fun w hw => hknown ⟨w, hw⟩, h.leaves, h.inScope⟩
    exact ⟨v, t.expand, hbinds.extends_expand, hbinds.unify⟩

end Subst

end SizedTypes
