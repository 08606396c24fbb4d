import SizedTypes.Proofs.Infer.Goals.Settled
import SizedTypes.Proofs.Infer.Resolve
import SizedTypes.Proofs.Simplify.Replacement

/-!
# Defaults are safe

A variable that gets a default is bound to a constant of its kind, with one warning. The default is
tried on the goals that mention the variable under the substitution so far; the other goals do not
change, so no default makes a goal unsolvable, in whatever order the variables come.
-/

set_option autoImplicit false

namespace SizedTypes

/-- Whether a goal is refuted does not depend on synonyms. -/
theorem isOk_simplify_congr {A : Assumptions} {p q : Ty} (h : p.shape = q.shape) :
    (simplify p A).isOk = (simplify q A).isOk := by
  have hshapes := Simplify.shapes_simplify_congr (A := A) h
  cases hp : simplify p A <;> cases hq : simplify q A <;>
    simp_all [Simplify.shapes, Except.toOption, Except.isOk, Except.toBool]

namespace Infer

variable {c : Context} {s : State} {θ θ' : Subst} {asmps : Assumptions} {goals : List Goal}
  {v : TyVar} {t : Ty}

/-- A default for a variable that is not bound: a closed type of its kind. -/
structure IsDefault (θ : Subst) (b : TyVar × Ty) : Prop where
  unbound : θ.lookup b.1.id = none
  kind : b.2.kindOf = b.1.kind
  closed : b.2.vars = [] ∧ b.2.params = []

/-- The goal is not refuted. -/
def Solvable (θ : Subst) (asmps : Assumptions) (g : Goal) : Prop :=
  (simplify (θ.apply g.prop) asmps).isOk = true

/-- The state after variables got defaults, with a warning for each. -/
def State.withDefaults (s : State) (range : Range) (new : List (TyVar × Ty)) : State :=
  { s with
    subst := { s.subst with bindings := new.reverse ++ s.subst.bindings }
    warnings := s.warnings ++ new.map fun b => ⟨range, .defaulting b.1 b.2⟩
    events := s.events ++ new.map fun b => .defaulted b.1.display b.2.text }

/-! ## One variable -/

theorem kindOf_defaultFor {props : List Ty} (h : defaultFor v props = some t) :
    t.kindOf = v.kind := by
  unfold defaultFor at h
  split at h
  · cases h
  · split at h
    · rename_i hkind
      cases h
      exact hkind.symm
    · rename_i hkind
      obtain ⟨cs, -, rfl⟩ := Option.map_eq_some_iff.mp h
      split <;> exact hkind.symm
    · cases h

/-- A constant extends the substitution by one binding, and narrows no scope. -/
theorem extended_of_constant (h : θ.extend v t = .ok θ') (ht : Subst.ToConstant v t) :
    θ.apply t = t ∧ Subst.Extended θ v t θ' ∧ θ' = { θ with bindings := (v, t) :: θ.bindings } := by
  obtain ⟨d, rfl⟩ := ht
  have happly : θ.apply (.con d []) = .con d [] :=
    Subst.apply_eq_self fun _ hi => (List.not_mem_nil hi).elim
  rcases Subst.extend_eq_ok h with ⟨-, -, hshape⟩ | hext
  · rw [happly, Ty.shape_con] at hshape
    cases hshape
  · refine ⟨happly, hext, ?_⟩
    rw [hext.eq, happly]
    rfl

/-- What taking a default means for the substitution and for the goals. -/
theorem defaulted?_spec (hθ : θ.Triangular) (h : defaulted? θ asmps goals v = some (θ', t)) :
    IsDefault θ (v, t) ∧ θ' = { θ with bindings := (v, t) :: θ.bindings } ∧
      ∀ g ∈ goals, Solvable θ asmps g → Solvable θ' asmps g := by
  obtain ⟨happly, hext, hθ'⟩ :=
    extended_of_constant (defaulted?_eq_some h).1 (constant_of_defaulted h)
  obtain ⟨d, rfl⟩ := constant_of_defaulted h
  unfold defaulted? at h
  split at h
  · cases h
  simp only [Option.bind_eq_bind, Option.bind_eq_some_iff] at h
  obtain ⟨u, hu, trial, htrial, h⟩ := h
  split at h
  case isFalse => cases h
  rename_i hall
  cases h
  refine ⟨⟨hext.unbound, kindOf_defaultFor hu, rfl, rfl⟩, hθ', fun g hg hsolvable => ?_⟩
  have hstep (p : Ty) : (θ'.apply p).shape =
      (θ.apply p).shape.subst (Shape.single v.id (Ty.con d []).shape) := by
    rw [hext.apply, Ty.shape_replace, happly]
  by_cases hmentions : (θ.apply g.prop).mentions [v.id] = true
  · -- the default was tried on this goal, under the substitution that had been applied before
    have htried := List.all_eq_true.mp hall _
      (List.mem_filter.mpr ⟨List.mem_map_of_mem hg, hmentions⟩)
    have hshape : (θ'.apply (θ.apply g.prop)).shape = (θ'.apply g.prop).shape := by
      rw [hstep, hstep, hθ.apply_apply]
    rw [Solvable, ← isOk_simplify_congr hshape]
    exact htried
  · have hfresh : v.id ∉ (θ.apply g.prop).varIds := by
      intro hmem
      exact hmentions (List.any_eq_true.mpr ⟨v.id, hmem, by simp⟩)
    have hshape : (θ'.apply g.prop).shape = (θ.apply g.prop).shape := by
      rw [hstep]
      refine Shape.subst_eq_self fun i hi => ?_
      rw [← Ty.varIds_eq_shape] at hi
      exact if_neg fun heq : i = v.id => hfresh (heq ▸ hi)
    rw [Solvable, isOk_simplify_congr hshape]
    exact hsolvable

theorem State.withDefaults_nil (s : State) (range : Range) : s.withDefaults range [] = s := by
  simp [State.withDefaults]

theorem State.withDefaults_append (s : State) (range : Range) (new rest : List (TyVar × Ty)) :
    (s.withDefaults range new).withDefaults range rest = s.withDefaults range (new ++ rest) := by
  simp [State.withDefaults]

/-- A variable keeps its place among the unknown ones, or it gets a default. -/
theorem returns_defaultVar (c : Context) (goals : List Goal) (v : TyVar)
    (hs : s.subst.Triangular) :
    Returns (defaultVar goals v) c s ⟨⟩ s ∨
      ∃ t, Returns (defaultVar goals v) c s ⟨⟩ (s.withDefaults c.range [(v, t)]) ∧
        IsDefault s.subst (v, t) ∧ ∀ g ∈ goals, Solvable s.subst s.assumptions g →
          Solvable (s.withDefaults c.range [(v, t)]).subst s.assumptions g := by
  unfold defaultVar
  simp only [returns_get_bind]
  cases hdefault : defaulted? s.subst s.assumptions goals v with
  | none => exact Or.inl (returns_pure.mpr ⟨rfl, rfl⟩)
  | some r =>
    obtain ⟨θ, t⟩ := r
    obtain ⟨hisdefault, rfl, hsolvable⟩ := defaulted?_spec hs hdefault
    exact Or.inr ⟨t, rfl, hisdefault, hsolvable⟩

/-! ## Several variables -/

theorem IsDefault.triangular {b : TyVar × Ty} (h : IsDefault θ b) (hθ : θ.Triangular) :
    Subst.Triangular { θ with bindings := b :: θ.bindings } := by
  have hvars : b.2.varIds = [] := by rw [Ty.varIds, h.closed.1, List.map_nil]
  refine ⟨by simp [hvars], fun e he => ⟨?_, by simp [hvars]⟩, hθ⟩
  exact Subst.lookup_eq_none_iff.mp h.unbound e he

/-- Defaults are taken one after the other; each keeps solvable what the ones before kept. -/
theorem returns_defaults (c : Context) (goals : List Goal) (vs : List TyVar)
    (hs : s.subst.Triangular) :
    ∃ new, Returns (vs.forM (defaultVar goals)) c s ⟨⟩ (s.withDefaults c.range new) ∧
      (∀ b ∈ new, b.1 ∈ vs ∧ IsDefault s.subst b) ∧ (new.map fun b => b.1.id).Nodup ∧
      ∀ g ∈ goals, Solvable s.subst s.assumptions g →
        Solvable (s.withDefaults c.range new).subst s.assumptions g := by
  induction vs generalizing s with
  | nil =>
    refine ⟨[], ?_, by simp, by simp, fun g _ hg => ?_⟩
    · rw [State.withDefaults_nil]
      exact returns_pure.mpr ⟨rfl, rfl⟩
    · rwa [State.withDefaults_nil]
  | cons v vs ih =>
    simp only [List.forM_eq_forM, List.forM_cons, returns_bind] at ih ⊢
    rcases returns_defaultVar c goals v hs with hv | ⟨t, hv, hdefault, hkeeps⟩
    · obtain ⟨new, hvs, hnew, hnodup, hsolvable⟩ := ih hs
      refine ⟨new, ⟨⟨⟩, s, hv, hvs⟩, fun b hb => ?_, hnodup, hsolvable⟩
      exact ⟨List.mem_cons_of_mem _ (hnew b hb).1, (hnew b hb).2⟩
    · have htri : (s.withDefaults c.range [(v, t)]).subst.Triangular := hdefault.triangular hs
      obtain ⟨new, hvs, hnew, hnodup, hsolvable⟩ := ih htri
      rw [State.withDefaults_append] at hvs hsolvable
      have hunbound : ∀ b ∈ new, b.1.id ≠ v.id ∧ s.subst.lookup b.1.id = none := by
        intro b hb
        have hnone := Subst.lookup_eq_none_iff.mp (hnew b hb).2.unbound
        refine ⟨fun heq => hnone (v, t) (List.mem_cons_self ..) heq.symm, ?_⟩
        exact Subst.lookup_eq_none_iff.mpr fun e he => hnone e (List.mem_cons_of_mem _ he)
      refine ⟨(v, t) :: new, ⟨⟨⟩, _, hv, hvs⟩, ?_, ?_, fun g hg h => ?_⟩
      · refine List.forall_mem_cons.mpr ⟨⟨List.mem_cons_self .., hdefault⟩, fun b hb => ?_⟩
        obtain ⟨hmem, hb'⟩ := hnew b hb
        exact ⟨List.mem_cons_of_mem _ hmem, { hb' with unbound := (hunbound b hb).2 }⟩
      · refine List.nodup_cons.mpr ⟨fun hmem => ?_, hnodup⟩
        obtain ⟨b, hb, heq⟩ := List.mem_map.mp hmem
        exact (hunbound b hb).1 heq
      · exact hsolvable g hg (hkeeps g hg h)

/-- Taking defaults never fails. It binds some of the variables, each once, to closed types of their
kinds, and changes nothing else but for one warning for each of them that names the default; and a
goal that was not refuted before is not refuted afterwards. -/
theorem defaultVars_safe (c : Context) {s : State} (hs : s.subst.Triangular) (vs : List TyVar)
    (goals : List Goal) :
    ∃ new : List (TyVar × Ty),
      (defaultVars vs goals).exec c s = (.ok (), s.withDefaults c.range new) ∧
      (∀ b ∈ new, b.1 ∈ vs ∧ IsDefault s.subst b) ∧ (new.map fun b => b.1.id).Nodup ∧
      ∀ g ∈ goals, Solvable s.subst s.assumptions g →
        Solvable (s.withDefaults c.range new).subst (s.withDefaults c.range new).assumptions g := by
  obtain ⟨new, hrun, hnew, hnodup, hsolvable⟩ := returns_defaults c goals (Ty.dedupVars [] vs) hs
  refine ⟨new, hrun, fun b hb => ?_, hnodup, hsolvable⟩
  exact ⟨Ty.mem_dedupVars (hnew b hb).1, (hnew b hb).2⟩

/-- `?1 >= 3` and `fin (?1 + ?3)`. -/
def boundedLength : List Goal :=
  [⟨.literal, .empty, .geq (lengthVar 1) (.num 3)⟩,
    ⟨.literal, .empty, .fin (.op .add [lengthVar 1, lengthVar 3])⟩]

/-- The length is defaulted to its lower bound. -/
theorem defaultVars_safe_boundedLength :
    let s : State := { supply := .default, nextTypeVar := 4, nextGoal := 0 }
    let v : TyVar := { id := 1, kind := .num }
    (defaultVars [v] boundedLength).exec emptyContext s =
        (.ok (), s.withDefaults .empty [(v, .num 3)]) ∧
      ∃ new, (defaultVars [v] boundedLength).exec emptyContext s =
          (.ok (), s.withDefaults .empty new) ∧
        ∀ g ∈ boundedLength, Solvable s.subst s.assumptions g →
          Solvable (s.withDefaults .empty new).subst s.assumptions g := by
  intro s v
  have hrun : (defaultVars [v] boundedLength).exec emptyContext s =
      (.ok (), s.withDefaults .empty [(v, .num 3)]) := by cbv
  obtain ⟨new, hnew, -, -, hsolvable⟩ :=
    defaultVars_safe emptyContext (s := s) Subst.triangular_empty [v] boundedLength
  exact ⟨hrun, new, hnew, hsolvable⟩

end Infer
end SizedTypes
