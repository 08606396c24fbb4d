import SizedTypes.Proofs.Table
import SizedTypes.Proofs.Ty.Shape
import SizedTypes.Subst

/-!
# Substitutions as maps on shapes

A substitution sends each variable to a shape, its image. A map `σ` solves a substitution if it
agrees with every binding; then it absorbs the substitution. The substitutions of a run are
triangular: the type of a binding mentions neither its own variable nor one bound before it. A
triangular substitution solves itself, so applying it twice is applying it once, and extending it
gives a solution of what was there before.
-/

set_option autoImplicit false

namespace SizedTypes

open Shape (single)

namespace Subst

/-! ## Images -/

/-- The shape of a variable under bindings, the newest first. -/
def imageOf (bs : List (TyVar × Ty)) (i : Int) : Shape :=
  bs.foldr (fun b u => u.subst (single b.1.id b.2.shape)) (.var i)

/-- The shape of a variable under a substitution. -/
def image (s : Subst) : Int → Shape := imageOf s.bindings

theorem imageOf_cons (b : TyVar × Ty) (bs : List (TyVar × Ty)) (i : Int) :
    imageOf (b :: bs) i = (imageOf bs i).subst (single b.1.id b.2.shape) := rfl

theorem shape_foldr_replace (bs : List (TyVar × Ty)) (t : Ty) :
    (bs.foldr (fun b u => u.replace b.1.id b.2) t).shape = t.shape.subst (imageOf bs) := by
  induction bs with
  | nil => exact (Shape.subst_self _).symm
  | cons b bs ih =>
    rw [List.foldr_cons, Ty.shape_replace, ih, Shape.subst_subst]
    rfl

/-- Applying a substitution to a type replaces the variables of its shape by their images. -/
theorem shape_apply (s : Subst) (t : Ty) : (s.apply t).shape = t.shape.subst s.image :=
  shape_foldr_replace s.bindings t

/-! ## Solutions -/

/-- `σ` agrees with every binding. -/
def Solves (σ : Int → Shape) (s : Subst) : Prop :=
  ∀ b ∈ s.bindings, σ b.1.id = b.2.shape.subst σ

theorem subst_single_of_eq {σ : Int → Shape} {v : Int} {u : Shape} (h : σ v = u.subst σ) (i : Int) :
    (single v u i).subst σ = σ i := by
  by_cases hi : i = v
  · rw [single, if_pos hi, hi, h]
  · rw [single, if_neg hi, Shape.subst_var]

theorem shape_replace_of_eq {σ : Int → Shape} {v : Int} {u : Ty} (h : σ v = u.shape.subst σ)
    (t : Ty) : (t.replace v u).shape.subst σ = t.shape.subst σ := by
  rw [Ty.shape_replace, Shape.subst_subst]
  exact Shape.subst_congr fun i _ => subst_single_of_eq h i

theorem imageOf_subst {σ : Int → Shape} {bs : List (TyVar × Ty)}
    (h : ∀ b ∈ bs, σ b.1.id = b.2.shape.subst σ) (i : Int) :
    (imageOf bs i).subst σ = σ i := by
  induction bs with
  | nil => rfl
  | cons b bs ih =>
    have hb := h b (List.mem_cons_self ..)
    rw [imageOf_cons, Shape.subst_subst]
    refine Eq.trans (Shape.subst_congr fun j _ => subst_single_of_eq hb j) ?_
    exact ih fun b' hb' => h b' (List.mem_cons_of_mem _ hb')

/-- A solution absorbs the substitution. -/
theorem Solves.absorb {σ : Int → Shape} {s : Subst} (h : Solves σ s) (i : Int) :
    (s.image i).subst σ = σ i := imageOf_subst h i

theorem Solves.shape_apply {σ : Int → Shape} {s : Subst} (h : Solves σ s) (t : Ty) :
    (s.apply t).shape.subst σ = t.shape.subst σ := by
  rw [Subst.shape_apply, Shape.subst_subst]
  exact Shape.subst_congr fun i _ => h.absorb i

/-! ## Triangular substitutions -/

/-- Bindings, newest first, none of whose types mentions its own variable or one bound before. -/
def TriangularList : List (TyVar × Ty) → Prop
  | [] => True
  | (v, t) :: rest =>
    v.id ∉ t.varIds ∧ (∀ b ∈ rest, b.1.id ≠ v.id ∧ b.1.id ∉ t.varIds) ∧ TriangularList rest

def Triangular (s : Subst) : Prop := TriangularList s.bindings

theorem triangular_empty : Triangular {} := trivial

theorem imageOf_eq_var {bs : List (TyVar × Ty)} {i : Int} (h : ∀ b ∈ bs, b.1.id ≠ i) :
    imageOf bs i = .var i := by
  induction bs with
  | nil => rfl
  | cons b bs ih =>
    rw [imageOf_cons, ih fun b' hb' => h b' (List.mem_cons_of_mem _ hb'), Shape.subst_var, single,
      if_neg (Ne.symm (h b (List.mem_cons_self ..)))]

/-- The image of a variable mentions no bound variable. -/
theorem TriangularList.not_mem_vars {bs : List (TyVar × Ty)} (h : TriangularList bs)
    {b : TyVar × Ty} (hb : b ∈ bs) (i : Int) : b.1.id ∉ (imageOf bs i).vars := by
  induction bs with
  | nil => simp at hb
  | cons c rest ih =>
    obtain ⟨v, t⟩ := c
    obtain ⟨hv, hrest, htri⟩ := h
    rw [Ty.varIds_eq_shape] at hv
    intro hmem
    rw [imageOf_cons, Shape.mem_vars_subst] at hmem
    obtain ⟨j, hj, hmem⟩ := hmem
    by_cases hjv : j = v.id
    · rw [single, if_pos hjv] at hmem
      rcases List.mem_cons.mp hb with rfl | hb
      · exact hv hmem
      · have := (hrest b hb).2
        rw [Ty.varIds_eq_shape] at this
        exact this hmem
    · rw [single, if_neg hjv, Shape.vars_var, List.mem_singleton] at hmem
      rcases List.mem_cons.mp hb with rfl | hb
      · exact hjv hmem.symm
      · exact ih htri hb (hmem ▸ hj)

/-- A triangular substitution solves itself. -/
theorem TriangularList.solves {bs : List (TyVar × Ty)} (h : TriangularList bs)
    {b : TyVar × Ty} (hb : b ∈ bs) : imageOf bs b.1.id = b.2.shape.subst (imageOf bs) := by
  induction bs with
  | nil => simp at hb
  | cons c rest ih =>
    obtain ⟨v, t⟩ := c
    obtain ⟨hv, hrest, htri⟩ := h
    rcases List.mem_cons.mp hb with rfl | hb
    · have hvar : imageOf rest v.id = .var v.id := imageOf_eq_var fun b' hb' => (hrest b' hb').1
      have hfix : t.shape.subst (imageOf ((v, t) :: rest)) = t.shape := by
        refine Shape.subst_eq_self fun i hi => ?_
        rw [← Ty.varIds_eq_shape] at hi
        refine imageOf_eq_var fun b' hb' heq => ?_
        rcases List.mem_cons.mp hb' with rfl | hb'
        · exact hv (heq ▸ hi)
        · exact (hrest b' hb').2 (heq ▸ hi)
      rw [hfix, imageOf_cons, hvar, Shape.subst_var, single, if_pos rfl]
    · rw [imageOf_cons, ih htri hb, Shape.subst_subst]
      rfl

theorem Triangular.solves {s : Subst} (h : s.Triangular) : Solves s.image s :=
  fun _ hb => TriangularList.solves h hb

/-! ## Look-ups -/

theorem lookup_eq_none_iff {s : Subst} {v : Int} :
    s.lookup v = none ↔ ∀ b ∈ s.bindings, b.1.id ≠ v := by
  simp [lookup, List.find?_eq_none]

theorem image_eq_var {s : Subst} {i : Int} (h : s.lookup i = none) : s.image i = .var i :=
  imageOf_eq_var (lookup_eq_none_iff.mp h)

theorem Triangular.lookup_of_mem_vars {s : Subst} (h : s.Triangular) {i j : Int}
    (hj : j ∈ (s.image i).vars) : s.lookup j = none := by
  rw [lookup_eq_none_iff]
  intro b hb heq
  exact TriangularList.not_mem_vars h hb i (heq ▸ hj)

theorem shape_apply_eq_self {s : Subst} {t : Ty} (h : ∀ i ∈ t.varIds, s.lookup i = none) :
    (s.apply t).shape = t.shape := by
  rw [shape_apply]
  refine Shape.subst_eq_self fun i hi => ?_
  rw [← Ty.varIds_eq_shape] at hi
  exact image_eq_var (h i hi)

theorem vars_apply_eq_self {s : Subst} {t : Ty} (h : ∀ i ∈ t.varIds, s.lookup i = none) :
    (s.apply t).vars = t.vars := by
  have key : ∀ bs : List (TyVar × Ty), (∀ b ∈ bs, b.1.id ∉ t.varIds) →
      (bs.foldr (fun b u => u.replace b.1.id b.2) t).vars = t.vars := by
    intro bs hbs
    induction bs with
    | nil => rfl
    | cons b bs ih =>
      have ih := ih fun b' hb' => hbs b' (List.mem_cons_of_mem _ hb')
      rw [List.foldr_cons, Ty.vars_replace_of_not_mem]
      · exact ih
      · rw [Ty.varIds, ih]
        exact hbs b (List.mem_cons_self ..)
  exact key s.bindings fun b hb hmem => lookup_eq_none_iff.mp (h b.1.id hmem) b hb rfl

theorem Triangular.apply_apply {s : Subst} (h : s.Triangular) (t : Ty) :
    (s.apply (s.apply t)).shape = (s.apply t).shape := by
  rw [shape_apply, h.solves.shape_apply, shape_apply]

theorem Triangular.lookup_of_mem_varIds {s : Subst} (h : s.Triangular) {t : Ty} {j : Int}
    (hj : j ∈ (s.apply t).varIds) : s.lookup j = none := by
  rw [Ty.varIds_eq_shape, shape_apply, Shape.mem_vars_subst] at hj
  obtain ⟨i, _, hj⟩ := hj
  exact h.lookup_of_mem_vars hj

/-! ## Extension -/

/-- What an extension does: nothing if the type is the variable itself, else one new binding. -/
structure Extended (s : Subst) (v : TyVar) (t : Ty) (s' : Subst) : Prop where
  unbound : s.lookup v.id = none
  fresh : v.id ∉ (s.apply t).varIds
  inScope : ∀ p ∈ (s.apply t).params, p.id ∈ s.scopeOf v
  eq : s' = { bindings := (v, s.apply t) :: s.bindings, scopes := s.narrow v (s.apply t) }

theorem isFree_iff {v : Int} {t : Ty} : t.isFree v = true ↔ ∃ w, t = .free w ∧ w.id = v := by
  cases t with
  | free w => simp [Ty.isFree]
  | _ => simp [Ty.isFree]

theorem escapedParams_eq_nil {s : Subst} {v : TyVar} {t : Ty} :
    s.escapedParams v t = [] ↔ ∀ p ∈ t.params, p.id ∈ s.scopeOf v := by
  simp [escapedParams, mayMention]

theorem extend_eq_ok {s s' : Subst} {v : TyVar} {t : Ty} (h : s.extend v t = .ok s') :
    (s' = s ∧ s.lookup v.id = none ∧ (s.apply t).shape = .var v.id) ∨ Extended s v t s' := by
  unfold extend at h
  split at h
  · simp at h
  · rename_i hl
    have hl : s.lookup v.id = none := by simpa using hl
    dsimp only at h
    split at h
    · rename_i hfree
      obtain ⟨w, hw, hid⟩ := isFree_iff.mp hfree
      refine Or.inl ⟨by simpa using h.symm, hl, ?_⟩
      rw [hw, Ty.shape_free, hid]
    · split at h
      · simp at h
      · rename_i hocc
        split at h
        · rename_i hesc
          refine Or.inr ⟨hl, ?_, ?_, by simpa using h.symm⟩
          · intro hmem
            exact hocc (by simpa [Ty.occurs] using hmem)
          · exact escapedParams_eq_nil.mp (by simpa using hesc)
        · simp at h

theorem extend_isOk {s : Subst} {v : TyVar} {t : Ty} (hl : s.lookup v.id = none)
    (hfresh : v.id ∉ (s.apply t).varIds)
    (hscope : ∀ p ∈ (s.apply t).params, p.id ∈ s.scopeOf v) : ∃ s', s.extend v t = .ok s' := by
  have hesc : s.escapedParams v (s.apply t) = [] := escapedParams_eq_nil.mpr hscope
  have hocc : ((s.apply t).occurs v.id) = false := by
    refine Bool.eq_false_iff.mpr fun hocc => hfresh ?_
    simpa [Ty.occurs] using hocc
  by_cases hfree : (s.apply t).isFree v.id = true
  · exact ⟨s, by simp [extend, hl, hfree]⟩
  · exact ⟨_, by simp [extend, hl, hfree, hocc, hesc]; rfl⟩

theorem Extended.extend_eq {s s' : Subst} {v : TyVar} {t : Ty} (h : Extended s v t s') :
    s.extend v t = .ok s' := by
  obtain ⟨r, hr⟩ := extend_isOk h.unbound h.fresh h.inScope
  rcases extend_eq_ok hr with ⟨-, -, hshape⟩ | hext
  · have hfresh := h.fresh
    rw [Ty.varIds_eq_shape, hshape] at hfresh
    exact absurd (List.mem_singleton_self _) hfresh
  · rw [hr, hext.eq, h.eq]

theorem Extended.triangular {s s' : Subst} {v : TyVar} {t : Ty} (h : Extended s v t s')
    (hs : s.Triangular) : s'.Triangular := by
  rw [h.eq]
  refine ⟨h.fresh, fun b hb => ⟨?_, fun hmem => ?_⟩, hs⟩
  · exact lookup_eq_none_iff.mp h.unbound b hb
  · exact lookup_eq_none_iff.mp (hs.lookup_of_mem_varIds hmem) b hb rfl

theorem triangular_extend {s s' : Subst} {v : TyVar} {t : Ty} (h : s.extend v t = .ok s')
    (hs : s.Triangular) : s'.Triangular := by
  rcases extend_eq_ok h with ⟨rfl, -, -⟩ | h
  · exact hs
  · exact h.triangular hs

theorem Extended.solves {s s' : Subst} {v : TyVar} {t : Ty} (h : Extended s v t s')
    {σ : Int → Shape} (hσ : Solves σ s') : Solves σ s := by
  intro b hb
  refine hσ b ?_
  rw [h.eq]
  exact List.mem_cons_of_mem _ hb

/-- A solution of an extension solves what was there before. -/
theorem solves_of_extend {s s' : Subst} {v : TyVar} {t : Ty} (h : s.extend v t = .ok s')
    {σ : Int → Shape} (hσ : Solves σ s') : Solves σ s := by
  rcases extend_eq_ok h with ⟨rfl, -, -⟩ | h
  · exact hσ
  · exact h.solves hσ

/-- A solution of an extension agrees with the new binding. -/
theorem eq_of_extend {s s' : Subst} {v : TyVar} {t : Ty} (h : s.extend v t = .ok s')
    {σ : Int → Shape} (hσ : Solves σ s') : σ v.id = t.shape.subst σ := by
  have hs := solves_of_extend h hσ
  rw [← hs.shape_apply]
  rcases extend_eq_ok h with ⟨-, -, hshape⟩ | h
  · rw [hshape, Shape.subst_var]
  · refine hσ (v, s.apply t) ?_
    rw [h.eq]
    exact List.mem_cons_self ..

end Subst
end SizedTypes
