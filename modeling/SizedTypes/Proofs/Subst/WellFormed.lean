import SizedTypes.Proofs.Subst.Scope
import SizedTypes.Proofs.Ty.WellFormed
import SizedTypes.Proofs.Unify.Soundness

/-!
# Well-formed substitutions

The substitutions of a run are triangular and bind variables to well-formed types, whose parameters
are in scope. Extending, unifying and merging keep this, and what solves a merged substitution
solves both of its parts.
-/

set_option autoImplicit false

namespace SizedTypes

variable {W : Setting}

namespace Subst

structure WellFormed (W : Setting) (s : Subst) : Prop where
  triangular : s.Triangular
  vars : ∀ b ∈ s.bindings, (Ty.free b.1).WellFormed W
  types : ∀ b ∈ s.bindings, b.2.WellFormed W
  params : ∀ b ∈ s.bindings, ∀ p ∈ b.2.params, W.scope p.id
  scopes : ∀ i l, s.scopes.find? i = some l → ∀ j ∈ l, W.scope j

theorem WellFormed.empty : WellFormed W {} where
  triangular := triangular_empty
  vars _ h := nomatch h
  types _ h := nomatch h
  params _ h := nomatch h
  scopes _ _ h := nomatch h

theorem WellFormed.onlyScopes {s : Subst} (h : s.WellFormed W) : s.onlyScopes.WellFormed W :=
  { WellFormed.empty with scopes := h.scopes }

theorem WellFormed.apply {s : Subst} (h : s.WellFormed W) {t : Ty} (ht : t.WellFormed W) :
    (s.apply t).WellFormed W := by
  have key : ∀ bs : List (TyVar × Ty), (∀ b ∈ bs, b.2.WellFormed W) →
      (bs.foldr (fun b u => u.replace b.1.id b.2) t).WellFormed W := by
    intro bs hbs
    induction bs with
    | nil => exact ht
    | cons b bs ih =>
      have htail := ih fun b' hb' => hbs b' (List.mem_cons_of_mem _ hb')
      exact htail.replace (hbs b (List.mem_cons_self ..)) b.1.id
  exact key s.bindings h.types

theorem WellFormed.scopeOf {s : Subst} (h : s.WellFormed W) {v : TyVar}
    (hv : (Ty.free v).WellFormed W) : ∀ i ∈ s.scopeOf v, W.scope i := by
  intro i hi
  unfold Subst.scopeOf at hi
  cases hfind : s.scopes.find? v.id with
  | none =>
    rw [hfind] at hi
    cases hv with
    | free hv => exact hv i hi
  | some l =>
    rw [hfind] at hi
    exact h.scopes v.id l hfind i hi

/-- The image of a variable mentions parameters in scope only. -/
theorem WellFormed.scope_of_mem_params {s : Subst} (h : s.WellFormed W) {i p : Int}
    (hp : p ∈ (s.image i).params) : W.scope p := by
  have key : ∀ bs : List (TyVar × Ty), (∀ b ∈ bs, ∀ p ∈ b.2.params, W.scope p.id) →
      p ∈ (imageOf bs i).params → W.scope p := by
    intro bs hbs hp
    induction bs with
    | nil => simp [imageOf] at hp
    | cons b bs ih =>
      rw [imageOf_cons, Shape.mem_params_subst] at hp
      rcases hp with ⟨j, -, hp⟩ | hp
      · unfold Shape.single at hp
        split at hp
        · rw [← Ty.paramIds_eq_shape] at hp
          obtain ⟨q, hq, rfl⟩ := List.mem_map.mp hp
          exact hbs b (List.mem_cons_self ..) q hq
        · simp at hp
      · exact ih (fun b' hb' => hbs b' (List.mem_cons_of_mem _ hb')) hp
  exact key s.bindings h.params hp

theorem WellFormed.extend {s s' : Subst} {v : TyVar} {t : Ty} (hs : s.WellFormed W)
    (hv : (Ty.free v).WellFormed W) (ht : t.WellFormed W) (h : s.extend v t = .ok s') :
    s'.WellFormed W := by
  have htri := triangular_extend h hs.triangular
  rcases extend_eq_ok h with ⟨rfl, -, -⟩ | h
  · exact hs
  · have happ := hs.apply ht
    have hscope := hs.scopeOf hv
    have hscopes : ∀ i l, (s.narrow v (s.apply t)).find? i = some l → ∀ j ∈ l, W.scope j := by
      intro i l hl j hj
      rcases find?_narrow s v (s.apply t) i with hf | ⟨w, hw, -, hf⟩
      · exact hs.scopes i l (hf ▸ hl) j hj
      · rw [hl, Option.some.injEq] at hf
        rw [hf] at hj
        exact hs.scopeOf (happ.free_of_mem_vars hw) j (List.mem_filter.mp hj).1
    rw [h.eq] at htri ⊢
    exact {
      triangular := htri
      vars := List.forall_mem_cons.mpr ⟨hv, hs.vars⟩
      types := List.forall_mem_cons.mpr ⟨happ, hs.types⟩
      params := List.forall_mem_cons.mpr ⟨fun p hp => hscope _ (h.inScope p hp), hs.params⟩
      scopes := hscopes }

/-! ## Merging -/

/-- A substitution without repeated variables has an entry for every binding. -/
theorem Triangular.mem_entries {s : Subst} (h : s.Triangular) {b : TyVar × Ty}
    (hb : b ∈ s.bindings) : b ∈ s.entries := by
  have hinj : ∀ bs : List (TyVar × Ty), TriangularList bs → ∀ b ∈ bs, ∀ b' ∈ bs,
      b'.1.id = b.1.id → b' = b := by
    intro bs
    induction bs with
    | nil => exact fun _ b hb => nomatch hb
    | cons c bs ih =>
      rintro ⟨-, hrest, htri⟩ b hb b' hb' hid
      rcases List.mem_cons.mp hb with rfl | hbs
      · rcases List.mem_cons.mp hb' with rfl | hbs'
        · rfl
        · exact absurd hid (hrest b' hbs').1
      · rcases List.mem_cons.mp hb' with rfl | hbs'
        · exact absurd hid.symm (hrest b hbs).1
        · exact ih htri b hbs b' hbs' hid
  have hkey : b.1.id ∈ (s.bindings.map fun b => (b.1.id, b)).map Prod.fst := by
    rw [List.map_map]
    exact List.mem_map_of_mem hb
  obtain ⟨b', hfind, hmem⟩ := Table.exists_find?_ofList hkey
  obtain ⟨c, hc, heq⟩ := List.mem_map.mp hmem
  obtain ⟨hid, rfl⟩ := Prod.mk.inj heq
  rw [← hinj s.bindings h b hb c hc hid]
  exact List.mem_map_of_mem (f := Prod.snd) (Table.mem_of_find? hfind)

theorem mem_bindings_of_mem_entries {s : Subst} {b : TyVar × Ty} (h : b ∈ s.entries) :
    b ∈ s.bindings := by
  obtain ⟨e, he, rfl⟩ := List.mem_map.mp h
  obtain ⟨b, hb, rfl⟩ := List.mem_map.mp (Table.mem_ofList he)
  exact hb

theorem extendAll_cons {s s' : Subst} {b : TyVar × Ty} {bs : List (TyVar × Ty)}
    (h : (b :: bs).foldlM (fun s b => s.extend b.1 b.2) s = Except.ok s') :
    ∃ s₁, s.extend b.1 b.2 = .ok s₁ ∧ bs.foldlM (fun s b => s.extend b.1 b.2) s₁ = .ok s' := by
  rw [List.foldlM_cons] at h
  cases hext : s.extend b.1 b.2 with
  | error e =>
    rw [hext] at h
    simp [bind, Except.bind] at h
  | ok s₁ =>
    rw [hext] at h
    exact ⟨s₁, rfl, h⟩

theorem WellFormed.extendAll {s s' : Subst} {bs : List (TyVar × Ty)} (hs : s.WellFormed W)
    (hbs : ∀ b ∈ bs, (Ty.free b.1).WellFormed W ∧ b.2.WellFormed W)
    (h : bs.foldlM (fun s b => s.extend b.1 b.2) s = Except.ok s') : s'.WellFormed W := by
  induction bs generalizing s with
  | nil =>
    obtain rfl : s = s' := by simpa [pure, Except.pure] using h
    exact hs
  | cons b bs ih =>
    obtain ⟨s₁, hext, h⟩ := extendAll_cons h
    obtain ⟨hv, ht⟩ := hbs b (List.mem_cons_self ..)
    exact ih (hs.extend hv ht hext) (fun b' hb' => hbs b' (List.mem_cons_of_mem _ hb')) h

theorem solves_of_extendAll {s s' : Subst} {bs : List (TyVar × Ty)}
    (h : bs.foldlM (fun s b => s.extend b.1 b.2) s = Except.ok s') {σ : Int → Shape}
    (hσ : Solves σ s') : Solves σ s ∧ ∀ b ∈ bs, σ b.1.id = b.2.shape.subst σ := by
  induction bs generalizing s with
  | nil =>
    obtain rfl : s = s' := by simpa [pure, Except.pure] using h
    exact ⟨hσ, fun _ hb => nomatch hb⟩
  | cons b bs ih =>
    obtain ⟨s₁, hext, h⟩ := extendAll_cons h
    obtain ⟨hσ₁, hrest⟩ := ih h
    exact ⟨solves_of_extend hext hσ₁, List.forall_mem_cons.mpr ⟨eq_of_extend hext hσ₁, hrest⟩⟩

theorem triangular_merge {s δ s' : Subst} (hs : s.Triangular) (h : s.merge δ = .ok s') :
    s'.Triangular := by
  unfold Subst.merge at h
  generalize δ.entries = bs at h
  induction bs generalizing s with
  | nil =>
    obtain rfl : s = s' := by simpa [pure, Except.pure] using h
    exact hs
  | cons b bs ih =>
    obtain ⟨s₁, hext, h⟩ := extendAll_cons h
    exact ih (triangular_extend hext hs) h

theorem WellFormed.merge {s δ s' : Subst} (hs : s.WellFormed W) (hδ : δ.WellFormed W)
    (h : s.merge δ = .ok s') : s'.WellFormed W := by
  refine hs.extendAll (fun b hb => ?_) h
  have hb := mem_bindings_of_mem_entries hb
  exact ⟨hδ.vars b hb, hδ.types b hb⟩

theorem solves_of_merge {s δ s' : Subst} (hδ : δ.Triangular) (h : s.merge δ = .ok s')
    {σ : Int → Shape} (hσ : Solves σ s') : Solves σ s ∧ Solves σ δ := by
  obtain ⟨hs, hentries⟩ := solves_of_extendAll h hσ
  exact ⟨hs, fun b hb => hentries b (hδ.mem_entries hb)⟩

end Subst

/-! ## Unification -/

namespace Unify

open Relation (ReflTransGen)

structure Problem.WellFormed (W : Setting) (p : Problem) : Prop where
  subst : p.subst.WellFormed W
  sides : ∀ t ∈ sides p.pairs, t.WellFormed W

theorem wellFormed_of_mem_parts {t u : Ty} (ht : t.WellFormed W) (h : u ∈ parts t) :
    u.WellFormed W := by
  cases ht with
  | con _ hargs => exact hargs u h
  | record _ hfs =>
    obtain ⟨f, hf, rfl⟩ := List.mem_map.mp h
    exact hfs f hf
  | newtype hargs => exact hargs u h
  | _ => simp [parts] at h

theorem Reduces.wellFormed {p q : Problem} (h : Reduces p q) (hp : p.WellFormed W) :
    q.WellFormed W := by
  rcases h.sides_cases with ⟨heq, hsides⟩ |
    ⟨v, t, hcommit, -, -, ⟨u, hu, hv⟩, ⟨u', hu', rfl⟩, -, hsides⟩
  · refine ⟨heq ▸ hp.subst, fun t ht => ?_⟩
    obtain ⟨u, hu, rfl | hpart⟩ := hsides t ht
    · exact hp.sides t hu
    · exact wellFormed_of_mem_parts (hp.sides u hu).expand hpart
  · have hvar : (Ty.free v).WellFormed W := hv ▸ (hp.sides u hu).expand
    have ht := (hp.sides u' hu').expand
    refine ⟨hp.subst.extend hvar ht (extend_of_commit hcommit), fun x hx => ?_⟩
    obtain ⟨u, hu, rfl⟩ := hsides x hx
    exact (hp.sides u hu).replace ht v.id

theorem wellFormed_of_reduces {p q : Problem} (h : ReflTransGen Reduces p q)
    (hp : p.WellFormed W) : q.WellFormed W := by
  induction h with
  | refl => exact hp
  | tail _ h ih => exact h.wellFormed ih

end Unify
end SizedTypes
