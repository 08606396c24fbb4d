import SizedTypes.Proofs.Subst.Escape
import SizedTypes.Proofs.Ty.Erased

/-!
# Merging a substitution found on top of another one

A delta is built on top of `s`: it binds variables that `s` leaves unbound, and starts with the
scopes that `s` has narrowed. Merging replays its bindings in the order of ids, each with all checks
made afresh. A replay never fails, and at its end the merged substitution is the delta after `s`.

The checks of an extension look at what a type shows, and nowhere else. So a substitution is
extended as the one with erased types is, step by step, and where nothing is known about the
arguments of synonyms a merge goes through if it does for erased types.
-/

set_option autoImplicit false

namespace SizedTypes.Subst

variable {scopes : Int → List Int} {rank : Int → Nat} {s s' δ m : Subst} {done : List Int}

theorem mem_leaves_apply {t : Ty} {x : TyVar ⊕ Param} :
    x ∈ (s.apply t).leaves ↔ (∃ w, .inl w ∈ t.leaves ∧ x ∈ (s.apply (.free w)).leaves) ∨
      ∃ p, .inr p ∈ t.leaves ∧ x = .inr p := by
  rw [apply_eq_bind, Ty.leaves_bind, List.mem_flatMap, Sum.exists]
  simp [Ty.leaves]

theorem mem_leafIds_apply {t : Ty} {i : Int} :
    i ∈ (s.apply t).leafIds ↔ ∃ w, .inl w ∈ t.leaves ∧ i ∈ (s.apply (.free w)).leafIds := by
  constructor
  · intro hi
    obtain ⟨v, hv, rfl⟩ := Ty.mem_leafIds.mp hi
    rcases mem_leaves_apply.mp hv with ⟨w, hw, hv⟩ | ⟨p, -, hp⟩
    · exact ⟨w, hw, Ty.mem_leafIds.mpr ⟨v, hv, rfl⟩⟩
    · cases hp
  · rintro ⟨w, hw, hi⟩
    obtain ⟨v, hv, rfl⟩ := Ty.mem_leafIds.mp hi
    exact Ty.mem_leafIds.mpr ⟨v, mem_leaves_apply.mpr (Or.inl ⟨w, hw, hv⟩), rfl⟩

/-- A substitution absorbs the replacement of a variable by a type that it does not tell apart. -/
theorem apply_replace {v : Int} {u : Ty} (h : ∀ w : TyVar, w.id = v → s.apply u = s.apply (.free w))
    (t : Ty) : s.apply (t.replace v u) = s.apply t := by
  rw [apply_eq_bind s (t.replace v u), Ty.replace, Ty.bind_bind, apply_eq_bind s t]
  refine Ty.bind_congr (fun w _ => ?_) fun _ _ => rfl
  split
  · rename_i hw
    rw [← apply_eq_bind, h w hw]
  · rfl

theorem Extended.lookup_eq_none {v : TyVar} {t : Ty} (h : Extended s v t s') {i : Int} :
    s'.lookup i = none ↔ s.lookup i = none ∧ i ≠ v.id := by
  rw [h.eq, lookup_eq_none_iff, lookup_eq_none_iff, List.forall_mem_cons]
  exact ⟨fun ⟨hv, hs⟩ => ⟨hs, Ne.symm hv⟩, fun ⟨hs, hv⟩ => ⟨Ne.symm hv, hs⟩⟩

/-! ## Extension by all bindings of a list -/

/-- Each binding of the list extends the substitution, one after the other. -/
inductive ExtendedBy : Subst → List (TyVar × Ty) → Subst → Prop
  | nil (s : Subst) : ExtendedBy s [] s
  | cons {s s₁ s' : Subst} {b : TyVar × Ty} {bs : List (TyVar × Ty)} : Extended s b.1 b.2 s₁ →
      ExtendedBy s₁ bs s' → ExtendedBy s (b :: bs) s'

theorem ExtendedBy.foldlM_eq {bs : List (TyVar × Ty)} (h : ExtendedBy s bs s') :
    bs.foldlM (fun s b => s.extend b.1 b.2) s = Except.ok s' := by
  induction h with
  | nil s => rfl
  | cons hext _ ih =>
    rw [List.foldlM_cons, hext.extend_eq]
    exact ih

/-! ## Deltas -/

/-- Bindings on top of `s` of declared variables, within the scopes that `s` has narrowed. -/
structure Delta (scopes : Int → List Int) (s δ : Subst) : Prop where
  acyclic : δ.Acyclic
  among : ∀ b ∈ δ.bindings, Among (fun v => DeclaredIn scopes v ∧ s.lookup v.id = none) b.1 b.2
  params : ∀ u, DeclaredIn scopes u →
    ∀ p, .inr p ∈ (δ.apply (.free u)).leaves → p.id ∈ s.scopeOf u

theorem Delta.declared (h : Delta scopes s δ) {b : TyVar × Ty} (hb : b ∈ δ.bindings) :
    Among (DeclaredIn scopes) b.1 b.2 :=
  ⟨(h.among b hb).var.1, (h.among b hb).type.imp fun _ hv => hv.1⟩

/-- What has been found on top of `s`, about variables that `s` leaves unbound, is a delta. -/
theorem Delta.of_reaches (h : s.onlyScopes.Reaches
    (Among fun v => DeclaredIn scopes v ∧ s.lookup v.id = none) δ) : Delta scopes s δ := by
  have hchains := h.acyclic_among (by rintro _ ⟨⟩) (acyclic_onlyScopes s)
  refine ⟨hchains.2, hchains.1, fun u hu p hp => ?_⟩
  have hdeclared := h.imp fun v t h =>
    (⟨h.var.1, h.type.imp fun _ hv => hv.1⟩ : Among (DeclaredIn scopes) v t)
  have hwithin : Within scopes (fun i => (s.scopes.find? i).getD (scopes i)) s.onlyScopes :=
    within_onlyScopes fun w hw => by rw [scopeOf, hw]
  rw [scopeOf, hu]
  exact (hdeclared.within hwithin).params u hu p hp

/-- `s` does not touch the types of a delta. -/
theorem Delta.apply_type (h : Delta scopes s δ) {b : TyVar × Ty} (hb : b ∈ δ.bindings) :
    s.apply b.2 = b.2 := by
  refine apply_eq_self fun i hi => ?_
  obtain ⟨v, hv, rfl⟩ := Ty.mem_leafIds.mp hi
  exact ((h.among b hb).type.vars v hv).2

/-- `m` is `s` with the bindings of the ids in `done` replayed. A variable that is still unbound may
depend on all that it might under `s`, cut down only by the bound variables that have come to
mention it. -/
structure Replayed (scopes : Int → List Int) (rank : Int → Nat) (s δ : Subst) (done : List Int)
    (m : Subst) : Prop where
  lookup : ∀ i, m.lookup i = none ↔ s.lookup i = none ∧ i ∉ done
  among : ∀ b ∈ m.bindings, Among (DeclaredIn scopes) b.1 b.2
  apply : ∀ t, δ.apply (m.apply t) = δ.apply (s.apply t)
  rank : ∀ u : TyVar, s.lookup u.id = none →
    ∀ i ∈ (m.apply (.free u)).leafIds, rank i ≤ rank u.id
  scope : ∀ w, DeclaredIn scopes w → m.lookup w.id = none → ∀ i ∈ s.scopeOf w,
    (∀ u, DeclaredIn scopes u → s.lookup u.id = none → u.id ∈ done →
      w.id ∈ (m.apply (.free u)).leafIds → i ∈ s.scopeOf u) →
    i ∈ m.scopeOf w

namespace Replayed

theorem start (hs : ∀ b ∈ s.bindings, Among (DeclaredIn scopes) b.1 b.2) :
    Replayed scopes rank s δ [] s where
  lookup i := by simp
  among := hs
  apply _ := rfl
  rank u hu i hi := by
    rw [apply_free_of_unbound hu] at hi
    obtain ⟨v, hv, rfl⟩ := Ty.mem_leafIds.mp hi
    rw [Ty.leaves, List.mem_singleton, Sum.inl.injEq] at hv
    rw [hv]
  scope _ _ _ _ hi _ := hi

variable {b : TyVar × Ty}

/-- The replayed type of a binding is, under the delta, what its variable is. -/
theorem apply_type (hm : Replayed scopes rank s δ done m) (hδ : Delta scopes s δ)
    (hb : b ∈ δ.bindings) {w : TyVar} (hw : w.id = b.1.id) :
    δ.apply (m.apply b.2) = δ.apply (.free w) := by
  rw [hm.apply, hδ.apply_type hb, hδ.acyclic.apply_free hb hw]

theorem rank_lt (hm : Replayed scopes rank s δ done m) (hδ : Delta scopes s δ)
    (hrank : ∀ b ∈ δ.bindings, ∀ i ∈ b.2.leafIds, rank i < rank b.1.id) (hb : b ∈ δ.bindings)
    {i : Int} (hi : i ∈ (m.apply b.2).leafIds) : rank i < rank b.1.id := by
  obtain ⟨w, hw, hi⟩ := mem_leafIds_apply.mp hi
  calc rank i ≤ rank w.id := hm.rank w ((hδ.among b hb).type.vars w hw).2 i hi
    _ < rank b.1.id := hrank b hb w.id (Ty.mem_leafIds.mpr ⟨w, hw, rfl⟩)

/-- The parameters of a replayed type are allowed for the variable itself, and for every bound
variable that mentions it by now, for both stand for these parameters under the delta. -/
theorem inScope (hm : Replayed scopes rank s δ done m) (hδ : Delta scopes s δ)
    (hb : b ∈ δ.bindings) (hunbound : m.lookup b.1.id = none) :
    ∀ p ∈ (m.apply b.2).params, p.id ∈ m.scopeOf b.1 := by
  intro p hp
  have hleaf : .inr p ∈ (δ.apply (m.apply b.2)).leaves :=
    mem_leaves_apply.mpr (Or.inr ⟨p, (Ty.mem_leaves_of_mem _).2 p hp, rfl⟩)
  refine hm.scope b.1 (hδ.declared hb).var hunbound _ ?_ fun u hu hus _ hmem => ?_
  · rw [hm.apply_type hδ hb rfl] at hleaf
    exact hδ.params b.1 (hδ.declared hb).var p hleaf
  · obtain ⟨w, hw, hid⟩ := Ty.mem_leafIds.mp hmem
    rw [hm.apply_type hδ hb hid] at hleaf
    refine hδ.params u hu p ?_
    have happly : δ.apply (.free u) = δ.apply (m.apply (.free u)) := by
      rw [hm.apply, apply_free_of_unbound hus]
    rw [happly]
    exact mem_leaves_apply.mpr (Or.inl ⟨w, hw, hleaf⟩)

/-- One more binding is replayed. -/
theorem step (hm : Replayed scopes rank s δ done m) (hδ : Delta scopes s δ)
    (hrank : ∀ b ∈ δ.bindings, ∀ i ∈ b.2.leafIds, rank i < rank b.1.id) (hb : b ∈ δ.bindings)
    (hnew : b.1.id ∉ done) :
    ∃ m', Extended m b.1 b.2 m' ∧ Replayed scopes rank s δ (b.1.id :: done) m' := by
  have hvar := (hδ.declared hb).var
  have hunbound : m.lookup b.1.id = none := (hm.lookup _).mpr ⟨(hδ.among b hb).var.2, hnew⟩
  have htype := over_apply hm.among (hδ.declared hb).type
  have hfresh : b.1.id ∉ (m.apply b.2).varIds := by
    intro hmem
    exact lt_irrefl _ (hm.rank_lt hδ hrank hb (Ty.mem_leafIds_of_mem_varIds hmem))
  obtain ⟨m', hext⟩ : ∃ m', Extended m b.1 b.2 m' :=
    ⟨_, hunbound, hfresh, hm.inScope hδ hb hunbound, rfl⟩
  refine ⟨m', hext, ?_⟩
  refine ⟨fun i => ?_, hext.among hm.among (hδ.declared hb), fun t => ?_, fun u hu i hi => ?_,
    fun w hw hwm i hi hcut => ?_⟩
  · rw [hext.lookup_eq_none, hm.lookup, List.mem_cons, not_or, and_assoc,
      and_comm (a := i ∉ done)]
  · rw [hext.apply, apply_replace fun w hw => hm.apply_type hδ hb hw, hm.apply]
  · rw [hext.apply, Ty.mem_leafIds_replace] at hi
    rcases hi with ⟨hi, -⟩ | ⟨hv, hi⟩
    · exact hm.rank u hu i hi
    · calc rank i ≤ rank b.1.id := (hm.rank_lt hδ hrank hb hi).le
        _ ≤ rank u.id := hm.rank u hu _ hv
  · obtain ⟨hwm, hne⟩ := hext.lookup_eq_none.mp hwm
    refine (hext.mem_scopeOf_declared htype hw).mpr ⟨hm.scope w hw hwm i hi ?_, fun hmem => ?_⟩
    · intro u hu hus hdone hmem
      refine hcut u hu hus (List.mem_cons_of_mem _ hdone) ?_
      rw [hext.apply]
      exact Ty.mem_leafIds_replace.mpr (Or.inl ⟨hmem, hne⟩)
    · -- The variable of the binding mentions `w` from now on, and with it all that mentioned it.
      have hleaf : w.id ∈ (m.apply b.2).leafIds := Ty.mem_leafIds_of_mem_varIds hmem
      have hthrough : ∀ u : TyVar, b.1.id ∈ (m.apply (.free u)).leafIds →
          w.id ∈ (m'.apply (.free u)).leafIds := by
        intro u hu
        rw [hext.apply]
        exact Ty.mem_leafIds_replace.mpr (Or.inr ⟨hu, hleaf⟩)
      refine hm.scope b.1 hvar hunbound i ?_ fun u hu hus hdone hmem => ?_
      · refine hcut b.1 hvar (hδ.among b hb).var.2 (List.mem_cons_self ..) (hthrough b.1 ?_)
        rw [apply_free_of_unbound hunbound]
        exact Ty.mem_leafIds.mpr ⟨b.1, List.mem_singleton_self _, rfl⟩
      · exact hcut u hu hus (List.mem_cons_of_mem _ hdone) (hthrough u hmem)

/-- All bindings of a list are replayed. -/
theorem run (hδ : Delta scopes s δ)
    (hrank : ∀ b ∈ δ.bindings, ∀ i ∈ b.2.leafIds, rank i < rank b.1.id)
    (bs : List (TyVar × Ty)) (hbs : ∀ b ∈ bs, b ∈ δ.bindings)
    (hnodup : bs.Pairwise fun b b' => b.1.id ≠ b'.1.id) {done : List Int} {m : Subst}
    (hnew : ∀ b ∈ bs, b.1.id ∉ done) (hm : Replayed scopes rank s δ done m) :
    ∃ done' m', ExtendedBy m bs m' ∧
      (∀ b ∈ bs, b.1.id ∈ done') ∧ done ⊆ done' ∧ Replayed scopes rank s δ done' m' := by
  induction bs generalizing done m with
  | nil => exact ⟨done, m, .nil m, by simp, List.Subset.refl _, hm⟩
  | cons b bs ih =>
    obtain ⟨hb, hbs⟩ := List.forall_mem_cons.mp hbs
    obtain ⟨hbnew, hnew⟩ := List.forall_mem_cons.mp hnew
    obtain ⟨hhead, hnodup⟩ := List.pairwise_cons.mp hnodup
    obtain ⟨m₁, hext, hm₁⟩ := hm.step hδ hrank hb hbnew
    obtain ⟨done', m', hrun, hall, hsub, hm'⟩ := ih hbs hnodup
      (fun b' hb' => by simpa [hnew b' hb'] using Ne.symm (hhead b' hb')) hm₁
    exact ⟨done', m', .cons hext hrun,
      List.forall_mem_cons.mpr ⟨hsub (List.mem_cons_self ..), hall⟩,
      fun i hi => hsub (List.mem_cons_of_mem _ hi), hm'⟩

end Replayed

/-- Each variable has one entry. -/
theorem pairwise_entries (s : Subst) : s.entries.Pairwise fun b b' => b.1.id ≠ b'.1.id := by
  have hkeys : ∀ e ∈ Table.ofList (s.bindings.map fun b => (b.1.id, b)), e.1 = e.2.1.id := by
    intro e he
    obtain ⟨b, -, rfl⟩ := List.mem_map.mp (Table.mem_ofList he)
    rfl
  have hsorted := List.pairwise_map.mp
    (Table.sorted_ofList (s.bindings.map fun b => (b.1.id, b)))
  refine List.pairwise_map.mpr (hsorted.imp_of_mem fun ha hb hlt => ?_)
  rw [← hkeys _ ha, ← hkeys _ hb]
  exact ne_of_lt hlt

/-- Any of the bindings of a delta extend `s`, in any order. -/
theorem Delta.extendedBy (hδ : Delta scopes s δ)
    (hs : ∀ b ∈ s.bindings, Among (DeclaredIn scopes) b.1 b.2) {bs : List (TyVar × Ty)}
    (hbs : ∀ b ∈ bs, b ∈ δ.bindings) (hnodup : bs.Pairwise fun b b' => b.1.id ≠ b'.1.id) :
    ∃ s', ExtendedBy s bs s' := by
  obtain ⟨rank, hrank⟩ := hδ.acyclic.exists_rank
  obtain ⟨done, s', hext, -⟩ := Replayed.run hδ hrank bs hbs hnodup (by simp) (Replayed.start hs)
  exact ⟨s', hext⟩

/-- A delta is merged without failure, and acts after `s` in the merged substitution. -/
theorem Delta.merge (hδ : Delta scopes s δ)
    (hs : ∀ b ∈ s.bindings, Among (DeclaredIn scopes) b.1 b.2) (hacyclic : s.Acyclic) :
    ∃ s', s.merge δ = .ok s' ∧ ∀ t, s'.apply t = δ.apply (s.apply t) := by
  obtain ⟨rank, hrank⟩ := hδ.acyclic.exists_rank
  have hstart : Replayed scopes rank s δ [] s := Replayed.start hs
  obtain ⟨done, s', hext, hall, -, hreplayed⟩ := Replayed.run hδ hrank δ.entries
    (fun b hb => mem_bindings_of_mem_entries hb) (pairwise_entries δ) (by simp) hstart
  have hmerge : s.merge δ = .ok s' := hext.foldlM_eq
  refine ⟨s', hmerge, fun t => ?_⟩
  have hreach : Reaches (Among (DeclaredIn scopes)) s s' :=
    .single (.merge (fun b hb => hδ.declared hb) hmerge)
  -- The merged substitution binds all that the delta binds, so the delta finds nothing to replace.
  have hbound : ∀ i ∈ (s'.apply t).leafIds, δ.lookup i = none := by
    intro i hi
    have hnone := (hreach.acyclic_among hs hacyclic).2.lookup_of_mem_leafIds hi
    refine lookup_eq_none_iff.mpr fun b hb hid => ?_
    exact ((hreplayed.lookup i).mp hnone).2 (hid ▸ hall b (hδ.acyclic.triangular.mem_entries hb))
  rw [← hreplayed.apply, apply_eq_self hbound]

/-! ## Substitutions without synonyms -/

variable {Q : TyVar → Prop} {v : TyVar} {t : Ty} {bs : List (TyVar × Ty)}

/-- The same bindings, of erased types. -/
def erased (s : Subst) : Subst := { s with bindings := s.bindings.map fun b => (b.1, b.2.erased) }

theorem lookup_erased_eq_none {i : Int} : s.erased.lookup i = none ↔ s.lookup i = none := by
  rw [lookup_eq_none_iff, lookup_eq_none_iff]
  exact List.forall_mem_map

theorem apply_erased (s : Subst) (t : Ty) : s.erased.apply t.erased = (s.apply t).erased := by
  have key : ∀ bs : List (TyVar × Ty), (bs.map fun b => (b.1, b.2.erased)).foldr
      (fun b u => u.replace b.1.id b.2) t.erased =
        (bs.foldr (fun b u => u.replace b.1.id b.2) t).erased := by
    intro bs
    induction bs with
    | nil => rfl
    | cons b bs ih => rw [List.map_cons, List.foldr_cons, ih, List.foldr_cons, Ty.erased_replace]
  exact key s.bindings

theorem narrow_erased (s : Subst) (v : TyVar) (t : Ty) :
    s.erased.narrow v t.erased = s.narrow v t := by
  have hvars : Ty.freeVars [t.erased] = Ty.freeVars [t] := by simp [Ty.freeVars]
  rw [narrow, narrow, hvars]
  rfl

theorem Extended.erased (h : Extended s v t s') : Extended s.erased v t.erased s'.erased where
  unbound := lookup_erased_eq_none.mpr h.unbound
  fresh := by
    rw [apply_erased, Ty.varIds_erased]
    exact h.fresh
  inScope := by
    rw [apply_erased, Ty.params_erased]
    exact h.inScope
  eq := by
    rw [apply_erased, narrow_erased, h.eq]
    rfl

/-- What extends the erased substitution comes from an extension of the substitution itself. -/
theorem Extended.of_erased (h : Extended s.erased v t.erased m) :
    ∃ s', Extended s v t s' ∧ s'.erased = m := by
  obtain ⟨hunbound, hfresh, hscope, rfl⟩ := h
  rw [apply_erased, Ty.varIds_erased] at hfresh
  rw [apply_erased, Ty.params_erased] at hscope
  refine ⟨_, ⟨lookup_erased_eq_none.mp hunbound, hfresh, hscope, rfl⟩, ?_⟩
  rw [apply_erased, narrow_erased]
  rfl

theorem ExtendedBy.of_erased (h : ExtendedBy s.erased (bs.map fun b => (b.1, b.2.erased)) m) :
    ∃ s', ExtendedBy s bs s' := by
  induction bs generalizing s with
  | nil => exact ⟨s, .nil s⟩
  | cons b bs ih =>
    cases h with
    | cons hext h =>
      obtain ⟨s₁, hext₁, rfl⟩ := hext.of_erased
      obtain ⟨s', h⟩ := ih h
      exact ⟨s', .cons hext₁ h⟩

theorem Reaches.erased {start : Subst}
    (h : start.Reaches (fun v t => Q v ∧ t.VarsIn Q) s) :
    start.erased.Reaches (Among Q) s.erased := by
  refine h.induct (P := fun s => start.erased.Reaches (Among Q) s.erased) .refl fun ih hb hext => ?_
  exact ih.tail (.extend ⟨hb.1, hb.2.over_erased⟩ hext.erased.extend_eq)

/-! ### Substitutions of declared variables -/

/-- Chains of bindings end, and every variable has the scope that was declared for its id. -/
structure Declared (scopes : Int → List Int) (s : Subst) : Prop where
  triangular : s.Triangular
  vars : ∀ b ∈ s.bindings, DeclaredIn scopes b.1 ∧ b.2.VarsIn (DeclaredIn scopes)

namespace Declared

theorem empty : Declared scopes {} := ⟨triangular_empty, List.forall_mem_nil _⟩

theorem among_erased (h : Declared scopes s) :
    ∀ b ∈ s.erased.bindings, Among (DeclaredIn scopes) b.1 b.2 :=
  List.forall_mem_map.mpr fun b hb => ⟨(h.vars b hb).1, (h.vars b hb).2.over_erased⟩

theorem apply (h : Declared scopes s) (ht : t.VarsIn (DeclaredIn scopes)) :
    (s.apply t).VarsIn (DeclaredIn scopes) := by
  refine Ty.varsIn_of_over_erased ?_
  rw [← apply_erased]
  exact over_apply h.among_erased ht.over_erased

/-- Where a substitution has been applied, no bound variable is left. -/
theorem unbound (h : Declared scopes s) (ht : t.VarsIn (DeclaredIn scopes)) :
    (s.apply t).VarsIn fun v => DeclaredIn scopes v ∧ s.lookup v.id = none := fun v hv =>
  ⟨h.apply ht v hv, h.triangular.lookup_of_mem_varIds (List.mem_map_of_mem hv)⟩

theorem extendedBy (h : Declared scopes s) (hext : ExtendedBy s bs s')
    (hbs : ∀ b ∈ bs, DeclaredIn scopes b.1 ∧ b.2.VarsIn (DeclaredIn scopes)) :
    Declared scopes s' := by
  induction hext with
  | nil s => exact h
  | cons hext _ ih =>
    obtain ⟨hb, hbs⟩ := List.forall_mem_cons.mp hbs
    refine ih ⟨hext.triangular h.triangular, ?_⟩ hbs
    rw [hext.eq]
    exact List.forall_mem_cons.mpr ⟨⟨hb.1, h.apply hb.2⟩, h.vars⟩

/-- Bindings that were found on top of a substitution are merged into it. -/
theorem merge (h : Declared scopes s) (hδ : s.onlyScopes.Reaches
      (fun v t => (DeclaredIn scopes v ∧ s.lookup v.id = none) ∧
        t.VarsIn fun v => DeclaredIn scopes v ∧ s.lookup v.id = none) δ) :
    ∃ s', s.merge δ = .ok s' ∧ Declared scopes s' := by
  have hreach : s.erased.onlyScopes.Reaches
      (Among fun v => DeclaredIn scopes v ∧ s.erased.lookup v.id = none) δ.erased := by
    simp only [lookup_erased_eq_none]
    exact hδ.erased
  have hdelta := Delta.of_reaches hreach
  have hentries : ∀ b ∈ δ.entries.map fun b => (b.1, b.2.erased), b ∈ δ.erased.bindings :=
    List.forall_mem_map.mpr fun b hb => List.mem_map_of_mem (mem_bindings_of_mem_entries hb)
  obtain ⟨m, hext⟩ := hdelta.extendedBy h.among_erased hentries
    (List.pairwise_map.mpr (pairwise_entries δ))
  obtain ⟨s', hext⟩ := hext.of_erased
  refine ⟨s', hext.foldlM_eq, h.extendedBy hext fun b hb => ?_⟩
  obtain ⟨hvar, htype⟩ := hdelta.declared (hentries _ (List.mem_map_of_mem hb))
  exact ⟨hvar, Ty.varsIn_of_over_erased htype⟩

end Declared

end SizedTypes.Subst
