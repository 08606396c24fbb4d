import SizedTypes.Proofs.Surface.Grouping
import SizedTypes.Proofs.Surface.Scoping

/-!
# Regrouping and scopes

The regrouped bindings take the place of the first group. So they come before the declarations that
are no groups and stand between the groups; a binding must not need these. Then what is in scope
stays in scope: each binding refers to earlier groups and, where it refers to its own, that group is
recursive, and all other declarations come after whatever came before them.
-/

set_option autoImplicit false

namespace SizedTypes.Surface

variable {binds : List Bind} {v v' : Visible} {ids : List Int} {ds ds' : List Decl}

/-! ## The names in a group are distinct -/

/-- Of several bindings with one name only the last is referred to, so no others share a group. -/
theorem nodup_of_mem_groupBindings {g : Bool × List Bind} (hg : g ∈ groupBindings binds) :
    (bindIds g.2).Nodup := by
  obtain ⟨c, hc, rfl⟩ := List.mem_map.mp hg
  have hclosed := closed_dependencyGraph binds
  have hnodup : c.Nodup := List.nodup_range.sublist (Graph.sublist_of_mem_components hc)
  -- a path that leaves a position shows that its name is found there
  have hfound : ∀ {u w : Nat} {b : Bind}, u ∈ c → w ∈ c → u ≠ w → binds[u]? = some b →
      (bindPositions binds).find? b.name.id = some u := by
    intro u w b hu hw hne hb
    have hpath := ((Graph.mem_iff_joined hclosed hc hu).mp hw).1
    obtain heq | ⟨x, hedge, -⟩ := Relation.ReflTransGen.cases_head hpath
    · exact absurd heq hne
    · obtain ⟨-, -, id, -, hfind⟩ := (edge_dependencyGraph.mp hedge).2
      obtain ⟨b', hb', rfl⟩ := exists_of_find?_bindPositions hfind
      rwa [Option.some.inj (hb.symm.trans hb')]
  rw [bindIds, List.Nodup, List.pairwise_map, List.pairwise_filterMap]
  refine hnodup.imp_of_mem fun {u w} hu hw hne b hb b' hb' hid => hne ?_
  have hfind := hfound hu hw hne hb
  rw [hid, hfound hw hu (Ne.symm hne) hb'] at hfind
  exact (Option.some.inj hfind).symm

theorem eq_of_mem_ownParams {group : List Bind} (hnames : (bindIds group).Nodup) {b : Bind}
    (hb : b ∈ group) {own : List Int} (hown : own ∈ b.ownParams group) : own = b.paramIds := by
  rcases List.mem_append.mp hown with hown | hown
  · unfold Bind.paramIds
    cases hsig : b.signature with
    | none => simpa [hsig] using hown
    | some sig => simp [hsig] at hown
  · obtain ⟨b', hb', rfl⟩ := List.mem_map.mp hown
    obtain ⟨hb', hid⟩ := List.mem_filter.mp hb'
    rw [Bool.and_eq_true, beq_iff_eq] at hid
    rw [List.inj_on_of_nodup_map hnames hb' hb hid.1]

/-! ## Lists of declarations -/

theorem declsInScope_append (ds : List Decl) (v : Visible) :
    declsInScope v (ds ++ ds') = (declsInScope v ds && declsInScope (v.declareAll ds) ds') := by
  induction ds generalizing v with
  | nil => rfl
  | cons d ds ih =>
    rw [List.cons_append, declsInScope, declsInScope, ih, Bool.and_assoc]
    rfl

theorem bindsInScope_iff {group : List Bind} {bs : List Bind} :
    bindsInScope v group bs = true ↔
      ∀ b ∈ bs, ∀ own ∈ b.ownParams group, b.inScope v own = true := by
  induction bs with
  | nil => simp [bindsInScope]
  | cons b bs ih => simp [bindsInScope, ih]

/-- Declarations without the groups are in scope where all that the groups bind is visible. -/
theorem withoutGroups_inScope : ∀ (ds : List Decl) {v v' : Visible}, (∀ ids, v.Le ids v') →
    (∀ id ∈ bindIds (bindsOf ds), v'.value id = true) → declsInScope v ds = true →
    declsInScope v' (withoutGroups ds) = true
  | [], _, _, _, _, _ => rfl
  | .group recursive bs :: ds, v, v', hle, hbound, h => by
    rw [declsInScope, Bool.and_eq_true] at h
    have hids : bindIds (bindsOf (.group recursive bs :: ds)) = bindIds bs ++ bindIds (bindsOf ds) :=
      List.map_append ..
    simp only [hids, List.mem_append] at hbound
    refine withoutGroups_inScope ds (fun ids => ?_) (fun id hid => hbound id (Or.inr hid)) h.2
    exact { hle ids with
      values := fun id hid hv => (Visible.value_withValues.mp hv).elim ((hle ids).values id hid)
        fun hmem => hbound id (Or.inl hmem) }
  | .synonym n ps body r :: ds, v, v', hle, hbound, h
  | .newtype n ps fs conName r :: ds, v, v', hle, hbound, h
  | .primType n kind props r :: ds, v, v', hle, hbound, h
  | .paramType n kind r :: ds, v, v', hle, hbound, h
  | .paramProps props r :: ds, v, v', hle, hbound, h
  | .paramFun n sig r :: ds, v, v', hle, hbound, h
  | .submodule n inner r :: ds, v, v', hle, hbound, h => by
    rw [declsInScope, Bool.and_eq_true] at h
    rw [withoutGroups, declsInScope, Bool.and_eq_true]
    · refine ⟨Decl.inScope_of_le _ (hle _) (List.Subset.refl _) h.1, ?_⟩
      exact withoutGroups_inScope ds (fun ids => (hle ids).declare _)
        (fun id hid => (le_declare _ v').values id hid (hbound id hid)) h.2
    all_goals simp

/-! ## Regrouped declarations -/

/-- All names to which a binding refers are visible, apart from the type parameters that it
declares itself. -/
def Bind.resolvesIn (v : Visible) (b : Bind) : Bool :=
  b.signatureInScope v && b.inScope v b.paramIds

/-- What is visible before the first group among declarations. -/
def Visible.beforeGroups (v : Visible) : List Decl → Visible
  | [] => v
  | .group _ _ :: _ => v
  | d :: ds => (v.declare d).beforeGroups ds

/-- What is visible before the first group, and what all groups bind. -/
def Visible.forGroups (v : Visible) (ds : List Decl) : Visible :=
  (v.beforeGroups ds).withValues (bindIds (bindsOf ds))

theorem declareAll_groups (v : Visible) (groups : List (Bool × List Bind)) :
    v.declareAll (groups.map fun g => .group g.1 g.2) =
      v.withValues (bindIds (groups.flatMap fun g => g.2)) := by
  induction groups generalizing v with
  | nil => simp [Visible.declareAll, Visible.withValues, bindIds]
  | cons g gs ih =>
    rw [List.map_cons, Visible.declareAll, Visible.declare, ih, Visible.withValues_withValues,
      List.flatMap_cons, bindIds, bindIds, bindIds, List.map_append]

section Groups

variable {before after : List (Bool × List Bind)} {g : Bool × List Bind}
  (hsplit : groupBindings binds = before ++ g :: after)
include hsplit

theorem mem_binds_of_split {b : Bind} (hb : b ∈ before.flatMap (fun g => g.2) ∨ b ∈ g.2) :
    b ∈ binds := by
  refine (flatMap_groupBindings binds).subset ?_
  rw [hsplit, List.flatMap_append, List.flatMap_cons]
  simp only [List.mem_append]
  grind

/-- A group is in scope after the groups before it exactly if its bindings are where all bindings
are visible. -/
theorem group_inScope_iff :
    (Decl.group g.1 g.2).inScope (v.withValues (bindIds (before.flatMap fun g => g.2))) = true ↔
      ∀ b ∈ g.2, b.resolvesIn (v.withValues (bindIds binds)) = true := by
  have hnames := nodup_of_mem_groupBindings (hsplit ▸ List.mem_append_right _ (List.mem_cons_self ..))
  have hbefore : bindIds (before.flatMap fun g => g.2) ⊆ bindIds binds :=
    List.map_subset _ fun b hb => mem_binds_of_split hsplit (Or.inl hb)
  have hown : bindIds g.2 ⊆ bindIds binds :=
    List.map_subset _ fun b hb => mem_binds_of_split hsplit (Or.inr hb)
  -- a signature refers to no values
  have hvalues : ∀ xs ys, (v.withValues xs).Le [] (v.withValues ys) := fun _ _ =>
    Visible.withValues_le_withValues (by simp)
  simp only [Decl.inScope, Bool.and_eq_true, List.all_eq_true, bindsInScope_iff,
    Visible.withValues_withValues, Bind.resolvesIn]
  constructor
  · rintro ⟨hsigs, hbinds⟩ b hb
    refine ⟨Bind.signatureInScope_of_le (hvalues _ _) (hsigs b hb), ?_⟩
    refine b.inScope_of_le (Visible.withValues_le_withValues fun id _ hid => ?_)
      (List.Subset.refl _) (hbinds b hb _ (mem_ownParams hb))
    rcases List.mem_append.mp hid with hid | hid
    · exact hbefore hid
    · split at hid
      · exact hown hid
      · exact absurd hid List.not_mem_nil
  · intro h
    refine ⟨fun b hb => Bind.signatureInScope_of_le (hvalues _ _) (h b hb).1,
      fun b hb own hmem => ?_⟩
    rw [eq_of_mem_ownParams hnames hb hmem]
    refine b.inScope_of_le (Visible.withValues_le_withValues fun id hid hbound => ?_)
      (List.Subset.refl _) (h b hb).2
    rw [List.mem_append]
    obtain ⟨b', hb', rfl⟩ := List.mem_map.mp hbound
    rcases exists_group_of_reference hsplit hb hid ⟨b', hb', rfl⟩ with
      ⟨hrec, b'', hb'', hname⟩ | ⟨g', hg', b'', hb'', hname⟩
    · rw [if_pos hrec]
      exact Or.inr (List.mem_map.mpr ⟨b'', hb'', hname⟩)
    · exact Or.inl (List.mem_map.mpr ⟨b'', List.mem_flatMap.mpr ⟨g', hg', hb''⟩, hname⟩)

end Groups

theorem groups_inScope_iff : ∀ (rest before : List (Bool × List Bind)),
    groupBindings binds = before ++ rest →
    (declsInScope (v.withValues (bindIds (before.flatMap fun g => g.2)))
      (rest.map fun g => .group g.1 g.2) = true ↔
        ∀ b ∈ rest.flatMap fun g => g.2, b.resolvesIn (v.withValues (bindIds binds)) = true)
  | [], _, _ => by simp [declsInScope]
  | g :: rest, before, hsplit => by
    have hstep : (v.withValues (bindIds (before.flatMap fun g => g.2))).declare (.group g.1 g.2) =
        v.withValues (bindIds ((before ++ [g]).flatMap fun g => g.2)) := by
      rw [Visible.declare, Visible.withValues_withValues]
      simp [bindIds]
    have hrest := groups_inScope_iff rest (before ++ [g]) (by simpa using hsplit)
    rw [List.map_cons, declsInScope, Bool.and_eq_true, group_inScope_iff hsplit, hstep, hrest,
      List.flatMap_cons, List.forall_mem_append]

theorem regroup_inScope_iff : ∀ (ds : List Decl) {v : Visible}, declsInScope v ds = true →
    (declsInScope v (regroup (groupBindings (bindsOf ds)) ds) = true ↔
      ∀ b ∈ bindsOf ds, b.resolvesIn (v.forGroups ds) = true)
  | [], _, _ => by simp [regroup, declsInScope, bindsOf]
  | .group recursive bs :: ds, v, h => by
    let binds := bs ++ bindsOf ds
    have hbinds : ((groupBindings binds).flatMap fun g => g.2).Perm binds :=
      flatMap_groupBindings binds
    have hafter : declsInScope (v.declareAll ((groupBindings binds).map fun g => .group g.1 g.2))
        (withoutGroups ds) = true := by
      rw [declareAll_groups]
      have hmem : ∀ id ∈ bindIds binds,
          id ∈ bindIds ((groupBindings binds).flatMap fun g => g.2) := fun id hid =>
        (hbinds.symm.map fun b : Bind => b.name.id).subset hid
      have hids : bindIds binds = bindIds bs ++ bindIds (bindsOf ds) := List.map_append ..
      rw [hids] at hmem
      rw [declsInScope, Bool.and_eq_true] at h
      refine withoutGroups_inScope ds (fun ids => ?_) (fun id hid => ?_) h.2
      · exact Visible.withValues_le_withValues fun id _ hid =>
          hmem id (List.mem_append_left _ hid)
      · exact Visible.value_withValues.mpr (Or.inr (hmem id (List.mem_append_right _ hid)))
    have hgroups : declsInScope v ((groupBindings binds).map fun g => .group g.1 g.2) = true ↔
        ∀ b ∈ (groupBindings binds).flatMap fun g => g.2,
          b.resolvesIn (v.withValues (bindIds binds)) = true := by
      have hall := groups_inScope_iff (v := v) (groupBindings binds) [] rfl
      have hnone : v.withValues (bindIds []) = v := by simp [Visible.withValues, bindIds]
      rwa [List.flatMap_nil, hnone] at hall
    rw [regroup, declsInScope_append, Bool.and_eq_true, bindsOf, hgroups, and_iff_left hafter]
    exact forall_congr' fun b => imp_congr_left hbinds.mem_iff
  | .synonym n ps body r :: ds, v, h
  | .newtype n ps fs conName r :: ds, v, h
  | .primType n kind props r :: ds, v, h
  | .paramType n kind r :: ds, v, h
  | .paramProps props r :: ds, v, h
  | .paramFun n sig r :: ds, v, h
  | .submodule n inner r :: ds, v, h => by
    rw [declsInScope, Bool.and_eq_true] at h
    have hrest := regroup_inScope_iff ds h.2
    rw [regroup, declsInScope, Bool.and_eq_true, and_iff_right h.1]
    · exact hrest
    all_goals simp

/-- Regrouping keeps declarations in scope exactly if each binding refers only to what is visible
before the first group or bound by a group. -/
theorem groupDecls_inScope_iff (h : declsInScope v ds = true) :
    declsInScope v (groupDecls ds) = true ↔
      ∀ b ∈ bindsOf ds, b.resolvesIn (v.forGroups ds) = true :=
  regroup_inScope_iff ds h

/-! ## What the bodies are made of -/

theorem mem_bindsOf {b : Bind} :
    b ∈ bindsOf ds ↔ ∃ recursive bs, Decl.group recursive bs ∈ ds ∧ b ∈ bs := by
  induction ds with
  | nil => simp [bindsOf]
  | cons d ds ih => cases d <;> simp [bindsOf, ih, or_and_right, exists_or]

theorem withoutGroups_subset (ds : List Decl) : withoutGroups ds ⊆ ds := by
  induction ds with
  | nil => exact List.Subset.refl _
  | cons d ds ih =>
    cases d with
    | group recursive bs => exact List.subset_cons_of_subset _ ih
    | _ => exact List.cons_subset_cons _ ih

theorem mem_regroup {groups : List (Bool × List Bind)} {d : Decl} (h : d ∈ regroup groups ds) :
    d ∈ ds ∨ ∃ g ∈ groups, d = .group g.1 g.2 := by
  induction ds with
  | nil => cases h
  | cons d' ds ih =>
    cases d' with
    | group recursive bs =>
      rcases List.mem_append.mp h with h | h
      · obtain ⟨g, hg, rfl⟩ := List.mem_map.mp h
        exact .inr ⟨g, hg, rfl⟩
      · exact .inl (List.mem_cons_of_mem _ (withoutGroups_subset ds h))
    | _ =>
      rcases List.mem_cons.mp h with rfl | h
      · exact .inl List.mem_cons_self
      · exact (ih h).imp_left (List.mem_cons_of_mem _)

/-- Regrouped declarations have no other bodies. -/
theorem subtermsDecls_groupDecls_subset (ds : List Decl) :
    subtermsDecls (groupDecls ds) ⊆ subtermsDecls ds := by
  intro x hx
  obtain ⟨d, hd, e, hbody, hxe⟩ := (mem_subtermsDecls _).mp hx
  rcases mem_regroup hd with hd | ⟨g, hg, rfl⟩
  · exact (mem_subtermsDecls ds).mpr ⟨d, hd, e, hbody, hxe⟩
  · obtain ⟨b, hb, he⟩ : ∃ b ∈ g.2, b.body = some e := by
      cases hbody with
      | group hb he => exact ⟨_, hb, he⟩
    obtain ⟨recursive, bs, hmem, hbs⟩ :=
      mem_bindsOf.mp ((sublist_of_mem_groupBindings hg).subset hb)
    exact (mem_subtermsDecls ds).mpr ⟨_, hmem, e, .group hbs he, hxe⟩

end SizedTypes.Surface
