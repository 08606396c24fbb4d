import Mathlib
import SizedTypes.Proofs.Graph.Components
import SizedTypes.Proofs.Surface.References
import SizedTypes.Proofs.Table
import SizedTypes.Surface.Grouping

/-!
# The groups of bindings

The groups are the components of the graph of references, so bindings share a group exactly if
each refers to the other by a chain of references, and a binding refers only to bindings of its
own group and of earlier groups.
-/

set_option autoImplicit false

namespace SizedTypes.Surface

open Relation (ReflTransGen TransGen)

variable {binds : List Bind} {b b' : Bind} {id : Int} {u v w : Nat}

/-! ## Positions -/

theorem exists_of_find?_bindPositions (h : (bindPositions binds).find? id = some v) :
    ∃ b, binds[v]? = some b ∧ b.name.id = id := by
  obtain ⟨⟨b, v⟩, hb, heq⟩ := List.mem_map.mp (Table.mem_ofList (Table.mem_of_find? h))
  obtain ⟨rfl, rfl⟩ := Prod.mk.inj heq
  exact ⟨b, List.mem_zipIdx_iff_getElem?.mp hb, rfl⟩

theorem exists_find?_bindPositions (hb : b ∈ binds) :
    ∃ v, (bindPositions binds).find? b.name.id = some v := by
  obtain ⟨v, hv⟩ := List.mem_iff_getElem?.mp hb
  have hkey : b.name.id ∈ (binds.zipIdx.map fun b => (b.1.name.id, b.2)).map Prod.fst :=
    List.mem_map.mpr ⟨_, List.mem_map.mpr ⟨(b, v), List.mem_zipIdx_iff_getElem?.mpr hv, rfl⟩, rfl⟩
  obtain ⟨w, hw, -⟩ := Table.exists_find?_ofList hkey
  exact ⟨w, hw⟩

theorem getElem?_inj_of_names (hnames : (binds.map fun b => b.name.id).Nodup)
    (hv : binds[v]? = some b) (hw : binds[w]? = some b') (hid : b.name.id = b'.name.id) : v = w := by
  obtain ⟨hvlt, rfl⟩ := List.getElem?_eq_some_iff.mp hv
  obtain ⟨hwlt, rfl⟩ := List.getElem?_eq_some_iff.mp hw
  have hlen : (binds.map fun b => b.name.id).length = binds.length := List.length_map ..
  have hid : (binds.map fun b => b.name.id)[v] = (binds.map fun b => b.name.id)[w] := by simpa
  exact (List.Nodup.getElem_inj_iff hnames).mp hid

theorem find?_bindPositions_iff (hnames : (binds.map fun b => b.name.id).Nodup) :
    (bindPositions binds).find? id = some v ↔ ∃ b, binds[v]? = some b ∧ b.name.id = id := by
  refine ⟨exists_of_find?_bindPositions, ?_⟩
  rintro ⟨b, hv, rfl⟩
  obtain ⟨w, hw⟩ := exists_find?_bindPositions (List.mem_of_getElem? hv)
  obtain ⟨b', hb', hid⟩ := exists_of_find?_bindPositions hw
  rwa [getElem?_inj_of_names hnames hv hb' hid.symm]

/-! ## The graph of references -/

/-- The position `v` is that of a name in the body of the binding at `u`. -/
def Uses (binds : List Bind) (u v : Nat) : Prop :=
  ∃ b, binds[u]? = some b ∧ ∃ id ∈ varIds b.subterms, (bindPositions binds).find? id = some v

theorem Uses.lt_length (h : Uses binds u v) : u < binds.length ∧ v < binds.length := by
  obtain ⟨b, hb, id, -, hv⟩ := h
  obtain ⟨b', hb', -⟩ := exists_of_find?_bindPositions hv
  exact ⟨(List.getElem?_eq_some_iff.mp hb).1, (List.getElem?_eq_some_iff.mp hb').1⟩

theorem uses_iff (hnames : (binds.map fun b => b.name.id).Nodup) (hu : binds[u]? = some b)
    (hv : binds[v]? = some b') : Uses binds u v ↔ b.RefersTo b' := by
  rw [Bind.refersTo_iff]
  constructor
  · rintro ⟨c, hc, id, hid, hfind⟩
    obtain ⟨c', hc', rfl⟩ := exists_of_find?_bindPositions hfind
    obtain rfl := Option.some.inj (hu.symm.trans hc)
    obtain rfl := Option.some.inj (hv.symm.trans hc')
    exact hid
  · exact fun hid => ⟨b, hu, _, hid, (find?_bindPositions_iff hnames).mpr ⟨b', hv, rfl⟩⟩

theorem mem_references : v ∈ ((references binds)[u]?).getD [] ↔ Uses binds u v := by
  unfold Uses references
  cases hu : binds[u]? with
  | none => simp [hu]
  | some b => simp [hu]

theorem edge_dependencyGraph : (dependencyGraph binds).Edge v u ↔ v ≠ u ∧ Uses binds u v := by
  rw [dependencyGraph, Graph.edge_ofEdges, List.mem_flatMap]
  constructor
  · rintro ⟨⟨⟨refs, u'⟩, hrefs, hedge⟩, -⟩
    obtain ⟨dep, hdep, heq⟩ := List.mem_map.mp hedge
    obtain ⟨rfl, rfl⟩ := Prod.mk.inj heq
    obtain ⟨hdep, hne⟩ := List.mem_filter.mp hdep
    refine ⟨by simpa using hne, mem_references.mp ?_⟩
    rwa [List.mem_zipIdx_iff_getElem?.mp hrefs]
  · rintro ⟨hne, huse⟩
    have hdep := mem_references.mpr huse
    cases hrefs : (references binds)[u]? with
    | none => simp [hrefs] at hdep
    | some refs =>
      rw [hrefs, Option.getD_some] at hdep
      refine ⟨⟨(refs, u), List.mem_zipIdx_iff_getElem?.mpr hrefs, ?_⟩, huse.lt_length.2⟩
      exact List.mem_map.mpr ⟨v, List.mem_filter.mpr ⟨hdep, by simpa using hne⟩, rfl⟩

@[simp] theorem size_dependencyGraph : (dependencyGraph binds).size = binds.length :=
  Graph.size_ofEdges ..

theorem closed_dependencyGraph (binds : List Bind) : (dependencyGraph binds).Closed := fun v u h => by
  rw [size_dependencyGraph]
  exact (edge_dependencyGraph.mp h).2.lt_length.1

theorem reachable_of_uses (h : Uses binds u v) : (dependencyGraph binds).Reachable v u := by
  by_cases heq : v = u
  · exact heq ▸ .refl
  · exact .single (edge_dependencyGraph.mpr ⟨heq, h⟩)

/-! ## Groups -/

/-- A component is marked if and only if a binding of it uses one of it. -/
theorem isRecursive_iff {c : List Nat} (hc : c ∈ (dependencyGraph binds).components) :
    isRecursive (references binds) c = true ↔ ∃ u ∈ c, ∃ v ∈ c, Uses binds u v := by
  have hself : (c.any fun v => (((references binds)[v]?).getD []).contains v) = true ↔
      ∃ v ∈ c, Uses binds v v := by
    simp only [List.any_eq_true, List.contains_iff_mem, mem_references]
  rw [isRecursive, Bool.or_eq_true, decide_eq_true_iff, hself]
  constructor
  · rintro (hlen | ⟨v, hv, huse⟩)
    · -- two vertices of a component are joined by a path, whose first edge stays in it
      obtain ⟨v, w, rest, rfl⟩ : ∃ v w rest, c = v :: w :: rest := by
        match c, hlen with
        | v :: w :: rest, _ => exact ⟨v, w, rest, rfl⟩
      have hg := closed_dependencyGraph binds
      have hnodup := List.nodup_range.sublist (Graph.sublist_of_mem_components hc)
      have hne : v ≠ w := fun heq => by simp [heq] at hnodup
      have hjoined := (Graph.mem_iff_joined hg hc (List.mem_cons_self ..)).mp
        (List.mem_cons_of_mem v (List.mem_cons_self (a := w) (l := rest)))
      rcases ReflTransGen.cases_head hjoined.1 with heq | ⟨x, hedge, hpath⟩
      · exact absurd heq hne
      · have hx : x ∈ v :: w :: rest :=
          (Graph.mem_iff_joined hg hc (List.mem_cons_self ..)).mpr
            ⟨.single hedge, hpath.trans hjoined.2⟩
        exact ⟨x, hx, v, List.mem_cons_self .., (edge_dependencyGraph.mp hedge).2⟩
    · exact ⟨v, hv, v, hv, huse⟩
  · rintro ⟨u, hu, v, hv, huse⟩
    by_cases heq : u = v
    · exact Or.inr ⟨u, hu, heq ▸ huse⟩
    · refine Or.inl ?_
      have hpair : [u, v].Nodup := by simpa using heq
      exact (List.subperm_of_subset hpair (by simp [hu, hv] : [u, v] ⊆ c)).length_le

theorem filterMap_range_getElem? {α : Type} (xs : List α) :
    (List.range xs.length).filterMap (fun v => xs[v]?) = xs := by
  induction xs with
  | nil => rfl
  | cons x xs ih =>
    rw [List.length_cons, List.range_succ_eq_map, List.filterMap_cons, List.filterMap_map]
    simpa [Function.comp_def] using ih

/-- Each binding is in exactly one group, once. -/
theorem flatMap_groupBindings (binds : List Bind) :
    ((groupBindings binds).flatMap fun g => g.2).Perm binds := by
  have hperm := Graph.flatten_components (closed_dependencyGraph binds)
  have heq : ((groupBindings binds).flatMap fun g => g.2) =
      (dependencyGraph binds).components.flatten.filterMap fun v => binds[v]? := by
    rw [groupBindings, List.flatMap_map, List.filterMap_flatten, ← List.flatMap_def]
  rw [heq]
  refine (hperm.filterMap _).trans (.of_eq ?_)
  rw [size_dependencyGraph, filterMap_range_getElem?]

theorem sublist_of_mem_groupBindings {g : Bool × List Bind} (hg : g ∈ groupBindings binds) :
    g.2.Sublist binds := by
  obtain ⟨c, hc, rfl⟩ := List.mem_map.mp hg
  have hsub := Graph.sublist_of_mem_components hc
  rw [size_dependencyGraph] at hsub
  have hmap := hsub.filterMap fun v => binds[v]?
  rwa [filterMap_range_getElem?] at hmap

theorem mem_group {c : List Nat} :
    b ∈ c.filterMap (fun v => binds[v]?) ↔ ∃ v ∈ c, binds[v]? = some b := List.mem_filterMap

/-- What a binding refers to is in its own group, which is marked then, or in an earlier one. This
needs no distinct names: of several bindings with one name the last is meant. -/
theorem exists_group_of_reference {before after : List (Bool × List Bind)} {g : Bool × List Bind}
    (hsplit : groupBindings binds = before ++ g :: after) (hb : b ∈ g.2)
    (hid : id ∈ varIds b.subterms) (hbound : ∃ b' ∈ binds, b'.name.id = id) :
    (g.1 = true ∧ ∃ b' ∈ g.2, b'.name.id = id) ∨
      ∃ g' ∈ before, ∃ b' ∈ g'.2, b'.name.id = id := by
  obtain ⟨cs, ds, hcs, rfl, hds⟩ := List.map_eq_append_iff.mp hsplit
  obtain ⟨c, ds, rfl, rfl, -⟩ := List.map_eq_cons_iff.mp hds
  have hg := closed_dependencyGraph binds
  have hc : c ∈ (dependencyGraph binds).components := hcs ▸ by simp
  obtain ⟨u, hu, hbu⟩ := mem_group.mp hb
  obtain ⟨b', hb', rfl⟩ := hbound
  obtain ⟨v, hv⟩ := exists_find?_bindPositions hb'
  obtain ⟨b'', hbv, hname⟩ := exists_of_find?_bindPositions hv
  have huse : Uses binds u v := ⟨b, hbu, _, hid, hv⟩
  have hreach := reachable_of_uses huse
  have hlt : v < (dependencyGraph binds).size := by
    rw [size_dependencyGraph]
    exact huse.lt_length.2
  obtain ⟨d, hd, hvd⟩ := Graph.exists_mem_components hg hlt
  have horder := Graph.pairwise_components hg
  rw [hcs] at hd horder
  rcases List.mem_append.mp hd with hd | hd
  · exact Or.inr ⟨_, List.mem_map_of_mem hd, b'', mem_group.mpr ⟨v, hvd, hbv⟩, hname⟩
  · rcases List.mem_cons.mp hd with rfl | hd
    · exact Or.inl ⟨(isRecursive_iff hc).mpr ⟨u, hu, v, hvd, huse⟩,
        b'', mem_group.mpr ⟨v, hvd, hbv⟩, hname⟩
    · have hprec := (List.pairwise_cons.mp (List.pairwise_append.mp horder).2.1).1 d hd
      exact absurd hreach (hprec u hu v hvd)

/-! ## Chains of references -/

/-- A reference between two of the bindings. -/
def Refers (binds : List Bind) (b b' : Bind) : Prop := b ∈ binds ∧ b' ∈ binds ∧ b.RefersTo b'

section
variable (hnames : (binds.map fun b => b.name.id).Nodup)
include hnames

theorem reachable_iff_chain (hv : binds[v]? = some b) (hu : binds[u]? = some b') :
    (dependencyGraph binds).Reachable v u ↔ ReflTransGen (Refers binds) b' b := by
  constructor
  · intro h
    induction h generalizing b' with
    | refl => exact Option.some.inj (hu.symm.trans hv) ▸ .refl
    | @tail x u _ hedge ih =>
      have huse := (edge_dependencyGraph.mp hedge).2
      obtain ⟨c, hc⟩ : ∃ c, binds[x]? = some c := ⟨_, List.getElem?_eq_getElem huse.lt_length.2⟩
      exact .head ⟨List.mem_of_getElem? hu, List.mem_of_getElem? hc,
        (uses_iff hnames hu hc).mp huse⟩ (ih hc)
  · intro h
    induction h using ReflTransGen.head_induction_on generalizing u with
    | refl => exact getElem?_inj_of_names hnames hv hu rfl ▸ .refl
    | head href _ ih =>
      obtain ⟨x, hx⟩ := List.mem_iff_getElem?.mp href.2.1
      exact (ih hx).trans (reachable_of_uses ((uses_iff hnames hu hx).mpr href.2.2))

theorem joined_iff_chains (hv : binds[v]? = some b) (hu : binds[u]? = some b') :
    (dependencyGraph binds).Joined v u ↔
      b = b' ∨ TransGen (Refers binds) b b' ∧ TransGen (Refers binds) b' b := by
  rw [Graph.Joined, reachable_iff_chain hnames hv hu, reachable_iff_chain hnames hu hv,
    Relation.reflTransGen_iff_eq_or_transGen, Relation.reflTransGen_iff_eq_or_transGen]
  constructor
  · rintro ⟨heq | h, heq' | h'⟩
    · exact Or.inl heq
    · exact Or.inl heq
    · exact Or.inl heq'.symm
    · exact Or.inr ⟨h', h⟩
  · rintro (rfl | ⟨h, h'⟩)
    · exact ⟨Or.inl rfl, Or.inl rfl⟩
    · exact ⟨Or.inr h', Or.inr h⟩

theorem same_group_iff (hb : b ∈ binds) (hb' : b' ∈ binds) :
    (∃ g ∈ groupBindings binds, b ∈ g.2 ∧ b' ∈ g.2) ↔
      b = b' ∨ TransGen (Refers binds) b b' ∧ TransGen (Refers binds) b' b := by
  obtain ⟨v, hv⟩ := List.mem_iff_getElem?.mp hb
  obtain ⟨u, hu⟩ := List.mem_iff_getElem?.mp hb'
  have hlt : v < (dependencyGraph binds).size := by
    rw [size_dependencyGraph]
    exact (List.getElem?_eq_some_iff.mp hv).1
  rw [← joined_iff_chains hnames hv hu,
    Graph.joined_iff_exists_mem_components (closed_dependencyGraph binds) hlt]
  constructor
  · rintro ⟨g, hg, hbg, hbg'⟩
    obtain ⟨c, hc, rfl⟩ := List.mem_map.mp hg
    obtain ⟨v', hv', hbv'⟩ := mem_group.mp hbg
    obtain ⟨u', hu', hbu'⟩ := mem_group.mp hbg'
    obtain rfl := getElem?_inj_of_names hnames hv hbv' rfl
    obtain rfl := getElem?_inj_of_names hnames hu hbu' rfl
    exact ⟨c, hc, hv', hu'⟩
  · rintro ⟨c, hc, hvc, huc⟩
    exact ⟨_, List.mem_map_of_mem hc, mem_group.mpr ⟨v, hvc, hv⟩, mem_group.mpr ⟨u, huc, hu⟩⟩

theorem not_refersTo_later :
    (groupBindings binds).Pairwise fun g g' => ∀ b ∈ g.2, ∀ b' ∈ g'.2, ¬b.RefersTo b' := by
  have horder := Graph.pairwise_components (closed_dependencyGraph binds)
  refine List.pairwise_map.mpr (horder.imp fun {c d} hcd b hb b' hb' href => ?_)
  obtain ⟨u, hu, hbu⟩ := mem_group.mp hb
  obtain ⟨v, hv, hbv⟩ := mem_group.mp hb'
  exact hcd u hu v hv (reachable_of_uses ((uses_iff hnames hbu hbv).mpr href))

theorem recursive_iff {g : Bool × List Bind} (hg : g ∈ groupBindings binds) :
    g.1 = true ↔ ∃ b ∈ g.2, ∃ b' ∈ g.2, b.RefersTo b' := by
  obtain ⟨c, hc, rfl⟩ := List.mem_map.mp hg
  dsimp only
  rw [isRecursive_iff hc]
  constructor
  · rintro ⟨u, hu, v, hv, huse⟩
    obtain ⟨b, hbu⟩ : ∃ b, binds[u]? = some b := ⟨_, List.getElem?_eq_getElem huse.lt_length.1⟩
    obtain ⟨b', hbv⟩ : ∃ b', binds[v]? = some b' := ⟨_, List.getElem?_eq_getElem huse.lt_length.2⟩
    exact ⟨b, mem_group.mpr ⟨u, hu, hbu⟩, b', mem_group.mpr ⟨v, hv, hbv⟩,
      (uses_iff hnames hbu hbv).mp huse⟩
  · rintro ⟨b, hb, b', hb', href⟩
    obtain ⟨u, hu, hbu⟩ := mem_group.mp hb
    obtain ⟨v, hv, hbv⟩ := mem_group.mp hb'
    exact ⟨u, hu, v, hv, (uses_iff hnames hbu hbv).mpr href⟩

end

/-- Grouping is a dependency analysis of bindings with distinct names. -/
theorem groupBindings_analysis (binds : List Bind)
    (hnames : (binds.map fun b => b.name.id).Nodup) :
    ((groupBindings binds).flatMap fun g => g.2).Perm binds ∧
    (∀ b ∈ binds, ∀ b' ∈ binds, (∃ g ∈ groupBindings binds, b ∈ g.2 ∧ b' ∈ g.2) ↔
      b = b' ∨ TransGen (Refers binds) b b' ∧ TransGen (Refers binds) b' b) ∧
    ((groupBindings binds).Pairwise fun g g' => ∀ b ∈ g.2, ∀ b' ∈ g'.2, ¬b.RefersTo b') ∧
    ∀ g ∈ groupBindings binds,
      (g.1 = true ↔ ∃ b ∈ g.2, ∃ b' ∈ g.2, b.RefersTo b') ∧ g.2.Sublist binds :=
  ⟨flatMap_groupBindings binds, fun _ hb _ hb' => same_group_iff hnames hb hb',
    not_refersTo_later hnames,
    fun _ hg => ⟨recursive_iff hnames hg, sublist_of_mem_groupBindings hg⟩⟩

/-- A binding that refers to the first of two bindings, which refer to each other. -/
def parity : List Bind :=
  let main : Name := { id := 1, ident := "main" }
  let even : Name := { id := 2, ident := "even" }
  let odd : Name := { id := 3, ident := "odd" }
  [.mk main [] (some (.block (.tuple []) [.group false
      [.mk { id := 4, ident := "x" } [] (some (.var even)) none false false .empty]]))
      none false false .empty,
    .mk even [] (some (.lambda [.wildcard] (.var odd))) none false false .empty,
    .mk odd [] (some (.lambda [.wildcard] (.var even))) none false false .empty]

theorem groupBindings_analysis_parity :
    (parity.map fun b => b.name.id).Nodup ∧
    (groupBindings parity).map (fun g => (g.1, g.2.map fun b => b.name.id)) =
      [(true, [2, 3]), (false, [1])] ∧
    ((groupBindings parity).flatMap fun g => g.2).Perm parity ∧
    (∀ b ∈ parity, ∀ b' ∈ parity, (∃ g ∈ groupBindings parity, b ∈ g.2 ∧ b' ∈ g.2) ↔
      b = b' ∨ TransGen (Refers parity) b b' ∧ TransGen (Refers parity) b' b) ∧
    ((groupBindings parity).Pairwise fun g g' => ∀ b ∈ g.2, ∀ b' ∈ g'.2, ¬b.RefersTo b') ∧
    ∀ g ∈ groupBindings parity,
      (g.1 = true ↔ ∃ b ∈ g.2, ∃ b' ∈ g.2, b.RefersTo b') ∧ g.2.Sublist parity :=
  have hnames : (parity.map fun b => b.name.id).Nodup := by decide
  ⟨hnames, by cbv, groupBindings_analysis parity hnames⟩

end SizedTypes.Surface
