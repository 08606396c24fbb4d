import SizedTypes.Proofs.Graph.Search

/-!
# Strongly connected components

The search visits all vertices and returns the classes of those that reach each other, in an order in
which no vertex of a component can be reached from a later component. It does so for every bound on
its depth from the number of vertices on.
-/

set_option autoImplicit false

namespace SizedTypes.Graph

variable {g : Graph} {v w : Nat}

/-! ## Deeper searches -/

theorem Search.follow_mono {f f' : Nat → Search → Option Search} {s s' : Search}
    (hf : ∀ w s s', f w s = some s' → f' w s = some s') (h : Search.follow f v s w = some s') :
    Search.follow f' v s w = some s' := by
  unfold Search.follow at h ⊢
  split at h
  · cases h
  · obtain ⟨s₁, hs₁, rfl⟩ := Option.map_eq_some_iff.mp h
    rw [hf w s s₁ hs₁]
    rfl
  · exact h

theorem foldlM_mono {α β : Type} {f f' : β → α → Option β}
    (hf : ∀ b a b', f b a = some b' → f' b a = some b') {as : List α} {b b' : β}
    (h : as.foldlM f b = some b') : as.foldlM f' b = some b' := by
  induction as generalizing b with
  | nil => exact h
  | cons a as ih =>
    rw [List.foldlM_cons] at h ⊢
    obtain ⟨b₁, hb₁, h⟩ := Option.bind_eq_some_iff.mp h
    exact Option.bind_eq_some_iff.mpr ⟨b₁, hf b a b₁ hb₁, ih h⟩

/-- A visit that ends is not changed by a larger bound. -/
theorem visit_mono {depth depth' : Nat} (hle : depth ≤ depth') {s s' : Search}
    (h : g.visit depth v s = some s') : g.visit depth' v s = some s' := by
  induction depth generalizing depth' v s s' with
  | zero => cases h
  | succ depth ih =>
    obtain ⟨depth', rfl⟩ : ∃ k, depth' = k + 1 := ⟨depth' - 1, by omega⟩
    rw [visit] at h ⊢
    obtain ⟨s₁, hs₁, h⟩ := Option.bind_eq_some_iff.mp h
    refine Option.bind_eq_some_iff.mpr ⟨s₁, foldlM_mono (fun s w s' => ?_) hs₁, h⟩
    exact Search.follow_mono fun w s s' => ih (Nat.le_of_succ_le_succ hle)

theorem scc_mono {depth depth' : Nat} (hle : depth ≤ depth') {cs : List (List Nat)}
    (h : g.scc depth = some cs) : g.scc depth' = some cs := by
  obtain ⟨s, hs, rfl⟩ := Option.map_eq_some_iff.mp h
  refine Option.map_eq_some_iff.mpr ⟨s, foldlM_mono (fun s v s' h => ?_) hs, rfl⟩
  split at h
  · rename_i hnew
    rw [if_pos hnew]
    exact visit_mono hle h
  · rename_i hmet
    rw [if_neg hmet]
    exact h

/-! ## All vertices -/

theorem searching_start (g : Graph) : Searching g [] (.start g.size) := by
  have hindex : ∀ v, (Search.start g.size).indexOf v = 0 := fun v => by
    rw [Search.indexOf, Search.start, List.getElem?_replicate]
    split <;> rfl
  have hflag : ∀ v, (Search.start g.size).waits v = false := fun v => by
    rw [Search.waits, Search.start, List.getElem?_replicate]
    split <;> rfl
  have hstack : ∀ v, v ∉ (Search.start g.size).stack := fun _ => List.not_mem_nil
  exact
    { settled := settled_nil
      lengthIndex := List.length_replicate
      lengthLow := List.length_replicate
      lengthFlags := List.length_replicate
      index_le := fun v => Nat.le_of_eq (hindex v)
      met_iff := fun v => by
        rw [or_iff_right (hstack v)]
        exact iff_of_false (not_not_intro (hindex v)) List.not_mem_nil
      apart := fun v hv => absurd hv (hstack v)
      waits_iff := fun v => by
        rw [hflag]
        exact iff_of_false Bool.false_ne_true (hstack v)
      newestFirst := .nil
      path_subset := List.nil_subset _
      path_nodup := List.nodup_nil
      left := fun v hv => absurd hv (hstack v)
      ahead := fun v hv => absurd hv List.not_mem_nil
      back := fun v hv => absurd hv (hstack v) }

section
variable (hg : g.Closed)
include hg

theorem searching_visitAll {vs : List Nat} {s : Search} (hvs : ∀ v ∈ vs, v < g.size)
    (h : Searching g [] s) : ∃ s', g.visitAll g.size vs s = some s' ∧ Searching g [] s' ∧
      Later s s' ∧ ∀ v ∈ vs, s'.indexOf v ≠ 0 := by
  induction vs generalizing s with
  | nil => exact ⟨s, rfl, h, .refl s, List.forall_mem_nil _⟩
  | cons v vs ih =>
    obtain ⟨hv, hvs⟩ := List.forall_mem_cons.mp hvs
    have hstep : ∃ s₁, (if s.indexOf v = 0 then g.visit g.size v s else some s) = some s₁ ∧
        Searching g [] s₁ ∧ Later s s₁ ∧ s₁.indexOf v ≠ 0 := by
      split
      · rename_i hnew
        obtain ⟨s₁, hs₁, h₁⟩ := visited_visit hg h hv hnew (List.forall_mem_nil _)
          (Nat.le_add_left ..)
        exact ⟨s₁, hs₁, h₁.searching, h₁.later, h₁.met⟩
      · rename_i hmet
        exact ⟨s, rfl, h, .refl s, hmet⟩
    obtain ⟨s₁, hs₁, h₁, hlater₁, hmet⟩ := hstep
    obtain ⟨s', hs', h', hlater, hall⟩ := ih hvs h₁
    refine ⟨s', ?_, h', hlater₁.trans hlater, ?_⟩
    · rw [visitAll, List.foldlM_cons, hs₁]
      exact hs'
    · exact List.forall_mem_cons.mpr ⟨hlater.index_ne_zero hmet, hall⟩

/-- What the search returns: components that are settled, and all vertices in them. -/
theorem settled_scc : ∃ cs, g.scc g.size = some cs.reverse ∧ Settled g cs ∧
    ∀ v, v ∈ cs.flatten ↔ v < g.size := by
  obtain ⟨s, hs, h, -, hall⟩ := searching_visitAll hg (fun v hv => List.mem_range.mp hv)
    (searching_start g)
  -- nothing waits when no vertex is being visited
  have hstack : s.stack = [] := by
    refine List.eq_nil_iff_forall_not_mem.mpr fun v hv => ?_
    obtain ⟨u, hu, -⟩ := h.back v hv
    cases hu
  refine ⟨s.found, by rw [scc, hs]; rfl, h.settled, fun v => ?_⟩
  have hmet := h.met_iff v
  rw [hstack, or_iff_right List.not_mem_nil] at hmet
  rw [← hmet]
  exact ⟨h.lt_size, fun hv => hall v (List.mem_range.mpr hv)⟩

omit hg in
theorem components_eq {cs : List (List Nat)} (h : g.scc g.size = some cs) :
    g.components = cs.map g.increasing := by
  rw [components, h]
  rfl

omit hg in
theorem mem_increasing {c : List Nat} (hc : ∀ v ∈ c, v < g.size) : v ∈ g.increasing c ↔ v ∈ c := by
  rw [increasing, List.mem_filter, List.mem_range, List.contains_iff_mem]
  exact and_iff_right_of_imp (hc v)

/-- The components, with their order: sorted each, and last ones first. -/
theorem exists_settled : ∃ cs, g.components = (cs.map g.increasing).reverse ∧ Settled g cs ∧
    (∀ v, v ∈ cs.flatten ↔ v < g.size) ∧ ∀ c ∈ cs, ∀ v, v ∈ g.increasing c ↔ v ∈ c := by
  obtain ⟨cs, hscc, hcs, hall⟩ := settled_scc hg
  refine ⟨cs, by rw [components_eq hscc, List.map_reverse], hcs, hall, fun c hc v => ?_⟩
  exact mem_increasing fun v hv => (hall v).mp (List.mem_flatten.mpr ⟨c, hc, hv⟩)

/-! ## What the components are -/

theorem exists_mem_components (hv : v < g.size) : ∃ c ∈ g.components, v ∈ c := by
  obtain ⟨cs, heq, -, hall, hsame⟩ := exists_settled hg
  obtain ⟨c, hc, hvc⟩ := List.mem_flatten.mp ((hall v).mpr hv)
  rw [heq]
  exact ⟨_, List.mem_reverse.mpr (List.mem_map_of_mem hc), (hsame c hc v).mpr hvc⟩

/-- Edges stay in their component or lead to a later one. -/
theorem pairwise_components : g.components.Pairwise g.Precedes := by
  obtain ⟨cs, heq, hcs, -, hsame⟩ := exists_settled hg
  rw [heq, List.pairwise_reverse, List.pairwise_map]
  refine hcs.ordered.imp_of_mem fun {c d} hc hd hcd x hx y hy => ?_
  exact hcd x ((hsame d hd x).mp hx) y ((hsame c hc y).mp hy)

theorem mem_iff_joined {c : List Nat} (hc : c ∈ g.components) (hv : v ∈ c) :
    w ∈ c ↔ g.Joined v w := by
  obtain ⟨cs, heq, hcs, -, hsame⟩ := exists_settled hg
  rw [heq] at hc
  obtain ⟨d, hd, rfl⟩ := List.mem_map.mp (List.mem_reverse.mp hc)
  rw [hsame d hd]
  exact hcs.joined d hd v ((hsame d hd v).mp hv) w

omit hg in
theorem sublist_of_mem_components {c : List Nat} (hc : c ∈ g.components) :
    c.Sublist (List.range g.size) := by
  obtain ⟨d, -, rfl⟩ := List.mem_map.mp hc
  exact List.filter_sublist

theorem joined_iff_exists_mem_components (hv : v < g.size) :
    g.Joined v w ↔ ∃ c ∈ g.components, v ∈ c ∧ w ∈ c := by
  obtain ⟨c, hc, hvc⟩ := exists_mem_components hg hv
  constructor
  · exact fun h => ⟨c, hc, hvc, (mem_iff_joined hg hc hvc).mpr h⟩
  · rintro ⟨d, hd, hvd, hwd⟩
    exact (mem_iff_joined hg hd hvd).mp hwd

/-- Each vertex is in exactly one component. -/
theorem flatten_components : g.components.flatten.Perm (List.range g.size) := by
  have hdisjoint : g.components.Pairwise List.Disjoint :=
    (pairwise_components hg).imp fun hcd v hc hd => hcd v hc v hd .refl
  have hnodup : g.components.flatten.Nodup :=
    List.pairwise_flatten.mpr ⟨fun c hc => List.nodup_range.sublist (sublist_of_mem_components hc),
      hdisjoint.imp fun hcd v hc w hd hvw => hcd hc (hvw ▸ hd)⟩
  refine (List.perm_ext_iff_of_nodup hnodup List.nodup_range).mpr fun v => ?_
  rw [List.mem_flatten, List.mem_range]
  constructor
  · rintro ⟨c, hc, hv⟩
    exact List.mem_range.mp ((sublist_of_mem_components hc).subset hv)
  · exact exists_mem_components hg

/-- The search ends, within every bound on its depth from the number of vertices on, with a list of
components. Each vertex is in exactly one of them, two vertices are in the same one exactly if each
can be reached from the other, and an edge leads from a component to itself or to a later one. -/
theorem scc_partition : ∃ cs, (∀ depth, g.size ≤ depth → g.scc depth = some cs) ∧
    cs.flatten.Perm (List.range g.size) ∧ (∀ c ∈ cs, c ≠ []) ∧
    (∀ v w, v < g.size → w < g.size →
      ((∃ c ∈ cs, v ∈ c ∧ w ∈ c) ↔ g.Reachable v w ∧ g.Reachable w v)) ∧
    ∀ v w, g.Edge v w → ∀ (i j : Nat) (hi : i < cs.length) (hj : j < cs.length),
      v ∈ cs[i] → w ∈ cs[j] → i ≤ j := by
  obtain ⟨cs, hscc, hcs, hall⟩ := settled_scc hg
  have hordered : cs.reverse.Pairwise g.Precedes := List.pairwise_reverse.mpr hcs.ordered
  refine ⟨cs.reverse, fun depth hle => scc_mono hle hscc, ?_, ?_, fun v w hv hw => ?_, ?_⟩
  · have hnodup : cs.flatten.Nodup := List.pairwise_flatten.mpr
      ⟨hcs.nodup, hcs.ordered.imp fun {c d} (hcd : g.Precedes d c) v hv w hw (hvw : v = w) =>
        hcd w hw v hv (hvw ▸ .refl)⟩
    refine (List.reverse_perm cs).flatten.trans ?_
    exact (List.perm_ext_iff_of_nodup hnodup List.nodup_range).mpr fun v => by
      rw [hall, List.mem_range]
  · exact fun c hc => hcs.nonempty c (List.mem_reverse.mp hc)
  · constructor
    · rintro ⟨c, hc, hvc, hwc⟩
      exact (hcs.joined c (List.mem_reverse.mp hc) v hvc w).mp hwc
    · intro hvw
      obtain ⟨c, hc, hvc⟩ := List.mem_flatten.mp ((hall v).mpr hv)
      exact ⟨c, List.mem_reverse.mpr hc, hvc, (hcs.joined c hc v hvc w).mpr hvw⟩
  · intro v w hedge i j hi hj hv hw
    by_contra hlt
    exact List.pairwise_iff_getElem.mp hordered j i hj hi (Nat.lt_of_not_le hlt) w hw v hv
      (.single hedge)

end

/-- Two cycles with an edge between them, an edge from a vertex to itself, and a vertex on its
own. -/
def twoCycles : Graph := ofEdges 5 [(0, 1), (1, 0), (1, 2), (2, 3), (3, 2), (3, 3)]

theorem scc_twoCycles : twoCycles.Closed ∧
    (∀ depth, 5 ≤ depth → twoCycles.scc depth = some [[4], [1, 0], [3, 2]]) ∧
    ∀ v w, v < 5 → w < 5 →
      ((∃ c ∈ [[4], [1, 0], [3, 2]], v ∈ c ∧ w ∈ c) ↔
        twoCycles.Reachable v w ∧ twoCycles.Reachable w v) := by
  have hclosed : twoCycles.Closed := fun v w h => by
    rw [twoCycles, edge_ofEdges] at h
    rw [twoCycles, size_ofEdges]
    simp only [List.mem_cons, Prod.mk.injEq, List.not_mem_nil, or_false] at h
    omega
  obtain ⟨cs, hscc, -, -, hsame, -⟩ := scc_partition hclosed
  obtain rfl : cs = [[4], [1, 0], [3, 2]] :=
    Option.some.inj ((hscc 5 (Nat.le_refl _)).symm.trans rfl)
  exact ⟨hclosed, hscc, hsame⟩

end SizedTypes.Graph
