import Mathlib.Data.List.Infix
import Mathlib.Data.List.Perm.Subperm
import SizedTypes.Proofs.Graph.Reach

/-!
# The search for components

Between two steps of a search the vertices on the stack are those that have been met but whose
component is not complete. Those that are being visited make up the path; every vertex on the stack
can get back to one of the path that was met no later, and a vertex of the path reaches all that were
met after it and wait. A visit keeps this. In the end the link of its vertex is the number of an older
vertex on the stack, or its own; then no edge leads from what lies above it on the stack to an older
vertex there, and this is a component.
-/

set_option autoImplicit false

namespace SizedTypes.Graph

variable {g : Graph} {u v w x y : Nat}

namespace Search

variable {s s' : Search} {low : Nat}

/-! ## Reading the state of a search -/

theorem getD_set {α : Type} {xs : List α} {a d : α} (hv : v < xs.length) :
    ((xs.set v a)[w]?).getD d = if w = v then a else (xs[w]?).getD d := by
  rw [List.getElem?_set]
  by_cases h : v = w
  · subst h
    simp [hv]
  · simp [h, Ne.symm h]

theorem indexOf_enter (hv : v < s.index.length) :
    (s.enter v).indexOf w = if w = v then s.met + 1 else s.indexOf w := getD_set hv

theorem lowOf_enter (hv : v < s.lowLink.length) :
    (s.enter v).lowOf w = if w = v then s.met + 1 else s.lowOf w := getD_set hv

theorem waits_enter (hv : v < s.onStack.length) :
    (s.enter v).waits w = if w = v then true else s.waits w := getD_set hv

theorem lowOf_lower (hv : v < s.lowLink.length) :
    (s.lower v low).lowOf w = if w = v then min (s.lowOf v) low else s.lowOf w := by
  have hset : ((s.lowLink.set v low)[w]?).getD 0 = if w = v then low else s.lowOf w := getD_set hv
  unfold lower lowOf at *
  dsimp only
  split
  · rw [hset]
    split
    · omega
    · rfl
  · split
    · rename_i hw
      subst hw
      omega
    · rfl

theorem length_lower : (s.lower v low).lowLink.length = s.lowLink.length := by
  unfold lower
  dsimp only
  split
  · exact List.length_set
  · rfl

theorem splitBelow_append {above below : List Nat} (hv : v ∉ above) :
    splitBelow v (above ++ v :: below) = some (above ++ [v], below) := by
  induction above with
  | nil => simp [splitBelow]
  | cons w ws ih =>
    obtain ⟨hw, hws⟩ := List.ne_and_not_mem_of_not_mem_cons hv
    rw [List.cons_append, splitBelow, if_neg (Ne.symm hw), ih hws]
    rfl

theorem length_cleared (c : List Nat) (flags : List Bool) :
    (c.foldl (fun flags w => flags.set w false) flags).length = flags.length := by
  induction c generalizing flags with
  | nil => rfl
  | cons w ws ih => rw [List.foldl_cons, ih, List.length_set]

theorem getD_cleared (c : List Nat) (flags : List Bool) :
    ((c.foldl (fun flags w => flags.set w false) flags)[v]?).getD false = true ↔
      (flags[v]?).getD false = true ∧ v ∉ c := by
  induction c generalizing flags with
  | nil => simp
  | cons w ws ih =>
    rw [List.foldl_cons, ih, List.getElem?_set, List.mem_cons]
    by_cases h : w = v
    · subst h
      by_cases hlt : w < flags.length <;> simp [hlt]
    · simp [h, Ne.symm h]

end Search

/-! ## Components that have been found -/

/-- No vertex of `c` can be reached from one of `d`. -/
def Precedes (g : Graph) (c d : List Nat) : Prop := ∀ x ∈ c, ∀ y ∈ d, ¬g.Reachable y x

/-- The components `cs` are complete, no edge leaves them, and none can be reached from an earlier
one. -/
structure Settled (g : Graph) (cs : List (List Nat)) : Prop where
  joined : ∀ c ∈ cs, ∀ v ∈ c, ∀ w, w ∈ c ↔ g.Joined v w
  closed : ∀ v ∈ cs.flatten, ∀ w, g.Edge v w → w ∈ cs.flatten
  nonempty : ∀ c ∈ cs, c ≠ []
  nodup : ∀ c ∈ cs, c.Nodup
  ordered : cs.Pairwise fun c d => g.Precedes d c

theorem settled_nil : Settled g [] := ⟨by simp, by simp, by simp, by simp, .nil⟩

namespace Settled

variable {c : List Nat} {cs : List (List Nat)}

theorem mem_of_reachable (h : Settled g cs) (hv : v ∈ cs.flatten) (hreach : g.Reachable v w) :
    w ∈ cs.flatten := by
  induction hreach with
  | refl => exact hv
  | tail _ hedge ih => exact h.closed _ ih _ hedge

/-- Vertices that reach each other are a component if all edges from them lead to one of them or to
what has been found before. -/
theorem concat (h : Settled g cs) (hreach : ∀ v ∈ c, ∀ w ∈ c, g.Reachable v w)
    (hedge : ∀ v ∈ c, ∀ w, g.Edge v w → w ∈ c ∨ w ∈ cs.flatten) (hnew : ∀ v ∈ c, v ∉ cs.flatten)
    (hne : c ≠ []) (hnodup : c.Nodup) : Settled g (cs ++ [c]) := by
  have hflat : ∀ {x}, x ∈ (cs ++ [c]).flatten ↔ x ∈ c ∨ x ∈ cs.flatten := by
    intro x
    simp [or_comm]
  have hclosed : ∀ v ∈ (cs ++ [c]).flatten, ∀ w, g.Edge v w → w ∈ (cs ++ [c]).flatten := by
    intro v hv w hvw
    rcases hflat.mp hv with hv | hv
    · exact hflat.mpr (hedge v hv w hvw)
    · exact hflat.mpr (Or.inr (h.closed v hv w hvw))
  have hstays : ∀ v ∈ c, ∀ w, g.Reachable v w → w ∈ c ∨ w ∈ cs.flatten := by
    intro v hv w hvw
    induction hvw with
    | refl => exact Or.inl hv
    | tail _ hlast ih => exact hflat.mp (hclosed _ (hflat.mpr ih) _ hlast)
  refine ⟨?_, hclosed, ?_, ?_, ?_⟩
  · refine List.forall_mem_append.mpr ⟨h.joined, List.forall_mem_singleton.mpr fun v hv w => ?_⟩
    refine ⟨fun hw => ⟨hreach v hv w hw, hreach w hw v hv⟩, fun hvw => ?_⟩
    exact (hstays v hv w hvw.1).resolve_right fun hw => hnew v hv (h.mem_of_reachable hw hvw.2)
  · exact List.forall_mem_append.mpr ⟨h.nonempty, List.forall_mem_singleton.mpr hne⟩
  · exact List.forall_mem_append.mpr ⟨h.nodup, List.forall_mem_singleton.mpr hnodup⟩
  · refine List.pairwise_append.mpr ⟨h.ordered, List.pairwise_singleton .., fun d hd c' hc' => ?_⟩
    obtain rfl := List.mem_singleton.mp hc'
    intro v hv w hw hwv
    exact hnew v hv (h.mem_of_reachable (List.mem_flatten.mpr ⟨d, hd, hw⟩) hwv)

end Settled

/-! ## Between two steps -/

/-- A search that is visiting the vertices of `path`. -/
structure Searching (g : Graph) (path : List Nat) (s : Search) : Prop where
  settled : Settled g s.found
  lengthIndex : s.index.length = g.size
  lengthLow : s.lowLink.length = g.size
  lengthFlags : s.onStack.length = g.size
  index_le : ∀ v, s.indexOf v ≤ s.met
  met_iff : ∀ v, s.indexOf v ≠ 0 ↔ v ∈ s.stack ∨ v ∈ s.found.flatten
  apart : ∀ v ∈ s.stack, v ∉ s.found.flatten
  waits_iff : ∀ v, s.waits v = true ↔ v ∈ s.stack
  newestFirst : s.stack.Pairwise fun v w => s.indexOf w < s.indexOf v
  path_subset : path ⊆ s.stack
  path_nodup : path.Nodup
  /-- A vertex that is not being visited any more has had all of its edges followed. -/
  left : ∀ v ∈ s.stack, v ∉ path → ∀ w, g.Edge v w → s.indexOf w ≠ 0
  ahead : ∀ v ∈ path, ∀ w ∈ s.stack, s.indexOf v ≤ s.indexOf w → g.Reachable v w
  back : ∀ w ∈ s.stack, ∃ v ∈ path, s.indexOf v ≤ s.indexOf w ∧ g.Reachable w v

namespace Searching

variable {path : List Nat} {s s' : Search} {low : Nat}

theorem lt_size (h : Searching g path s) (hv : s.indexOf v ≠ 0) : v < g.size := by
  by_contra hlt
  rw [← h.lengthIndex] at hlt
  exact hv (by rw [Search.indexOf, List.getElem?_eq_none (Nat.le_of_not_lt hlt)]; rfl)

theorem index_ne_zero (h : Searching g path s) (hv : v ∈ s.stack) : s.indexOf v ≠ 0 :=
  (h.met_iff v).mpr (Or.inl hv)

theorem stack_nodup (h : Searching g path s) : s.stack.Nodup :=
  h.newestFirst.imp fun hlt heq => absurd (heq ▸ hlt) (Nat.lt_irrefl _)

theorem path_length_le (h : Searching g path s) : path.length ≤ g.size := by
  have hsub : path ⊆ List.range g.size := fun v hv =>
    List.mem_range.mpr (h.lt_size (h.index_ne_zero (h.path_subset hv)))
  have hle := (List.subperm_of_subset h.path_nodup hsub).length_le
  rwa [List.length_range] at hle

theorem lower (h : Searching g path s) : Searching g path (s.lower v low) :=
  { h with lengthLow := Search.length_lower.trans h.lengthLow }

/-- A new vertex is put on the path. -/
theorem enter (h : Searching g path s) (hv : v < g.size) (hnew : s.indexOf v = 0)
    (hpath : ∀ u ∈ path, g.Reachable u v) : Searching g (v :: path) (s.enter v) := by
  have hindex : ∀ w, (s.enter v).indexOf w = if w = v then s.met + 1 else s.indexOf w := fun w =>
    Search.indexOf_enter (h.lengthIndex ▸ hv)
  have hflag : ∀ w, (s.enter v).waits w = if w = v then true else s.waits w := fun w =>
    Search.waits_enter (h.lengthFlags ▸ hv)
  have hself : (s.enter v).indexOf v = s.met + 1 := by rw [hindex, if_pos rfl]
  have hstack : ∀ {w}, w ∈ s.stack → w ≠ v := by
    rintro w hw rfl
    exact h.index_ne_zero hw hnew
  have hold : ∀ {w}, w ∈ s.stack → (s.enter v).indexOf w = s.indexOf w := fun hw => by
    rw [hindex, if_neg (hstack hw)]
  exact
    { settled := h.settled
      lengthIndex := List.length_set.trans h.lengthIndex
      lengthLow := List.length_set.trans h.lengthLow
      lengthFlags := List.length_set.trans h.lengthFlags
      index_le := fun w => by
        rw [hindex]
        split
        · exact Nat.le_refl _
        · exact Nat.le_succ_of_le (h.index_le w)
      met_iff := fun w => by
        show _ ↔ w ∈ v :: s.stack ∨ w ∈ s.found.flatten
        rw [hindex, List.mem_cons]
        by_cases hw : w = v
        · simp [hw]
        · rw [if_neg hw, h.met_iff, or_iff_right (a := w = v) hw]
      apart := by
        refine List.forall_mem_cons.mpr ⟨fun hmem => ?_, h.apart⟩
        exact (h.met_iff v).mpr (Or.inr hmem) hnew
      waits_iff := fun w => by
        show _ ↔ w ∈ v :: s.stack
        rw [hflag, List.mem_cons]
        by_cases hw : w = v
        · simp [hw]
        · rw [if_neg hw, h.waits_iff, or_iff_right (a := w = v) hw]
      newestFirst := by
        refine List.pairwise_cons.mpr ⟨fun w hw => ?_, h.newestFirst.imp_of_mem fun hx hy hlt => ?_⟩
        · rw [hself, hold hw]
          exact Nat.lt_succ_of_le (h.index_le w)
        · rwa [hold hx, hold hy]
      path_subset := List.cons_subset_cons v h.path_subset
      path_nodup := List.nodup_cons.mpr
        ⟨fun hmem => hstack (h.path_subset hmem) rfl, h.path_nodup⟩
      left := by
        refine List.forall_mem_cons.mpr ⟨fun hpath => absurd (List.mem_cons_self ..) hpath, ?_⟩
        intro x hx hpath w hedge
        rw [hindex]
        split
        · exact Nat.succ_ne_zero _
        · exact h.left x hx (fun hmem => hpath (List.mem_cons_of_mem v hmem)) w hedge
      ahead := by
        refine List.forall_mem_cons.mpr ⟨?_, fun u hu => ?_⟩
        · refine List.forall_mem_cons.mpr ⟨fun _ => .refl, fun w hw hle => ?_⟩
          rw [hself, hold hw] at hle
          exact absurd (h.index_le w) (Nat.not_le.mpr hle)
        · refine List.forall_mem_cons.mpr ⟨fun _ => hpath u hu, fun w hw hle => ?_⟩
          rw [hold (h.path_subset hu), hold hw] at hle
          exact h.ahead u hu w hw hle
      back := by
        refine List.forall_mem_cons.mpr
          ⟨⟨v, List.mem_cons_self .., Nat.le_refl _, .refl⟩, fun w hw => ?_⟩
        obtain ⟨u, hu, hle, hreach⟩ := h.back w hw
        refine ⟨u, List.mem_cons_of_mem v hu, ?_, hreach⟩
        rwa [hold (h.path_subset hu), hold hw] }

end Searching

/-- What a search leaves as it is when it goes on: numbers and links that have been given, and the
stack, on top of which it puts new vertices. -/
structure Later (s s' : Search) : Prop where
  met_le : s.met ≤ s'.met
  index : ∀ v, s.indexOf v ≠ 0 → s'.indexOf v = s.indexOf v
  new : ∀ v, s.indexOf v = 0 → s'.indexOf v ≠ 0 → s.met < s'.indexOf v
  low : ∀ v, s.indexOf v ≠ 0 → s'.lowOf v = s.lowOf v
  stack : s.stack <:+ s'.stack

namespace Later

variable {s s₁ s₂ : Search} {low : Nat}

theorem refl (s : Search) : Later s s :=
  ⟨Nat.le_refl _, fun _ _ => rfl, fun _ h h' => absurd h h', fun _ _ => rfl, List.suffix_refl _⟩

theorem index_ne_zero (h : Later s s₁) (hv : s.indexOf v ≠ 0) : s₁.indexOf v ≠ 0 := by
  rwa [h.index v hv]

theorem trans (h : Later s s₁) (h' : Later s₁ s₂) : Later s s₂ where
  met_le := h.met_le.trans h'.met_le
  index v hv := (h'.index v (h.index_ne_zero hv)).trans (h.index v hv)
  new v hv hv₂ := by
    by_cases hv₁ : s₁.indexOf v = 0
    · exact h.met_le.trans_lt (h'.new v hv₁ hv₂)
    · rw [h'.index v hv₁]
      exact h.new v hv hv₁
  low v hv := (h'.low v (h.index_ne_zero hv)).trans (h.low v hv)
  stack := h.stack.trans h'.stack

theorem lower (h : Later s s₁) (hv : s.indexOf v = 0) (hlt : v < s₁.lowLink.length) :
    Later s (s₁.lower v low) :=
  { h with
    low := fun w hw => by
      have hne : w ≠ v := fun heq => hw (heq ▸ hv)
      rw [Search.lowOf_lower hlt, if_neg hne]
      exact h.low w hw }

theorem enter {path : List Nat} (h : Searching g path s) (hv : v < g.size)
    (hnew : s.indexOf v = 0) : Later s (s.enter v) := by
  have hindex : ∀ w, (s.enter v).indexOf w = if w = v then s.met + 1 else s.indexOf w := fun w =>
    Search.indexOf_enter (h.lengthIndex ▸ hv)
  have hne : ∀ {w}, s.indexOf w ≠ 0 → w ≠ v := fun hw heq => hw (heq ▸ hnew)
  refine ⟨Nat.le_succ _, fun w hw => ?_, fun w hw hw' => ?_, fun w hw => ?_, List.suffix_cons ..⟩
  · rw [hindex, if_neg (hne hw)]
  · rw [hindex] at hw' ⊢
    split
    · exact Nat.lt_succ_self _
    · rename_i hne
      rw [if_neg hne] at hw'
      exact absurd hw hw'
  · rw [Search.lowOf_enter (h.lengthLow ▸ hv), if_neg (hne hw)]

end Later

/-! ## One visit -/

/-- What a visit of `v` comes to: the link of `v` is its own number, or that of an older vertex that
can be reached, and it is a lower bound for the older vertices to which edges lead from what the
visit has left on the stack. -/
structure Visited (g : Graph) (path : List Nat) (v : Nat) (s s' : Search) : Prop where
  searching : Searching g path s'
  later : Later s s'
  met : s'.indexOf v ≠ 0
  low : s'.lowOf v = s'.indexOf v ∨
    ∃ y ∈ s.stack, s'.lowOf v = s.indexOf y ∧ g.Reachable v y
  bound : ∀ x ∈ s'.stack, x ∉ s.stack → ∀ y ∈ s.stack, g.Edge x y → s'.lowOf v ≤ s.indexOf y

/-- A visit of `v` that began at `s₀` and has yet to follow the edges to `rest`. -/
structure Scanning (g : Graph) (path : List Nat) (v : Nat) (s₀ : Search) (rest : List Nat)
    (s : Search) : Prop where
  start : Searching g path s₀
  new : s₀.indexOf v = 0
  searching : Searching g (v :: path) s
  later : Later s₀ s
  stack : v :: s₀.stack <:+ s.stack
  followed : ∀ w, g.Edge v w → w ∉ rest → s.indexOf w ≠ 0
  low_le : s.lowOf v ≤ s.indexOf v
  low : ∃ y ∈ s.stack, s.lowOf v = s.indexOf y ∧ g.Reachable v y
  bound : ∀ x ∈ s.stack, x ∉ s₀.stack → ∀ y ∈ s₀.stack, g.Edge x y → (x = v → y ∉ rest) →
    s.lowOf v ≤ s₀.indexOf y

namespace Scanning

variable {path rest : List Nat} {s₀ s s₁ : Search} {low : Nat}

theorem enter (h : Searching g path s) (hv : v < g.size) (hnew : s.indexOf v = 0)
    (hpath : ∀ u ∈ path, g.Reachable u v) : Scanning g path v s (g.succ v) (s.enter v) := by
  have hindex : (s.enter v).indexOf v = s.met + 1 := by
    rw [Search.indexOf_enter (h.lengthIndex ▸ hv), if_pos rfl]
  have hlow : (s.enter v).lowOf v = s.met + 1 := by
    rw [Search.lowOf_enter (h.lengthLow ▸ hv), if_pos rfl]
  refine ⟨h, hnew, h.enter hv hnew hpath, .enter h hv hnew, List.suffix_refl _, ?_, ?_, ?_, ?_⟩
  · exact fun w hedge hw => absurd hedge hw
  · exact Nat.le_of_eq (hlow.trans hindex.symm)
  · exact ⟨v, List.mem_cons_self .., hlow.trans hindex.symm, .refl⟩
  · intro x hx hxs y hy hedge hrest
    obtain rfl := (List.mem_cons.mp hx).resolve_right hxs
    exact absurd hedge (hrest rfl)

theorem mem_stack (h : Scanning g path v s₀ rest s) : v ∈ s.stack :=
  h.stack.subset (List.mem_cons_self ..)

/-- The link of `v` is lowered by an edge to `w`, after a visit of `w` if it was new. -/
theorem proceed (h : Scanning g path v s₀ (w :: rest) s) (hs₁ : Searching g (v :: path) s₁)
    (hlater : Later s s₁) (hmet : s₁.indexOf w ≠ 0)
    (hlow : low < s.lowOf v → ∃ y ∈ s.stack, low = s.indexOf y ∧ g.Reachable v y)
    (hold : w ∈ s₀.stack → low ≤ s₀.indexOf w)
    (hnew : ∀ x ∈ s₁.stack, x ∉ s.stack → ∀ y ∈ s.stack, g.Edge x y → low ≤ s.indexOf y) :
    Scanning g path v s₀ rest (s₁.lower v low) := by
  have hself : s.indexOf v ≠ 0 := h.searching.index_ne_zero h.mem_stack
  have hlt : v < s₁.lowLink.length := hs₁.lengthLow ▸ h.searching.lt_size hself
  have hmin : (s₁.lower v low).lowOf v = min (s.lowOf v) low := by
    rw [Search.lowOf_lower hlt, if_pos rfl, hlater.low v hself]
  have hkept : ∀ {y}, y ∈ s.stack → (s₁.lower v low).indexOf y = s.indexOf y := fun hy =>
    hlater.index _ (h.searching.index_ne_zero hy)
  refine ⟨h.start, h.new, hs₁.lower, (h.later.trans hlater).lower h.new hlt,
    h.stack.trans hlater.stack, fun x hedge hx => ?_, ?_, ?_, fun x hx hxs y hy hedge hrest => ?_⟩
  · by_cases hxw : x = w
    · exact hxw ▸ hmet
    · exact hlater.index_ne_zero (h.followed x hedge (List.not_mem_cons_of_ne_of_not_mem hxw hx))
  · rw [hmin, hkept h.mem_stack]
    exact (Nat.min_le_left ..).trans h.low_le
  · have hbest : ∃ y ∈ s.stack, min (s.lowOf v) low = s.indexOf y ∧ g.Reachable v y := by
      rcases Nat.lt_or_ge low (s.lowOf v) with hlt | hge
      · rw [Nat.min_eq_right hlt.le]
        exact hlow hlt
      · rw [Nat.min_eq_left hge]
        exact h.low
    obtain ⟨y, hy, heq, hreach⟩ := hbest
    exact ⟨y, hlater.stack.subset hy, by rw [hmin, hkept hy, heq], hreach⟩
  · have hys : y ∈ s.stack := h.later.stack.subset hy
    have hyindex : s.indexOf y = s₀.indexOf y := h.later.index y (h.start.index_ne_zero hy)
    rw [hmin]
    by_cases hxs' : x ∈ s.stack
    · by_cases hcase : x = v ∧ y = w
      · exact (Nat.min_le_right ..).trans (hcase.2 ▸ hold (hcase.2 ▸ hy))
      · refine (Nat.min_le_left ..).trans (h.bound x hxs' hxs y hy hedge fun hxv => ?_)
        exact List.not_mem_cons_of_ne_of_not_mem (fun hyw => hcase ⟨hxv, hyw⟩) (hrest hxv)
    · rw [← hyindex]
      exact (Nat.min_le_right ..).trans (hnew x hx hxs' y hys hedge)

/-- An edge to a vertex that has been met. -/
theorem followOld (h : Scanning g path v s₀ (w :: rest) s) (hedge : g.Edge v w)
    (hmet : s.indexOf w ≠ 0) :
    Scanning g path v s₀ rest (if s.waits w then s.lower v (s.indexOf w) else s) := by
  split
  · rename_i hwaits
    have hw : w ∈ s.stack := (h.searching.waits_iff w).mp hwaits
    refine h.proceed h.searching (.refl s) hmet (fun _ => ⟨w, hw, rfl, .single hedge⟩)
      (fun hw₀ => ?_) fun x hx hxs => absurd hx hxs
    exact Nat.le_of_eq (h.later.index w (h.start.index_ne_zero hw₀))
  · rename_i hwaits
    have hw : w ∉ s.stack := fun hw => hwaits ((h.searching.waits_iff w).mpr hw)
    have hsame : s.lower v (s.lowOf v) = s := by
      rw [Search.lower, if_neg (Nat.lt_irrefl _)]
    rw [← hsame]
    exact h.proceed h.searching (.refl s) hmet (fun hlt => absurd hlt (Nat.lt_irrefl _))
      (fun hw₀ => absurd (h.later.stack.subset hw₀) hw) fun x hx hxs => absurd hx hxs

/-- An edge to a new vertex, which is visited. -/
theorem followNew (h : Scanning g path v s₀ (w :: rest) s) (hedge : g.Edge v w)
    (hnew : s.indexOf w = 0) (hw : Visited g (v :: path) w s s₁) :
    Scanning g path v s₀ rest (s₁.lower v (s₁.lowOf w)) := by
  refine h.proceed hw.searching hw.later hw.met (fun hlt => ?_) (fun hw₀ => ?_) hw.bound
  · rcases hw.low with hown | ⟨y, hy, heq, hreach⟩
    · -- the number of a new vertex is larger than that of `v`
      have hlarge := hw.later.new w hnew hw.met
      have hle := h.searching.index_le v
      have hlow := h.low_le
      omega
    · exact ⟨y, hy, heq, .head hedge hreach⟩
  · exact absurd (h.later.index_ne_zero (h.start.index_ne_zero hw₀)) (not_not_intro hnew)

/-! ## The end of a visit -/

theorem mem_of_mem_path (hx : x ∈ v :: path) (hlt : s.indexOf x < s.indexOf v) : x ∈ path :=
  (List.mem_cons.mp hx).resolve_left fun heq => absurd (heq ▸ hlt) (Nat.lt_irrefl _)

section
variable (h : Scanning g path v s₀ [] s)
include h

/-- An older vertex of the stack has a smaller number than `v`. -/
theorem index_lt (hy : y ∈ s₀.stack) : s.indexOf y < s.indexOf v :=
  (List.pairwise_cons.mp (h.searching.newestFirst.sublist h.stack.sublist)).1 y hy

theorem mem_of_index_lt (hy : y ∈ s.stack) (hlt : s.indexOf y < s.indexOf v) : y ∈ s₀.stack := by
  obtain ⟨above, habove⟩ := h.stack
  have hsorted := h.searching.newestFirst
  rw [← habove] at hy hsorted
  rcases List.mem_append.mp hy with hy | hy
  · have := (List.pairwise_append.mp hsorted).2.2 y hy v (List.mem_cons_self ..)
    omega
  · rcases List.mem_cons.mp hy with rfl | hy
    · exact absurd hlt (Nat.lt_irrefl _)
    · exact hy

/-- The edges of what the visit has put on the stack lead to vertices that have been met. -/
theorem met_of_edge (hx : x ∈ s.stack) (hxs : x ∉ s₀.stack) (hedge : g.Edge x y) :
    s.indexOf y ≠ 0 := by
  by_cases hxv : x = v
  · exact h.followed y (hxv ▸ hedge) List.not_mem_nil
  · refine h.searching.left x hx (fun hpath => hxs ?_) y hedge
    exact h.start.path_subset ((List.mem_cons.mp hpath).resolve_left hxv)

/-- A vertex can be reached from which the search gets back to an older one: `v` waits. -/
theorem visited_of_lt (hlt : s.lowOf v < s.indexOf v) : Visited g path v s₀ s := by
  obtain ⟨y, hy, hlow, hreach⟩ := h.low
  have hold : y ∈ s₀.stack := h.mem_of_index_lt hy (hlow ▸ hlt)
  have hself := h.searching.index_ne_zero h.mem_stack
  have hback : ∀ w ∈ s.stack, ∃ u ∈ path, s.indexOf u ≤ s.indexOf w ∧ g.Reachable w u := by
    intro w hw
    obtain ⟨u, hu, hle, hwu⟩ := h.searching.back w hw
    rcases List.mem_cons.mp hu with huv | hu
    · -- from `v` on by the vertex that gave it its link
      rw [huv] at hle hwu
      obtain ⟨u', hu', hle', hyu'⟩ := h.searching.back y hy
      have hlt' : s.indexOf u' < s.indexOf v := by omega
      exact ⟨u', mem_of_mem_path hu' hlt', by omega, hwu.trans (hreach.trans hyu')⟩
    · exact ⟨u, hu, hle, hwu⟩
  refine ⟨?_, h.later, hself, Or.inr ⟨y, hold, ?_, hreach⟩, fun x hx hxs y hy hedge => ?_⟩
  · exact
      { h.searching with
        path_subset := fun u hu => h.later.stack.subset (h.start.path_subset hu)
        path_nodup := h.start.path_nodup
        left := fun x hx hxpath w hedge => by
          by_cases hxs : x ∈ s₀.stack
          · have hne : x ≠ v := fun heq => absurd (heq ▸ h.index_lt hxs) (Nat.lt_irrefl _)
            exact h.searching.left x hx (List.not_mem_cons_of_ne_of_not_mem hne hxpath) w hedge
          · exact h.met_of_edge hx hxs hedge
        ahead := fun u hu => h.searching.ahead u (List.mem_cons_of_mem v hu)
        back := hback }
  · exact hlow.trans (h.later.index y (h.start.index_ne_zero hold))
  · exact h.bound x hx hxs y hy hedge fun _ => List.not_mem_nil

/-! No older vertex can be reached: `v` and what lies above it on the stack are a component. -/

variable {above : List Nat} (habove : above ++ v :: s₀.stack = s.stack)
include habove

omit h in
theorem stack_eq : s.stack = (above ++ [v]) ++ s₀.stack := by
  rw [← habove]
  simp

omit h in
theorem mem_stack_iff : x ∈ s.stack ↔ x ∈ above ++ [v] ∨ x ∈ s₀.stack := by
  rw [stack_eq habove, List.mem_append]

theorem not_mem_of_mem_above (hx : x ∈ above ++ [v]) : x ∉ s₀.stack := by
  have hnodup := h.searching.stack_nodup
  rw [stack_eq habove] at hnodup
  exact fun hxs => (List.nodup_append.mp hnodup).2.2 x hx x hxs rfl

theorem reachable_above (hx : x ∈ above ++ [v]) : g.Reachable x v ∧ g.Reachable v x := by
  have hxs := (mem_stack_iff habove).mpr (Or.inl hx)
  obtain ⟨u, hu, -, hxu⟩ := h.searching.back x hxs
  have hle : s.indexOf u ≤ s.indexOf v := by
    rcases List.mem_cons.mp hu with rfl | hu
    · exact Nat.le_refl _
    · exact (h.index_lt (h.start.path_subset hu)).le
  refine ⟨hxu.trans (h.searching.ahead u hu v h.mem_stack hle), ?_⟩
  refine h.searching.ahead v (List.mem_cons_self ..) x hxs (Nat.le_of_not_lt fun hlt => ?_)
  exact h.not_mem_of_mem_above habove hx (h.mem_of_index_lt hxs hlt)

theorem settled_above (heq : s.lowOf v = s.indexOf v) :
    Settled g (s.found ++ [above ++ [v]]) := by
  have hreach : ∀ x ∈ above ++ [v], ∀ y ∈ above ++ [v], g.Reachable x y := fun x hx y hy =>
    (h.reachable_above habove hx).1.trans (h.reachable_above habove hy).2
  have hnodup : (above ++ [v]).Nodup :=
    h.searching.stack_nodup.sublist (stack_eq habove ▸ List.sublist_append_left ..)
  refine h.searching.settled.concat hreach (fun x hx y hedge => ?_) (fun x hx => ?_) (by simp) hnodup
  · have hxs := (mem_stack_iff habove).mpr (Or.inl hx)
    have hxs₀ := h.not_mem_of_mem_above habove hx
    rcases (h.searching.met_iff y).mp (h.met_of_edge hxs hxs₀ hedge) with hy | hy
    · refine Or.inl (((mem_stack_iff habove).mp hy).resolve_right fun hys => ?_)
      -- an edge to an older vertex would have lowered the link of `v`
      have hbound := h.bound x hxs hxs₀ y hys hedge fun _ => List.not_mem_nil
      have hlt := h.index_lt hys
      rw [h.later.index y (h.start.index_ne_zero hys)] at hlt
      omega
    · exact Or.inr hy
  · exact h.searching.apart x ((mem_stack_iff habove).mpr (Or.inl hx))

theorem visited_of_eq (heq : s.lowOf v = s.indexOf v) :
    Visited g path v s₀
      { s with
        onStack := (above ++ [v]).foldl (fun flags w => flags.set w false) s.onStack
        stack := s₀.stack
        found := s.found ++ [above ++ [v]] } := by
  have hstack := stack_eq habove
  have hmem : ∀ {x}, x ∈ s.stack ↔ x ∈ above ++ [v] ∨ x ∈ s₀.stack := mem_stack_iff habove
  have hapart : ∀ {x}, x ∈ above ++ [v] → x ∉ s₀.stack := h.not_mem_of_mem_above habove
  have hself := h.searching.index_ne_zero h.mem_stack
  have hflat : ∀ {x}, x ∈ (s.found ++ [above ++ [v]]).flatten ↔
      x ∈ s.found.flatten ∨ x ∈ above ++ [v] := by
    intro x
    rw [List.flatten_append, List.mem_append, List.flatten_singleton]
  refine ⟨?_, ?_, hself, Or.inl heq, fun x hx hxs => absurd hx hxs⟩
  · exact
      { h.searching with
        settled := h.settled_above habove heq
        lengthFlags := (Search.length_cleared ..).trans h.searching.lengthFlags
        met_iff := fun x => by
          refine (h.searching.met_iff x).trans ?_
          show _ ↔ x ∈ s₀.stack ∨ x ∈ (s.found ++ [above ++ [v]]).flatten
          rw [hmem, hflat]
          grind
        apart := fun x hx hxf => by
          rcases hflat.mp hxf with hxf | hxc
          · exact h.searching.apart x (hmem.mpr (Or.inr hx)) hxf
          · exact hapart hxc hx
        waits_iff := fun x => by
          refine (Search.getD_cleared ..).trans ?_
          show s.waits x = true ∧ _ ↔ _
          rw [h.searching.waits_iff, hmem]
          exact ⟨fun hx => hx.1.resolve_left hx.2, fun hx => ⟨Or.inr hx, fun hxc => hapart hxc hx⟩⟩
        newestFirst := h.searching.newestFirst.sublist (hstack ▸ List.sublist_append_right ..)
        path_subset := h.start.path_subset
        path_nodup := h.start.path_nodup
        left := fun x hx hxpath w hedge => by
          have hne : x ≠ v := fun heq => absurd (heq ▸ h.index_lt hx) (Nat.lt_irrefl _)
          exact h.searching.left x (hmem.mpr (Or.inr hx))
            (List.not_mem_cons_of_ne_of_not_mem hne hxpath) w hedge
        ahead := fun u hu w hw => h.searching.ahead u (List.mem_cons_of_mem v hu) w
          (hmem.mpr (Or.inr hw))
        back := fun w hw => by
          obtain ⟨u, hu, hle, hreach⟩ := h.searching.back w (hmem.mpr (Or.inr hw))
          exact ⟨u, mem_of_mem_path hu (hle.trans_lt (h.index_lt hw)), hle, hreach⟩ }
  · exact { h.later with stack := List.suffix_refl _ }

omit habove in
theorem leave : ∃ s', s.leave v = some s' ∧ Visited g path v s₀ s' := by
  by_cases heq : s.lowOf v = s.indexOf v
  · obtain ⟨above, habove⟩ := h.stack
    have hv : v ∉ above := by
      have hnodup := h.searching.stack_nodup
      rw [← habove] at hnodup
      exact fun hmem => (List.nodup_append.mp hnodup).2.2 v hmem v (List.mem_cons_self ..) rfl
    refine ⟨_, ?_, h.visited_of_eq habove heq⟩
    rw [Search.leave, if_neg (not_not_intro heq), ← habove, Search.splitBelow_append hv]
    rfl
  · exact ⟨s, if_pos heq, h.visited_of_lt (Nat.lt_of_le_of_ne h.low_le heq)⟩

end

/-- All edges of a vertex are followed if new vertices can be visited. -/
theorem followAll {visit : Nat → Search → Option Search} {rest : List Nat}
    (hvisit : ∀ w ∈ rest, ∀ s, Searching g (v :: path) s → s.indexOf w = 0 →
      (∀ u ∈ v :: path, g.Reachable u w) →
      ∃ s', visit w s = some s' ∧ Visited g (v :: path) w s s')
    (hedge : ∀ w ∈ rest, g.Edge v w) (hrange : ∀ w ∈ rest, w < g.size)
    (h : Scanning g path v s₀ rest s) :
    ∃ s', rest.foldlM (Search.follow visit v) s = some s' ∧ Scanning g path v s₀ [] s' := by
  induction rest generalizing s with
  | nil => exact ⟨s, rfl, h⟩
  | cons w rest ih =>
    obtain ⟨hvisitw, hvisit⟩ := List.forall_mem_cons.mp hvisit
    obtain ⟨hedgew, hedge⟩ := List.forall_mem_cons.mp hedge
    obtain ⟨hw, hrange⟩ := List.forall_mem_cons.mp hrange
    have hstep : ∃ s', Search.follow visit v s w = some s' ∧ Scanning g path v s₀ rest s' := by
      have hget : s.index[w]? = some (s.indexOf w) := by
        rw [Search.indexOf, List.getElem?_eq_getElem (h.searching.lengthIndex ▸ hw)]
        rfl
      rw [Search.follow, hget]
      cases hindex : s.indexOf w with
      | zero =>
        have hreach : ∀ u ∈ v :: path, g.Reachable u w := fun u hu => by
          refine .tail (h.searching.ahead u hu v h.mem_stack ?_) hedgew
          rcases List.mem_cons.mp hu with rfl | hu
          · exact Nat.le_refl _
          · exact (List.pairwise_cons.mp (h.searching.newestFirst.sublist h.stack.sublist)).1 u
              (h.start.path_subset hu) |>.le
        obtain ⟨s₁, hs₁, hvisited⟩ := hvisitw s h.searching hindex hreach
        refine ⟨_, ?_, h.followNew hedgew hindex hvisited⟩
        simp only [hs₁, Option.map_some]
      | succ i =>
        have hmet : s.indexOf w ≠ 0 := by omega
        exact ⟨_, rfl, hindex ▸ h.followOld hedgew hmet⟩
    obtain ⟨s₁, hs₁, h₁⟩ := hstep
    obtain ⟨s₂, hs₂, h₂⟩ := ih hvisit hedge hrange h₁
    exact ⟨s₂, by rw [List.foldlM_cons, hs₁]; exact hs₂, h₂⟩

end Scanning

/-- A visit of a new vertex ends: no search goes deeper than there are vertices. -/
theorem visited_visit (hg : g.Closed) {depth : Nat} {path : List Nat} {s : Search}
    (h : Searching g path s) (hv : v < g.size) (hnew : s.indexOf v = 0)
    (hpath : ∀ u ∈ path, g.Reachable u v) (hdepth : g.size ≤ path.length + depth) :
    ∃ s', g.visit depth v s = some s' ∧ Visited g path v s s' := by
  have hscan := Scanning.enter h hv hnew hpath
  induction depth generalizing path v s with
  | zero =>
    have hle := hscan.searching.path_length_le
    rw [List.length_cons] at hle
    omega
  | succ depth ih =>
    have hrange : ∀ w ∈ g.succ v, w < g.size := fun w hw => hg v w hw
    have hvisit : ∀ w ∈ g.succ v, ∀ s, Searching g (v :: path) s → s.indexOf w = 0 →
        (∀ u ∈ v :: path, g.Reachable u w) →
        ∃ s', g.visit depth w s = some s' ∧ Visited g (v :: path) w s s' :=
      fun w hw s hs hnew hreach => ih hs (hrange w hw) hnew hreach
        (by rw [List.length_cons]; omega) (.enter hs (hrange w hw) hnew hreach)
    obtain ⟨s₁, hs₁, h₁⟩ := Scanning.followAll hvisit (fun w hw => hw) hrange hscan
    obtain ⟨s', hs', h'⟩ := h₁.leave
    exact ⟨s', by rw [visit, hs₁]; exact hs', h'⟩

end SizedTypes.Graph
