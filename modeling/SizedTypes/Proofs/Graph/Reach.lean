import Mathlib.Logic.Relation
import Mathlib.Tactic.ByContra
import SizedTypes.Graph

/-!
# Reachable vertices

The edges of a graph that is built edge by edge, the vertices that can be reached along them, and
those that can be reached from each other.
-/

set_option autoImplicit false

namespace SizedTypes.Graph

open Relation (ReflTransGen)

variable {g : Graph} {v w : Nat}

/-! ## Edges -/

/-- There is an edge from `v` to `w`. -/
def Edge (g : Graph) (v w : Nat) : Prop := w ∈ g.succ v

/-- Every edge leads to a vertex. -/
def Closed (g : Graph) : Prop := ∀ v w, g.Edge v w → w < g.size

def Reachable (g : Graph) : Nat → Nat → Prop := ReflTransGen g.Edge

theorem Edge.lt_size (h : g.Edge v w) : v < g.size := by
  by_contra hv
  rw [Edge, succ, List.getElem?_eq_none (Nat.le_of_not_lt hv)] at h
  exact absurd h (List.not_mem_nil)

@[simp] theorem size_empty (n : Nat) : (empty n).size = n := List.length_replicate

theorem not_edge_empty (n : Nat) : ¬(empty n).Edge v w := by
  rw [Edge, succ, empty, List.getElem?_replicate]
  split <;> simp

@[simp] theorem size_addEdge (g : Graph) (v w : Nat) : (g.addEdge v w).size = g.size := by
  unfold addEdge
  split
  · rfl
  · exact List.length_modify ..

theorem edge_addEdge {a b : Nat} :
    (g.addEdge a b).Edge v w ↔ g.Edge v w ∨ (v = a ∧ w = b) ∧ a < g.size := by
  unfold addEdge
  split
  · rename_i hab
    have hab : g.Edge a b := List.contains_iff_mem.mp hab
    refine ⟨Or.inl, ?_⟩
    rintro (h | ⟨⟨rfl, rfl⟩, -⟩)
    · exact h
    · exact hab
  · unfold Edge succ size
    rw [List.getElem?_modify]
    by_cases hva : a = v
    · subst hva
      by_cases hlt : a < g.succs.length
      · simp [hlt]
      · simp [hlt]
    · simp [hva, Ne.symm hva]

theorem size_addEdges (g : Graph) (edges : List (Nat × Nat)) :
    (edges.foldl (fun g e => g.addEdge e.1 e.2) g).size = g.size := by
  induction edges generalizing g with
  | nil => rfl
  | cons e es ih => rw [List.foldl_cons, ih, size_addEdge]

theorem edge_addEdges (edges : List (Nat × Nat)) :
    (edges.foldl (fun g e => g.addEdge e.1 e.2) g).Edge v w ↔
      g.Edge v w ∨ (v, w) ∈ edges ∧ v < g.size := by
  induction edges generalizing g with
  | nil => simp
  | cons e es ih =>
    obtain ⟨a, b⟩ := e
    rw [List.foldl_cons, ih, edge_addEdge, size_addEdge, List.mem_cons, Prod.mk.injEq]
    constructor
    · rintro ((h | ⟨⟨rfl, rfl⟩, hlt⟩) | ⟨h, hlt⟩)
      · exact Or.inl h
      · exact Or.inr ⟨Or.inl ⟨rfl, rfl⟩, hlt⟩
      · exact Or.inr ⟨Or.inr h, hlt⟩
    · rintro (h | ⟨⟨rfl, rfl⟩ | h, hlt⟩)
      · exact Or.inl (Or.inl h)
      · exact Or.inl (Or.inr ⟨⟨rfl, rfl⟩, hlt⟩)
      · exact Or.inr ⟨h, hlt⟩

@[simp] theorem size_ofEdges (n : Nat) (edges : List (Nat × Nat)) : (ofEdges n edges).size = n := by
  rw [ofEdges, size_addEdges, size_empty]

theorem edge_ofEdges {n : Nat} {edges : List (Nat × Nat)} :
    (ofEdges n edges).Edge v w ↔ (v, w) ∈ edges ∧ v < n := by
  rw [ofEdges, edge_addEdges, size_empty, or_iff_right (not_edge_empty n)]

theorem Reachable.lt_size (h : g.Reachable v w) (hg : g.Closed) (hv : v < g.size) : w < g.size := by
  induction h with
  | refl => exact hv
  | tail _ hedge _ => exact hg _ _ hedge

/-! ## Vertices that reach each other -/

/-- `v` and `w` can be reached from each other. -/
def Joined (g : Graph) (v w : Nat) : Prop := g.Reachable v w ∧ g.Reachable w v

theorem Joined.refl (v : Nat) : g.Joined v v := ⟨.refl, .refl⟩

theorem Joined.symm (h : g.Joined v w) : g.Joined w v := ⟨h.2, h.1⟩

theorem Joined.trans {u : Nat} (h : g.Joined u v) (h' : g.Joined v w) : g.Joined u w :=
  ⟨h.1.trans h'.1, h'.2.trans h.2⟩

end SizedTypes.Graph
