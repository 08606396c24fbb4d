import Mathlib.Data.List.Iterate
import SizedTypes.Proofs.Infer.Completion.Types
import SizedTypes.Proofs.Infer.Patterns
import SizedTypes.Proofs.Infer.Provides.Checks

/-!
# Nested patterns as lists of selections

A checked pattern names the matched value, and its definitions select from names that are there
already. Whatever the nesting, the names are the variables of the pattern and those that are drawn
for the values in between, each of them once, and no definition refers to a later one.
-/

set_option autoImplicit false

namespace SizedTypes

namespace Core

/-- The variables that a definition refers to. -/
def Decl.uses (d : Decl) : List Name :=
  d.mentions.filterMap fun
    | .use n _ _ => some n
    | .binder _ _ _ => none

/-- Each definition refers to names of `scope` and to those defined before it, and to no others. -/
def DefinedInOrder (scope : List Name) : List Decl → Prop
  | [] => True
  | d :: ds => d.uses ⊆ scope ∧ DefinedInOrder (d.name :: scope) ds

theorem DefinedInOrder.mono {scope scope' : List Name} {ds : List Decl}
    (h : DefinedInOrder scope ds) (hsub : scope ⊆ scope') : DefinedInOrder scope' ds := by
  induction ds generalizing scope scope' with
  | nil => trivial
  | cons d ds ih => exact ⟨List.Subset.trans h.1 hsub, ih h.2 (List.cons_subset_cons _ hsub)⟩

theorem definedInOrder_append {scope : List Name} {ds ds' : List Decl}
    (h : DefinedInOrder scope ds) (h' : DefinedInOrder (scope ++ ds.map Decl.name) ds') :
    DefinedInOrder scope (ds ++ ds') := by
  induction ds generalizing scope with
  | nil => simpa using h'
  | cons d ds ih =>
    refine ⟨h.1, ih h.2 (h'.mono fun n hn => ?_)⟩
    simp only [List.mem_append, List.map_cons, List.mem_cons] at hn ⊢
    grind

end Core

namespace Surface

mutual
/-- How many type variables checking a pattern draws at most. -/
def Pattern.varsDrawn : Pattern → Nat
  | .var _ | .wildcard => 0
  | .typed p t => t.varsDrawn + 1 + p.varsDrawn
  | .tuple ps => ps.length + patternVarsDrawn ps
  | .record fs => fs.length + patternFieldVarsDrawn fs
  | .list ps => 2 + patternVarsDrawn ps
  | .split left right => 3 + (left.varsDrawn + right.varsDrawn)
  | .located _ p => p.varsDrawn

def patternVarsDrawn : List Pattern → Nat
  | [] => 0
  | p :: ps => p.varsDrawn + patternVarsDrawn ps

def patternFieldVarsDrawn : List (String × Pattern) → Nat
  | [] => 0
  | (_, p) :: fs => p.varsDrawn + patternFieldVarsDrawn fs
end

end Surface

namespace Infer

open SizedTypes.Core (Decl DefinedInOrder Term)
open Surface (Pattern Visible patternFieldsInScope patternsInScope patternVarsDrawn)
open Subst (DeclaredIn)

variable {scopes : Int → List Int} {v : Visible} {c : Context} {s s' : State} {exp : Expected}

/-! ## Names that are drawn -/

/-- From a state that is prepared for `n` type variables besides others, the computation draws `k`
names and returns something that satisfies `P` together with their ids. -/
structure Introduces (scopes : Int → List Int) (v : Visible) (n k : Nat) {α : Type} (act : Infer α)
    (P : List Int → α → Prop) : Prop where
  step : ∀ {m : Nat} {c : Context} {s : State}, Prepared scopes v (n + m) c s →
    ∃ a s', Returns act c s a s' ∧ Prepared scopes v m c s' ∧
      s'.supply.next = Word.next^[k] s.supply.next ∧ P (List.iterate Word.next s.supply.next k) a

namespace Introduces

variable {α β : Type} {n l k j : Nat} {P : List Int → α → Prop} {Q : List Int → β → Prop}
  {act : Infer α}

theorem pure {a : α} (h : P [] a) : Introduces scopes v 0 0 (Pure.pure a) P where
  step {m _ s} hs := ⟨a, s, returns_pure.mpr ⟨rfl, rfl⟩, hs.anti (Nat.le_add_left m 0), rfl, h⟩

theorem bind {f : α → Infer β} (h : Introduces scopes v n k act P)
    (h' : ∀ ids a, P ids a → Introduces scopes v l j (f a) fun ids' => Q (ids ++ ids')) :
    Introduces scopes v (n + l) (k + j) (act >>= f) Q where
  step {m c s} hs := by
    obtain ⟨a, s₁, ha, hs₁, hnext₁, hP⟩ := h.step (hs.anti (m := n + (l + m)) (by omega))
    obtain ⟨b, s', hb, hs', hnext, hQ⟩ := (h' _ a hP).step hs₁
    rw [hnext₁, ← Function.iterate_add_apply, Nat.add_comm] at hnext
    rw [hnext₁, ← List.iterate_add] at hQ
    exact ⟨b, s', returns_bind.mpr ⟨a, s₁, ha, hb⟩, hs', hnext, hQ⟩

theorem weaken {P' : List Int → α → Prop} (h : Introduces scopes v n k act P) (hn : n ≤ l)
    (hk : k = j) (hP : ∀ ids a, P ids a → P' ids a) : Introduces scopes v l j act P' where
  step {m c s} hs := by
    obtain ⟨a, s', ha, hs', hnext, h⟩ := h.step (hs.anti (m := n + m) (by omega))
    exact hk ▸ ⟨a, s', ha, hs', hnext, hP _ a h⟩

theorem withRange {r : Range} (h : Introduces scopes v n k act P) :
    Introduces scopes v n k (withRange r act) P where
  step hs := by
    obtain ⟨a, s', ha, hs', hrest⟩ := h.step (hs.located r)
    exact ⟨a, s', returns_withReader.mpr ha, { hs' with }, hrest⟩

end Introduces

namespace Completes

variable {α β : Type} {n l k : Nat} {P : α → Prop} {Q : List Int → β → Prop} {act : Infer α}

/-- What draws no names comes first. -/
theorem andThen {f : α → Infer β} (h : Completes scopes v n act P)
    (h' : ∀ a, P a → Introduces scopes v l k (f a) Q) :
    Introduces scopes v (n + l) k (act >>= f) Q where
  step {m c s} hs := by
    obtain ⟨a, s₁, ha, hs₁, hsupply, hP⟩ := h.step (hs.anti (m := n + (l + m)) (by omega))
    obtain ⟨b, s', hb, hs', hrest⟩ := (h' a hP).step hs₁
    rw [hsupply] at hrest
    exact ⟨b, s', returns_bind.mpr ⟨a, s₁, ha, hb⟩, hs', hrest⟩

end Completes

/-- The definitions `ds` start from the value `x`. They define the variables `ns` and names with the
ids `ids`, each of them once; one of them may be the value itself. -/
structure Flattens (prims : List (String × Name)) (ns : List Name) (ids : List Int) (x : Name)
    (ds : List Decl) : Prop where
  names : ∃ fresh : List Name, fresh.map Name.id = ids ∧ (x :: ds.map Decl.name).Perm (ns ++ fresh)
  ordered : DefinedInOrder (x :: (prims.lookup "splitAt").toList) ds

namespace Flattens

variable {prims : List (String × Name)} {ns ns' : List Name} {ids ids' : List Int} {x y : Name}
  {d : Decl} {ds ds' : List Decl}

theorem var (n : Name) : Flattens prims [n] [] n [] := ⟨⟨[], rfl, .refl _⟩, trivial⟩

theorem fresh (x : Name) : Flattens prims [] [x.id] x [] := ⟨⟨[x], rfl, .refl _⟩, trivial⟩

/-- One more definition that refers to what is there, and what starts from its name. -/
theorem append (h : Flattens prims ns ids x ds) (h' : Flattens prims ns' ids' d.name ds')
    (hd : d.uses ⊆ x :: (prims.lookup "splitAt").toList ++ ds.map Decl.name) :
    Flattens prims (ns ++ ns') (ids ++ ids') x (ds ++ d :: ds') := by
  obtain ⟨fresh, rfl, hperm⟩ := h.names
  obtain ⟨fresh', rfl, hperm'⟩ := h'.names
  constructor
  · refine ⟨fresh ++ fresh', List.map_append, ?_⟩
    calc x :: (ds ++ d :: ds').map Decl.name
        = (x :: ds.map Decl.name) ++ (d.name :: ds'.map Decl.name) := by simp
      List.Perm _ ((ns ++ fresh) ++ (ns' ++ fresh')) := hperm.append hperm'
      List.Perm _ ((ns ++ ns') ++ (fresh ++ fresh')) := by
        rw [List.append_assoc, List.append_assoc]
        exact .append_left ns (List.perm_append_comm_assoc ..)
  · refine Core.definedInOrder_append h.ordered ⟨hd, h'.ordered.mono fun n hn => ?_⟩
    simp only [List.mem_cons, List.mem_append] at hn ⊢
    grind

end Flattens

end Infer
end SizedTypes
