import Mathlib.Data.List.Nodup
import Mathlib.Data.String.Basic
import SizedTypes.Table

/-!
# Look-ups in tables

What a look-up finds after entries have been added. None of it needs the entries to be in order;
that a table can be restored does.
-/

set_option autoImplicit false

namespace SizedTypes.Table

section LookUps

variable {κ α : Type} [LT κ] [DecidableLT κ] [DecidableEq κ]

theorem find?_insert (k k' : κ) (a : α) (m : Table κ α) :
    find? k (insert k' a m) = if k = k' then some a else find? k m := by
  induction m with
  | nil => simp [insert, find?]
  | cons e rest ih =>
    obtain ⟨k₁, a₁⟩ := e
    rw [insert]
    by_cases h : k' = k₁
    · subst h
      rw [if_pos rfl, find?, find?]
      split <;> rfl
    · rw [if_neg h]
      by_cases hlt : k' < k₁
      · rw [if_pos hlt, find?]
      · rw [if_neg hlt, find?, find?, ih]
        by_cases hk : k = k₁
        · subst hk
          simp [Ne.symm h]
        · simp [hk]

theorem has_insert (k k' : κ) (a : α) (m : Table κ α) :
    has k (insert k' a m) = true ↔ k = k' ∨ has k m = true := by
  unfold has
  rw [find?_insert]
  split
  · simp [*]
  · simp [*]

theorem mem_insert {k : κ} {a : α} {m : Table κ α} {e : κ × α} (h : e ∈ insert k a m) :
    e = (k, a) ∨ e ∈ m := by
  induction m with
  | nil => simpa [insert] using h
  | cons e' rest ih =>
    obtain ⟨k', a'⟩ := e'
    rw [insert] at h
    split at h
    · rcases List.mem_cons.mp h with h | h
      · exact Or.inl h
      · exact Or.inr (List.mem_cons_of_mem _ h)
    · split at h
      · rcases List.mem_cons.mp h with h | h
        · exact Or.inl h
        · exact Or.inr h
      · rcases List.mem_cons.mp h with h | h
        · exact Or.inr (h ▸ List.mem_cons_self ..)
        · exact (ih h).imp_right (List.mem_cons_of_mem _)

theorem length_insert {k : κ} {a : α} {m : Table κ α} (h : m.find? k = none) :
    (m.insert k a).length = m.length + 1 := by
  induction m with
  | nil => rfl
  | cons e m ih =>
    obtain ⟨k', a'⟩ := e
    rw [find?] at h
    split at h
    · cases h
    · rename_i hne
      rw [insert, if_neg hne]
      split
      · rfl
      · rw [List.length_cons, ih h, List.length_cons]

omit [LT κ] [DecidableLT κ] in
theorem mem_of_find? {k : κ} {a : α} {m : Table κ α} (h : find? k m = some a) : (k, a) ∈ m := by
  induction m with
  | nil => simp [find?] at h
  | cons e rest ih =>
    obtain ⟨k', a'⟩ := e
    rw [find?] at h
    by_cases hk : k = k'
    · rw [if_pos hk, Option.some.injEq] at h
      subst hk h
      exact List.mem_cons_self ..
    · rw [if_neg hk] at h
      exact List.mem_cons_of_mem _ (ih h)

theorem find?_foldl_insert (k : κ) (es : List (κ × α)) (m : Table κ α) :
    find? k (es.foldl (fun m e => insert e.1 e.2 m) m) =
      (find? k es.reverse).or (find? k m) := by
  induction es generalizing m with
  | nil => rfl
  | cons e es ih =>
    have happ : ∀ l : List (κ × α), find? k (l ++ [e]) =
        (find? k l).or (if k = e.1 then some e.2 else none) := by
      intro l
      induction l with
      | nil => simp [find?]
      | cons e' l ihl =>
        rw [List.cons_append, find?, find?, ihl]
        split <;> rfl
    rw [List.foldl_cons, ih, List.reverse_cons, happ, find?_insert]
    by_cases hk : k = e.1
    · simp [hk]
    · simp [hk]

theorem find?_ofList (k : κ) (es : List (κ × α)) :
    find? k (ofList es) = find? k es.reverse := by
  rw [ofList, find?_foldl_insert]
  simp [find?]

omit [LT κ] [DecidableLT κ] in
theorem find?_map {β : Type} (f : α → β) (k : κ) (m : Table κ α) :
    find? k (m.map fun e => (e.1, f e.2)) = (find? k m).map f := by
  induction m with
  | nil => rfl
  | cons e m ih =>
    rw [List.map_cons, find?, find?]
    split
    · rfl
    · exact ih

omit [LT κ] [DecidableLT κ] in
theorem exists_find?_of_mem {e : κ × α} {m : Table κ α} (h : e ∈ m) :
    ∃ a, find? e.1 m = some a := by
  induction m with
  | nil => simp at h
  | cons e' m ih =>
    rw [find?]
    split
    · exact ⟨_, rfl⟩
    · rcases List.mem_cons.mp h with rfl | h
      · rename_i hne
        exact absurd rfl hne
      · exact ih h

theorem exists_find?_ofList {k : κ} {es : List (κ × α)} (h : k ∈ es.map Prod.fst) :
    ∃ a, find? k (ofList es) = some a ∧ (k, a) ∈ es := by
  obtain ⟨e, he, rfl⟩ := List.mem_map.mp h
  obtain ⟨a, ha⟩ := exists_find?_of_mem (List.mem_reverse.mpr he)
  rw [find?_ofList]
  exact ⟨a, ha, List.mem_reverse.mp (mem_of_find? ha)⟩

theorem find?_ofList_of_mem {k : κ} {a : α} {es : List (κ × α)} (hnodup : (es.map Prod.fst).Nodup)
    (h : (k, a) ∈ es) : find? k (ofList es) = some a := by
  obtain ⟨b, hfind, hb⟩ := exists_find?_ofList (List.mem_map_of_mem (f := Prod.fst) h)
  rw [hfind]
  exact congrArg some (congrArg Prod.snd (List.inj_on_of_nodup_map hnodup hb h rfl))

theorem mem_union {m₁ m₂ : Table κ α} {e : κ × α} (h : e ∈ union m₁ m₂) : e ∈ m₂ ∨ e ∈ m₁ := by
  unfold union at h
  induction m₂ generalizing m₁ with
  | nil => exact Or.inr h
  | cons e' m₂ ih =>
    rcases ih h with h | h
    · exact Or.inl (List.mem_cons_of_mem _ h)
    · rcases mem_insert h with h | h
      · exact Or.inl (h ▸ List.mem_cons_self ..)
      · exact Or.inr h

theorem forall_mem_insert {P : κ × α → Prop} {k : κ} {a : α} {m : Table κ α} (ha : P (k, a))
    (hm : ∀ e ∈ m, P e) : ∀ e ∈ insert k a m, P e := by
  intro e he
  rcases mem_insert he with rfl | he
  · exact ha
  · exact hm e he

theorem forall_mem_union {P : κ × α → Prop} {m₁ m₂ : Table κ α} (h₁ : ∀ e ∈ m₁, P e)
    (h₂ : ∀ e ∈ m₂, P e) : ∀ e ∈ union m₁ m₂, P e := by
  intro e he
  rcases mem_union he with he | he
  · exact h₂ e he
  · exact h₁ e he

theorem mem_ofList {es : List (κ × α)} {e : κ × α} (h : e ∈ ofList es) : e ∈ es := by
  rcases mem_union (show e ∈ union [] es from h) with h | h
  · exact h
  · cases h

theorem mem_keys_ofList {es : List (κ × α)} {k : κ} :
    k ∈ (ofList es).map Prod.fst ↔ k ∈ es.map Prod.fst := by
  constructor
  · intro h
    obtain ⟨e, he, rfl⟩ := List.mem_map.mp h
    exact List.mem_map_of_mem (mem_ofList he)
  · intro h
    obtain ⟨a, ha, -⟩ := exists_find?_ofList h
    exact List.mem_map_of_mem (f := Prod.fst) (mem_of_find? ha)

end LookUps

/-! ## Tables in order -/

section Order

/-- Entries in strictly increasing order of their keys. -/
def Sorted {κ α : Type} [LT κ] (m : Table κ α) : Prop := (m.map Prod.fst).Pairwise (· < ·)

variable {κ α : Type} [LinearOrder κ] {m : Table κ α} {k : κ} {a b : α}

theorem sorted_insert (h : Sorted m) : Sorted (insert k a m) := by
  induction m with
  | nil => simp [insert, Sorted]
  | cons e rest ih =>
    obtain ⟨k', a'⟩ := e
    obtain ⟨hfirst, hrest⟩ := List.pairwise_cons.mp h
    rw [insert]
    split
    · rename_i hk
      rw [hk]
      exact h
    · rename_i hk
      split
      · rename_i hlt
        refine List.pairwise_cons.mpr ⟨List.forall_mem_cons.mpr ⟨hlt, fun x hx => ?_⟩, h⟩
        exact hlt.trans (hfirst x hx)
      · rename_i hlt
        refine List.pairwise_cons.mpr ⟨fun x hx => ?_, ih hrest⟩
        obtain ⟨e, he, rfl⟩ := List.mem_map.mp hx
        rcases mem_insert he with rfl | he
        · exact lt_of_le_of_ne (not_lt.mp hlt) (Ne.symm hk)
        · exact hfirst _ (List.mem_map_of_mem he)

theorem sorted_ofList (es : List (κ × α)) : Sorted (ofList es) := by
  have key : ∀ (l : List (κ × α)) (m : Table κ α), Sorted m →
      Sorted (l.foldl (fun m e => insert e.1 e.2 m) m) := by
    intro l
    induction l with
    | nil => exact fun _ h => h
    | cons e l ih => exact fun m h => ih _ (sorted_insert h)
  exact key es [] List.Pairwise.nil

theorem find?_eq_none_of_lt (h : ∀ x ∈ m.map Prod.fst, k < x) : find? k m = none := by
  induction m with
  | nil => rfl
  | cons e rest ih =>
    obtain ⟨hfirst, hrest⟩ := List.forall_mem_cons.mp h
    rw [find?, if_neg (ne_of_lt hfirst)]
    exact ih hrest

/-- Every entry is found. -/
theorem find?_of_mem (h : Sorted m) (hk : (k, a) ∈ m) : find? k m = some a := by
  induction m with
  | nil => cases hk
  | cons e rest ih =>
    obtain ⟨hfirst, hrest⟩ := List.pairwise_cons.mp h
    rcases List.mem_cons.mp hk with rfl | hk
    · rw [find?, if_pos rfl]
    · rw [find?, if_neg (hfirst k (List.mem_map_of_mem (f := Prod.fst) hk)).ne']
      exact ih hrest hk

/-- Removing a new entry restores the table. -/
theorem erase_insert (h : Sorted m) (hk : find? k m = none) : erase k (insert k a m) = m := by
  induction m with
  | nil => simp [insert, erase]
  | cons e rest ih =>
    obtain ⟨k', a'⟩ := e
    obtain ⟨-, hrest⟩ := List.pairwise_cons.mp h
    rw [find?] at hk
    split at hk
    · cases hk
    · rename_i hne
      rw [insert, if_neg hne]
      split
      · rw [erase, if_pos rfl]
      · rw [erase, if_neg hne, ih hrest hk]

/-- Putting back an old entry restores the table. -/
theorem insert_insert (h : Sorted m) (hk : find? k m = some b) :
    insert k b (insert k a m) = m := by
  induction m with
  | nil => cases hk
  | cons e rest ih =>
    obtain ⟨k', a'⟩ := e
    obtain ⟨hfirst, hrest⟩ := List.pairwise_cons.mp h
    rw [find?] at hk
    by_cases hne : k = k'
    · rw [if_pos hne, Option.some.injEq] at hk
      subst hne hk
      rw [insert, if_pos rfl, insert, if_pos rfl]
    · rw [if_neg hne] at hk
      have hlt : ¬k < k' := by
        intro hlt
        rw [find?_eq_none_of_lt fun x hx => hlt.trans (hfirst x hx)] at hk
        cases hk
      rw [insert, if_neg hne, if_neg hlt, insert, if_neg hne, if_neg hlt, ih hrest hk]

theorem erase_sublist (k : κ) (m : Table κ α) : (erase k m).Sublist m := by
  induction m with
  | nil => exact .refl _
  | cons e rest ih =>
    obtain ⟨k', a'⟩ := e
    rw [erase]
    split
    · exact List.sublist_cons_self ..
    · exact ih.cons_cons _

theorem sorted_erase (h : Sorted m) : Sorted (erase k m) :=
  h.sublist ((erase_sublist k m).map _)

theorem find?_erase (h : Sorted m) (k' : κ) :
    find? k (erase k' m) = if k = k' then none else find? k m := by
  induction m with
  | nil => simp [erase, find?]
  | cons e rest ih =>
    obtain ⟨k₁, a₁⟩ := e
    obtain ⟨hfirst, hrest⟩ := List.pairwise_cons.mp h
    rw [erase]
    by_cases hk₁ : k' = k₁
    · subst hk₁
      rw [if_pos rfl, find?]
      split
      · rename_i hk
        rw [hk]
        exact find?_eq_none_of_lt hfirst
      · rfl
    · rw [if_neg hk₁, find?, find?, ih hrest]
      by_cases hk : k = k₁
      · rw [if_pos hk, if_neg fun h => hk₁ (h.symm.trans hk), if_pos hk]
      · rw [if_neg hk, if_neg hk]

/-- Tables in order are equal if the same can be looked up in both. -/
theorem ext_of_sorted {m m' : Table κ α} (h : Sorted m) (h' : Sorted m')
    (hfind : ∀ k, find? k m = find? k m') : m = m' := by
  induction m generalizing m' with
  | nil =>
    cases m' with
    | nil => rfl
    | cons e rest => simpa [find?] using hfind e.1
  | cons e rest ih =>
    obtain ⟨k, a⟩ := e
    obtain ⟨hfirst, hrest⟩ := List.pairwise_cons.mp h
    cases m' with
    | nil => simpa [find?] using hfind k
    | cons e' rest' =>
      obtain ⟨k', a'⟩ := e'
      obtain ⟨hfirst', hrest'⟩ := List.pairwise_cons.mp h'
      have hge : ∀ {k k' : κ} {a a' : α} {rest rest' : Table κ α},
          (∀ x ∈ rest'.map Prod.fst, k' < x) →
          find? k ((k, a) :: rest) = find? k ((k', a') :: rest') → ¬k < k' := by
        intro k k' a a' rest rest' hfirst heq hlt
        rw [find?, if_pos rfl, find?_eq_none_of_lt
          (List.forall_mem_cons.mpr ⟨hlt, fun x hx => hlt.trans (hfirst x hx)⟩)] at heq
        cases heq
      obtain rfl : k = k' :=
        le_antisymm (not_lt.mp (hge hfirst (hfind k').symm)) (not_lt.mp (hge hfirst' (hfind k)))
      obtain rfl : a = a' := by simpa [find?] using hfind k
      rw [ih hrest hrest' fun x => ?_]
      by_cases hx : x = k
      · rw [hx, find?_eq_none_of_lt hfirst, find?_eq_none_of_lt hfirst']
      · simpa [find?, hx] using hfind x

theorem sorted_union (h : Sorted m) (m₂ : Table κ α) : Sorted (union m m₂) := by
  unfold union
  induction m₂ generalizing m with
  | nil => exact h
  | cons e m₂ ih => exact ih (sorted_insert h)

/-- A look-up in a union prefers the second table. -/
theorem find?_union {m₁ m₂ : Table κ α} (h : Sorted m₂) :
    find? k (union m₁ m₂) = (find? k m₂).or (find? k m₁) := by
  unfold union
  induction m₂ generalizing m₁ with
  | nil => rfl
  | cons e m₂ ih =>
    obtain ⟨hfirst, hrest⟩ := List.pairwise_cons.mp h
    rw [List.foldl_cons, ih hrest, find?_insert, find?]
    by_cases hk : k = e.1
    · rw [hk, find?_eq_none_of_lt hfirst]
      simp
    · rw [if_neg hk, if_neg hk]

end Order

end SizedTypes.Table
