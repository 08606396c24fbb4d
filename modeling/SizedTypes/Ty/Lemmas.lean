import SizedTypes.Ty

/-!
# Variables and sizes under replacement

What replacing a variable does to the variables of a type, how `expand` relates to variables and
sizes, and the count of distinct entries of a list. These facts bound the unifier's work.
-/

set_option autoImplicit false

namespace SizedTypes

/-! ## Distinct entries -/

/-- The number of different entries of a list. -/
def distinctCount : List Int → Nat
  | [] => 0
  | x :: xs => if x ∈ xs then distinctCount xs else distinctCount xs + 1

theorem distinctCount_filter_ne_of_not_mem {x : Int} {l : List Int} (h : x ∉ l) :
    l.filter (fun y => decide (y ≠ x)) = l := by
  rw [List.filter_eq_self]
  intro a ha
  simp only [ne_eq, decide_eq_true_eq]
  exact fun hax => h (hax ▸ ha)

theorem distinctCount_filter_ne {x : Int} {l : List Int} (h : x ∈ l) :
    distinctCount (l.filter fun y => decide (y ≠ x)) + 1 = distinctCount l := by
  induction l with
  | nil => simp at h
  | cons y ys ih =>
    by_cases hy : y = x
    · subst hy
      by_cases hm : y ∈ ys
      · simpa [distinctCount, hm] using ih hm
      · have hf := distinctCount_filter_ne_of_not_mem hm
        simp only [ne_eq, decide_not] at hf
        simp [distinctCount, hm, hf]
    · have hx : x ∈ ys := by
        rcases List.mem_cons.mp h with h | h
        · exact absurd h.symm hy
        · exact h
      have ih := ih hx
      by_cases hm : y ∈ ys
      · simp_all [distinctCount]
      · simp_all [distinctCount]

theorem distinctCount_le_of_subset {l l' : List Int} (h : ∀ x ∈ l, x ∈ l') :
    distinctCount l ≤ distinctCount l' := by
  induction l generalizing l' with
  | nil => simp [distinctCount]
  | cons x xs ih =>
    by_cases hm : x ∈ xs
    · simp only [distinctCount, hm, if_true]
      exact ih fun y hy => h y (List.mem_cons_of_mem _ hy)
    · simp only [distinctCount, hm, if_false]
      rw [← distinctCount_filter_ne (h x (List.mem_cons_self ..))]
      refine Nat.succ_le_succ (ih fun y hy => ?_)
      simp only [ne_eq, List.mem_filter, decide_eq_true_eq]
      exact ⟨h y (List.mem_cons_of_mem _ hy), fun hyx => hm (hyx ▸ hy)⟩

theorem distinctCount_lt_of_subset {x : Int} {l l' : List Int} (h : ∀ y ∈ l, y ∈ l')
    (hx : x ∈ l') (hnx : x ∉ l) : distinctCount l < distinctCount l' := by
  rw [← distinctCount_filter_ne hx]
  refine Nat.lt_succ_of_le (distinctCount_le_of_subset fun y hy => ?_)
  simp only [ne_eq, List.mem_filter, decide_eq_true_eq]
  exact ⟨h y hy, fun hyx => hnx (hyx ▸ hy)⟩

namespace Ty

/-! ## Expansion -/

theorem vars_expand : ∀ t : Ty, t.expand.vars = t.vars
  | free _ | bound _ | con _ _ | record _ | newtype _ _ _ _ => rfl
  | synonym _ _ body => by simpa [expand, vars] using vars_expand body

theorem varIds_expand (t : Ty) : t.expand.varIds = t.varIds := by
  simp [varIds, vars_expand]

theorem size_expand_le : ∀ t : Ty, t.expand.size ≤ t.size
  | free _ | bound _ | con _ _ | record _ | newtype _ _ _ _ => Nat.le_refl _
  | synonym _ args body => by
    have := size_expand_le body
    simp only [expand, size]
    omega

theorem size_pos : ∀ t : Ty, 0 < t.size
  | free _ | bound _ => by simp [size]
  | con _ _ | record _ | newtype _ _ _ _ | synonym _ _ _ => by simp only [size]; omega

/-! ## Replacement -/

theorem mem_varIds {x : Int} {t : Ty} : x ∈ t.varIds ↔ ∃ v ∈ t.vars, v.id = x := by
  simp [varIds]

mutual
theorem mem_vars_replace {v x : Int} {u : Ty} : ∀ t : Ty, x ∈ (t.replace v u).varIds →
    (x ∈ t.varIds ∧ x ≠ v) ∨ x ∈ u.varIds
  | free w, h => by
    by_cases hw : w.id = v
    · simp only [replace, bind, hw, if_true] at h
      exact Or.inr h
    · simp only [replace, bind, hw, if_false, varIds, vars, List.map_cons, List.map_nil,
        List.mem_singleton] at h
      left
      subst h
      exact ⟨by simp [varIds, vars], hw⟩
  | bound _, h => by simp [replace, bind, varIds, vars] at h
  | con _ args, h => by
    simp only [replace, bind, varIds, vars] at h
    simpa [varIds, vars] using mem_varsList_replace args h
  | record fields, h => by
    simp only [replace, bind, varIds, vars] at h
    simpa [varIds, vars] using mem_varsFields_replace fields h
  | synonym _ _ body, h => by
    simp only [replace, bind, varIds, vars] at h
    simpa [varIds, vars] using mem_vars_replace body h
  | newtype _ _ _ args, h => by
    simp only [replace, bind, varIds, vars] at h
    simpa [varIds, vars] using mem_varsList_replace args h

theorem mem_varsList_replace {v x : Int} {u : Ty} : ∀ ts : List Ty,
    x ∈ (varsList (bindList (fun w => if w.id = v then u else free w) bound ts)).map TyVar.id →
    (x ∈ (varsList ts).map TyVar.id ∧ x ≠ v) ∨ x ∈ u.varIds
  | [], h => by simp [bindList, varsList] at h
  | t :: ts, h => by
    simp only [bindList, varsList, List.map_append, List.mem_append] at h ⊢
    rcases h with h | h
    · rcases mem_vars_replace (v := v) (u := u) t h with ⟨h, hx⟩ | h
      · exact Or.inl ⟨Or.inl h, hx⟩
      · exact Or.inr h
    · rcases mem_varsList_replace ts h with ⟨h, hx⟩ | h
      · exact Or.inl ⟨Or.inr h, hx⟩
      · exact Or.inr h

theorem mem_varsFields_replace {v x : Int} {u : Ty} : ∀ fs : List (String × Ty),
    x ∈ (varsFields (bindFields (fun w => if w.id = v then u else free w) bound fs)).map TyVar.id →
    (x ∈ (varsFields fs).map TyVar.id ∧ x ≠ v) ∨ x ∈ u.varIds
  | [], h => by simp [bindFields, varsFields] at h
  | (_, t) :: fs, h => by
    simp only [bindFields, varsFields, List.map_append, List.mem_append] at h ⊢
    rcases h with h | h
    · rcases mem_vars_replace (v := v) (u := u) t h with ⟨h, hx⟩ | h
      · exact Or.inl ⟨Or.inl h, hx⟩
      · exact Or.inr h
    · rcases mem_varsFields_replace fs h with ⟨h, hx⟩ | h
      · exact Or.inl ⟨Or.inr h, hx⟩
      · exact Or.inr h
end

end Ty
end SizedTypes
