import SizedTypes.Proofs.Subst.Image

/-!
# Scopes under extension

An extension narrows the scopes of the variables of the bound type and of no others.
-/

set_option autoImplicit false

namespace SizedTypes

namespace Ty

theorem mem_dedupVars {v : TyVar} {seen : List Int} {vs : List TyVar} (h : v ∈ dedupVars seen vs) :
    v ∈ vs := by
  induction vs generalizing seen with
  | nil => simp [dedupVars] at h
  | cons w ws ih =>
    rw [dedupVars] at h
    split at h
    · exact List.mem_cons_of_mem _ (ih h)
    · rcases List.mem_cons.mp h with rfl | h
      · exact List.mem_cons_self ..
      · exact List.mem_cons_of_mem _ (ih h)

theorem mem_freeVars {v : TyVar} {ts : List Ty} (h : v ∈ freeVars ts) : ∃ t ∈ ts, v ∈ t.vars :=
  List.mem_flatMap.mp (mem_dedupVars h)

theorem exists_mem_dedupVars {seen : List Int} {vs : List TyVar} {v : TyVar} (hv : v ∈ vs)
    (hseen : v.id ∉ seen) : ∃ w ∈ dedupVars seen vs, w.id = v.id := by
  induction vs generalizing seen with
  | nil => cases hv
  | cons w vs ih =>
    rw [dedupVars]
    split
    · rename_i hw
      rcases List.mem_cons.mp hv with rfl | hv
      · exact absurd (List.contains_iff_mem.mp hw) hseen
      · exact ih hv hseen
    · by_cases heq : w.id = v.id
      · exact ⟨w, List.mem_cons_self .., heq⟩
      · rcases List.mem_cons.mp hv with rfl | hv
        · exact absurd rfl heq
        · have hnext : v.id ∉ w.id :: seen := by simp [hseen, Ne.symm heq]
          obtain ⟨u, hu, huv⟩ := ih hv hnext
          exact ⟨u, List.mem_cons_of_mem _ hu, huv⟩

/-- Every variable of the types is listed, once for its id. -/
theorem exists_mem_freeVars {i : Int} {t : Ty} {ts : List Ty} (ht : t ∈ ts) (hi : i ∈ t.varIds) :
    ∃ v ∈ freeVars ts, v.id = i := by
  obtain ⟨v, hv, rfl⟩ := List.mem_map.mp hi
  exact exists_mem_dedupVars (List.mem_flatMap.mpr ⟨t, ht, hv⟩) (List.not_mem_nil)

end Ty

namespace Subst

theorem find?_narrow (s : Subst) (v : TyVar) (t : Ty) (i : Int) :
    (s.narrow v t).find? i = s.scopes.find? i ∨
      ∃ w ∈ t.vars, w.id = i ∧
        (s.narrow v t).find? i = some ((s.scopeOf w).filter (s.scopeOf v).contains) := by
  have key : ∀ (ws : List TyVar) (m : Table Int (List Int)),
      let m' := ws.foldl (fun scopes w =>
        let cur := s.scopeOf w
        let next := cur.filter (s.scopeOf v).contains
        if next.length < cur.length then scopes.insert w.id next else scopes) m
      m'.find? i = m.find? i ∨ ∃ w ∈ ws, w.id = i ∧
        m'.find? i = some ((s.scopeOf w).filter (s.scopeOf v).contains) := by
    intro ws
    induction ws with
    | nil => exact fun _ => Or.inl rfl
    | cons w ws ih =>
      intro m
      rw [List.foldl_cons]
      dsimp only
      split
      · rcases ih (Table.insert w.id ((s.scopeOf w).filter (s.scopeOf v).contains) m) with h | h
        · rw [Table.find?_insert] at h
          by_cases hi : i = w.id
          · rw [if_pos hi] at h
            exact Or.inr ⟨w, List.mem_cons_self .., hi.symm, h⟩
          · rw [if_neg hi] at h
            exact Or.inl h
        · obtain ⟨w', hw', hid, h⟩ := h
          exact Or.inr ⟨w', List.mem_cons_of_mem _ hw', hid, h⟩
      · rcases ih m with h | ⟨w', hw', hid, h⟩
        · exact Or.inl h
        · exact Or.inr ⟨w', List.mem_cons_of_mem _ hw', hid, h⟩
  rcases key (Ty.freeVars [t]) s.scopes with h | ⟨w, hw, hid, h⟩
  · exact Or.inl h
  · obtain ⟨u, hu, hw⟩ := Ty.mem_freeVars hw
    rw [List.mem_singleton] at hu
    exact Or.inr ⟨w, hu ▸ hw, hid, h⟩

/-- The scope of a variable after an extension: as before, or cut down to that of the bound
variable. -/
theorem Extended.scopeOf {s s' : Subst} {v : TyVar} {t : Ty} (h : Extended s v t s') (w : TyVar) :
    s'.scopeOf w = s.scopeOf w ∨ ∃ w' ∈ (s.apply t).vars, w'.id = w.id ∧
      s'.scopeOf w = (s.scopeOf w').filter (s.scopeOf v).contains := by
  rw [h.eq]
  unfold Subst.scopeOf
  dsimp only
  rcases find?_narrow s v (s.apply t) w.id with hf | ⟨w', hw', hid, hf⟩
  · rw [hf]
    exact Or.inl rfl
  · rw [hf]
    exact Or.inr ⟨w', hw', hid, rfl⟩

theorem scopeOf_congr (s : Subst) {v w : TyVar} (hid : v.id = w.id) (hscope : v.scope = w.scope) :
    s.scopeOf v = s.scopeOf w := by
  rw [scopeOf, scopeOf, hid, hscope]

theorem mem_map_id_freeVars {i : Int} {t : Ty} :
    i ∈ (Ty.freeVars [t]).map TyVar.id ↔ i ∈ t.varIds := by
  constructor
  · intro hmem
    obtain ⟨u, hu, rfl⟩ := List.mem_map.mp hmem
    obtain ⟨_, ht, hu⟩ := Ty.mem_freeVars hu
    exact List.mem_map_of_mem (List.mem_singleton.mp ht ▸ hu)
  · intro hmem
    obtain ⟨u, hu, rfl⟩ := Ty.exists_mem_freeVars (List.mem_singleton_self _) hmem
    exact List.mem_map_of_mem hu

/-- The narrowed scope of a variable, if the type gives its id no other scope. -/
theorem find?_narrow_eq (s : Subst) (v : TyVar) {t : Ty} {w : TyVar}
    (hw : ∀ u ∈ t.vars, u.id = w.id → u.scope = w.scope) :
    (s.narrow v t).find? w.id =
      if w.id ∈ t.varIds ∧
          ((s.scopeOf w).filter (s.scopeOf v).contains).length < (s.scopeOf w).length
      then some ((s.scopeOf w).filter (s.scopeOf v).contains) else s.scopes.find? w.id := by
  have key : ∀ (us : List TyVar) (m : Table Int (List Int)),
      (∀ u ∈ us, u.id = w.id → u.scope = w.scope) →
      (us.foldl (fun scopes u =>
        let cur := s.scopeOf u
        let next := cur.filter (s.scopeOf v).contains
        if next.length < cur.length then scopes.insert u.id next else scopes) m).find? w.id =
      if w.id ∈ us.map TyVar.id ∧
          ((s.scopeOf w).filter (s.scopeOf v).contains).length < (s.scopeOf w).length
      then some ((s.scopeOf w).filter (s.scopeOf v).contains) else m.find? w.id := by
    intro us
    induction us with
    | nil => exact fun m _ => (if_neg (by simp)).symm
    | cons u us ih =>
      intro m hus
      obtain ⟨hu, hus⟩ := List.forall_mem_cons.mp hus
      rw [List.foldl_cons, ih _ hus]
      dsimp only
      by_cases hid : u.id = w.id
      · rw [s.scopeOf_congr hid (hu hid)]
        by_cases hlt :
            ((s.scopeOf w).filter (s.scopeOf v).contains).length < (s.scopeOf w).length
        · have hhead : w.id ∈ (u :: us).map TyVar.id := by simp [hid]
          rw [if_pos hlt, Table.find?_insert, if_pos hid.symm, ite_self, if_pos ⟨hhead, hlt⟩]
        · rw [if_neg hlt, if_neg fun hin => hlt hin.2, if_neg fun hin => hlt hin.2]
      · have hmap : w.id ∈ (u :: us).map TyVar.id ↔ w.id ∈ us.map TyVar.id := by
          simp [Ne.symm hid]
        simp only [hmap]
        split
        · rfl
        · split
          · rw [Table.find?_insert, if_neg (Ne.symm hid)]
          · rfl
  have hfind := key (Ty.freeVars [t]) s.scopes fun u hu hid => by
    obtain ⟨_, ht, hu⟩ := Ty.mem_freeVars hu
    exact hw u (List.mem_singleton.mp ht ▸ hu) hid
  simp only [mem_map_id_freeVars] at hfind
  exact hfind

/-- Exactly the variables of the bound type are cut down, to what the bound variable may mention. -/
theorem Extended.mem_scopeOf {s s' : Subst} {v : TyVar} {t : Ty} (h : Extended s v t s')
    {w : TyVar} (hw : ∀ u ∈ (s.apply t).vars, u.id = w.id → u.scope = w.scope) {i : Int} :
    i ∈ s'.scopeOf w ↔ i ∈ s.scopeOf w ∧ (w.id ∈ (s.apply t).varIds → i ∈ s.scopeOf v) := by
  rw [h.eq, Subst.scopeOf]
  dsimp only
  rw [find?_narrow_eq s v hw]
  by_cases hmem : w.id ∈ (s.apply t).varIds
  · by_cases hlt : ((s.scopeOf w).filter (s.scopeOf v).contains).length < (s.scopeOf w).length
    · rw [if_pos ⟨hmem, hlt⟩]
      simp [hmem]
    · -- Nothing was cut off, so the whole scope was allowed.
      have hall := List.filter_eq_self.mp (List.filter_sublist.eq_of_length_le (Nat.le_of_not_lt hlt))
      rw [if_neg fun hin => hlt hin.2]
      exact ⟨fun hi => ⟨hi, fun _ => by simpa using hall i hi⟩, And.left⟩
  · rw [if_neg fun hin => hmem hin.1]
    exact ⟨fun hi => ⟨hi, fun hin => absurd hin hmem⟩, And.left⟩

end Subst
end SizedTypes
