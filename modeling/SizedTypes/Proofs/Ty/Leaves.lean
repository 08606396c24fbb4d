import SizedTypes.Proofs.Ty.Shape

/-!
# The leaves of a type

A synonym shows what its body mentions. Its arguments are kept for messages, but substitution acts
on them as well, so a variable in an argument counts even where the body has dropped it. The leaves
of a type are all of its variables and parameters, those in arguments included. A type without
phantom arguments shows all of its leaves.
-/

set_option autoImplicit false

namespace SizedTypes.Ty

mutual
/-- The variables and the parameters of a type, those in the arguments of synonyms included. -/
def leaves : Ty → List (TyVar ⊕ Param)
  | free v => [.inl v]
  | bound p => [.inr p]
  | con _ args => leavesList args
  | record fields => leavesFields fields
  | synonym _ args body => leavesList args ++ leaves body
  | newtype _ _ _ args => leavesList args

def leavesList : List Ty → List (TyVar ⊕ Param)
  | [] => []
  | t :: ts => leaves t ++ leavesList ts

def leavesFields : List (String × Ty) → List (TyVar ⊕ Param)
  | [] => []
  | (_, t) :: fs => leaves t ++ leavesFields fs
end

/-- The ids of the variables among the leaves. -/
def leafIds (t : Ty) : List Int :=
  t.leaves.filterMap (Sum.elim (fun v => some v.id) fun _ => none)

theorem mem_leafIds {i : Int} {t : Ty} : i ∈ t.leafIds ↔ ∃ v, .inl v ∈ t.leaves ∧ v.id = i := by
  simp [leafIds, Sum.exists]

theorem leavesList_eq_flatMap (ts : List Ty) : leavesList ts = ts.flatMap leaves := by
  induction ts with
  | nil => rfl
  | cons t ts ih => rw [leavesList, ih, List.flatMap_cons]

theorem leavesFields_eq_flatMap (fs : List (String × Ty)) :
    leavesFields fs = fs.flatMap fun e => leaves e.2 := by
  induction fs with
  | nil => rfl
  | cons e fs ih => rw [leavesFields, ih, List.flatMap_cons]

/-! ## Replacing leaves -/

theorem leaves_bind (f : TyVar → Ty) (g : Param → Ty) (t : Ty) :
    (t.bind f g).leaves =
      t.leaves.flatMap (Sum.elim (fun v => (f v).leaves) fun p => (g p).leaves) := by
  induction t using Ty.induct with
  | free v => simp [bind, leaves]
  | bound p => simp [bind, leaves]
  | con c args ih =>
    rw [bind, leaves, leaves, leavesList_eq_flatMap, leavesList_eq_flatMap, bindList_eq_map,
      List.flatMap_map, List.flatMap_assoc]
    exact List.flatMap_congr ih
  | record fs ih =>
    rw [bind, leaves, leaves, leavesFields_eq_flatMap, leavesFields_eq_flatMap, bindFields_eq_map,
      List.flatMap_map, List.flatMap_assoc]
    exact List.flatMap_congr ih
  | synonym n args body iha ihb =>
    rw [bind, leaves, leaves, leavesList_eq_flatMap, leavesList_eq_flatMap, bindList_eq_map,
      List.flatMap_map, List.flatMap_append, List.flatMap_assoc, ihb]
    exact congrArg (· ++ _) (List.flatMap_congr iha)
  | newtype n ps fs args ih =>
    rw [bind, leaves, leaves, leavesList_eq_flatMap, leavesList_eq_flatMap, bindList_eq_map,
      List.flatMap_map, List.flatMap_assoc]
    exact List.flatMap_congr ih

theorem bind_congr {f f' : TyVar → Ty} {g g' : Param → Ty} {t : Ty}
    (hf : ∀ v, .inl v ∈ t.leaves → f v = f' v) (hg : ∀ p, .inr p ∈ t.leaves → g p = g' p) :
    t.bind f g = t.bind f' g' := by
  induction t using Ty.induct with
  | free v => exact hf v (by simp [leaves])
  | bound p => exact hg p (by simp [leaves])
  | con c args ih =>
    rw [leaves, leavesList_eq_flatMap] at hf hg
    rw [bind, bind, bindList_eq_map, bindList_eq_map]
    exact congrArg _ (List.map_congr_left fun a ha =>
      ih a ha (fun v hv => hf v (List.mem_flatMap_of_mem ha hv))
        fun p hp => hg p (List.mem_flatMap_of_mem ha hp))
  | record fs ih =>
    rw [leaves, leavesFields_eq_flatMap] at hf hg
    rw [bind, bind, bindFields_eq_map, bindFields_eq_map]
    refine congrArg _ (List.map_congr_left fun e he => ?_)
    rw [ih e he (fun v hv => hf v (List.mem_flatMap.mpr ⟨e, he, hv⟩))
      fun p hp => hg p (List.mem_flatMap.mpr ⟨e, he, hp⟩)]
  | synonym n args body iha ihb =>
    rw [leaves, leavesList_eq_flatMap] at hf hg
    rw [bind, bind, bindList_eq_map, bindList_eq_map,
      ihb (fun v hv => hf v (List.mem_append_right _ hv))
        fun p hp => hg p (List.mem_append_right _ hp)]
    refine congrArg (synonym n · _) (List.map_congr_left fun a ha =>
      iha a ha (fun v hv => ?_) fun p hp => ?_)
    · exact hf v (List.mem_append_left _ (List.mem_flatMap_of_mem ha hv))
    · exact hg p (List.mem_append_left _ (List.mem_flatMap_of_mem ha hp))
  | newtype n ps fs args ih =>
    rw [leaves, leavesList_eq_flatMap] at hf hg
    rw [bind, bind, bindList_eq_map, bindList_eq_map]
    exact congrArg _ (List.map_congr_left fun a ha =>
      ih a ha (fun v hv => hf v (List.mem_flatMap_of_mem ha hv))
        fun p hp => hg p (List.mem_flatMap_of_mem ha hp))

theorem bind_bind (f f' : TyVar → Ty) (g g' : Param → Ty) (t : Ty) :
    (t.bind f g).bind f' g' = t.bind (fun v => (f v).bind f' g') fun p => (g p).bind f' g' := by
  induction t using Ty.induct with
  | free v => rfl
  | bound p => rfl
  | con c args ih =>
    simp only [bind, bindList_eq_map, List.map_map]
    exact congrArg _ (List.map_congr_left ih)
  | record fs ih =>
    simp only [bind, bindFields_eq_map, List.map_map]
    refine congrArg _ (List.map_congr_left fun e he => ?_)
    rw [Function.comp_apply, ih e he]
  | synonym n args body iha ihb =>
    simp only [bind, bindList_eq_map, List.map_map, ihb]
    exact congrArg (synonym n · _) (List.map_congr_left iha)
  | newtype n ps fs args ih =>
    simp only [bind, bindList_eq_map, List.map_map]
    exact congrArg _ (List.map_congr_left ih)

theorem bind_self (t : Ty) : t.bind free bound = t := by
  induction t using Ty.induct with
  | free v => rfl
  | bound p => rfl
  | con c args ih => rw [bind, bindList_eq_map, List.map_congr_left ih, List.map_id']
  | record fs ih =>
    rw [bind, bindFields_eq_map]
    refine congrArg record ((List.map_congr_left fun e he => ?_).trans (List.map_id' fs))
    rw [ih e he]
  | synonym n args body iha ihb =>
    rw [bind, bindList_eq_map, ihb, List.map_congr_left iha, List.map_id']
  | newtype n ps fs args ih => rw [bind, bindList_eq_map, List.map_congr_left ih, List.map_id']

theorem mem_leaves_replace {v : Int} {t u : Ty} {x : TyVar ⊕ Param} :
    x ∈ (t.replace v u).leaves ↔
      (x ∈ t.leaves ∧ ∀ w, x = .inl w → w.id ≠ v) ∨ (v ∈ t.leafIds ∧ x ∈ u.leaves) := by
  rw [replace, leaves_bind, List.mem_flatMap, mem_leafIds]
  constructor
  · rintro ⟨y, hy, hx⟩
    cases y with
    | inl w =>
      rw [Sum.elim_inl] at hx
      by_cases hw : w.id = v
      · rw [if_pos hw] at hx
        exact Or.inr ⟨⟨w, hy, hw⟩, hx⟩
      · rw [if_neg hw, leaves, List.mem_singleton] at hx
        exact Or.inl ⟨hx ▸ hy, fun w' hw' => by simp_all⟩
    | inr p =>
      rw [Sum.elim_inr, leaves, List.mem_singleton] at hx
      exact Or.inl ⟨hx ▸ hy, fun w' hw' => by simp_all⟩
  · rintro (⟨hx, hne⟩ | ⟨⟨w, hw, hv⟩, hx⟩)
    · refine ⟨x, hx, ?_⟩
      cases x with
      | inl w => simp [hne w rfl, leaves]
      | inr p => simp [leaves]
    · exact ⟨.inl w, hw, by simpa [hv] using hx⟩

theorem mem_leafIds_replace {v i : Int} {t u : Ty} :
    i ∈ (t.replace v u).leafIds ↔
      (i ∈ t.leafIds ∧ i ≠ v) ∨ (v ∈ t.leafIds ∧ i ∈ u.leafIds) := by
  simp only [mem_leafIds, mem_leaves_replace]
  constructor
  · rintro ⟨w, ⟨hw, hne⟩ | ⟨hv, hw⟩, rfl⟩
    · exact Or.inl ⟨⟨w, hw, rfl⟩, hne w rfl⟩
    · exact Or.inr ⟨hv, w, hw, rfl⟩
  · rintro (⟨⟨w, hw, rfl⟩, hne⟩ | ⟨hv, w, hw, rfl⟩)
    · exact ⟨w, Or.inl ⟨hw, fun w' hw' => by simp_all⟩, rfl⟩
    · exact ⟨w, Or.inr ⟨hv, hw⟩, rfl⟩

theorem replace_eq_self {v : Int} {t u : Ty} (h : v ∉ t.leafIds) : t.replace v u = t := by
  refine (bind_congr (fun w hw => ?_) fun _ _ => rfl).trans (bind_self t)
  rw [if_neg fun hid => h (mem_leafIds.mpr ⟨w, hw, hid⟩)]

/-- What a type shows is among its leaves. -/
theorem expand_replace_of_free {w : TyVar} {v : Int} {u : Ty} (hne : w.id ≠ v) :
    ∀ {t : Ty}, t.expand = .free w → (t.replace v u).expand = .free w
  | .free _, h => by
    cases h
    simp [replace, bind, hne, expand]
  | .synonym _ _ body, h => expand_replace_of_free hne (t := body) h
  | .bound _, h | .con _ _, h | .record _, h | .newtype _ _ _ _, h => by cases h

theorem mem_leaves_of_mem (t : Ty) :
    (∀ v ∈ t.vars, .inl v ∈ t.leaves) ∧ ∀ p ∈ t.params, .inr p ∈ t.leaves := by
  induction t using Ty.induct with
  | free v => simp [vars, params, leaves]
  | bound p => simp [vars, params, leaves]
  | con c args ih | newtype n ps fs args ih =>
    rw [vars, params, leaves, varsList_eq_flatMap, paramsList_eq_flatMap, leavesList_eq_flatMap]
    simp only [List.mem_flatMap]
    constructor
    · rintro v ⟨a, ha, hv⟩
      exact ⟨a, ha, (ih a ha).1 v hv⟩
    · rintro p ⟨a, ha, hp⟩
      exact ⟨a, ha, (ih a ha).2 p hp⟩
  | record fs ih =>
    rw [vars, params, leaves, varsFields_eq_flatMap, paramsFields_eq_flatMap,
      leavesFields_eq_flatMap]
    simp only [List.mem_flatMap]
    constructor
    · rintro v ⟨e, he, hv⟩
      exact ⟨e, he, (ih e he).1 v hv⟩
    · rintro p ⟨e, he, hp⟩
      exact ⟨e, he, (ih e he).2 p hp⟩
  | synonym n args body _ ih =>
    exact ⟨fun v hv => List.mem_append_right _ (ih.1 v hv),
      fun p hp => List.mem_append_right _ (ih.2 p hp)⟩

theorem mem_leafIds_of_mem_varIds {i : Int} {t : Ty} (h : i ∈ t.varIds) : i ∈ t.leafIds := by
  obtain ⟨v, hv, rfl⟩ := List.mem_map.mp h
  exact mem_leafIds.mpr ⟨v, (mem_leaves_of_mem t).1 v hv, rfl⟩

/-! ## Phantom arguments -/

/-- Whether a leaf is shown, outside of the arguments of synonyms. -/
def Shows (t : Ty) : TyVar ⊕ Param → Prop
  | .inl v => v.id ∈ t.varIds
  | .inr p => p.id ∈ t.params.map Param.id

/-- The arguments of every synonym mention only what its body shows. -/
inductive PhantomFree : Ty → Prop
  | free {v : TyVar} : PhantomFree (.free v)
  | bound {p : Param} : PhantomFree (.bound p)
  | con {c : Con} {args : List Ty} : (∀ a ∈ args, PhantomFree a) → PhantomFree (.con c args)
  | record {fs : List (String × Ty)} : (∀ f ∈ fs, PhantomFree f.2) → PhantomFree (.record fs)
  | synonym {n : Name} {args : List Ty} {body : Ty} : (∀ a ∈ args, PhantomFree a) →
      PhantomFree body → (∀ a ∈ args, ∀ x ∈ a.leaves, body.Shows x) →
      PhantomFree (.synonym n args body)
  | newtype {n : Name} {ps : List Param} {fs : List (String × Ty)} {args : List Ty} :
      (∀ a ∈ args, PhantomFree a) → PhantomFree (.newtype n ps fs args)

theorem shows_iff_shape {t : Ty} {x : TyVar ⊕ Param} :
    t.Shows x ↔ x.elim (fun v => v.id ∈ t.shape.vars) fun p => p.id ∈ t.shape.params := by
  cases x with
  | inl v => rw [Shows, varIds_eq_shape, Sum.elim_inl]
  | inr p => rw [Shows, paramIds_eq_shape, Sum.elim_inr]

/-- A type without phantom arguments shows all of its leaves. -/
theorem PhantomFree.shows {t : Ty} (h : t.PhantomFree) : ∀ x ∈ t.leaves, t.Shows x := by
  induction h with
  | free =>
    intro x hx
    rw [leaves, List.mem_singleton] at hx
    subst hx
    exact List.mem_singleton_self _
  | bound =>
    intro x hx
    rw [leaves, List.mem_singleton] at hx
    subst hx
    exact List.mem_singleton_self _
  | con _ ih | newtype _ ih =>
    intro x hx
    rw [leaves, leavesList_eq_flatMap] at hx
    obtain ⟨a, ha, hx⟩ := List.mem_flatMap.mp hx
    have hshown := shows_iff_shape.mp (ih a ha x hx)
    rw [shows_iff_shape]
    cases x with
    | inl v => simpa using ⟨a, ha, hshown⟩
    | inr p => simpa using ⟨a, ha, hshown⟩
  | record _ ih =>
    intro x hx
    rw [leaves, leavesFields_eq_flatMap] at hx
    obtain ⟨e, he, hx⟩ := List.mem_flatMap.mp hx
    have hshown := shows_iff_shape.mp (ih e he x hx)
    rw [shows_iff_shape]
    cases x with
    | inl v => simpa using ⟨e.1, e.2, he, hshown⟩
    | inr p => simpa using ⟨e.1, e.2, he, hshown⟩
  | synonym _ _ hargs _ ih =>
    intro x hx
    rw [leaves, leavesList_eq_flatMap] at hx
    have hbody : ∀ {n : Name} {args : List Ty} {body : Ty}, body.Shows x →
        (Ty.synonym n args body).Shows x := by
      intro n args body hb
      cases x <;> exact hb
    rcases List.mem_append.mp hx with hx | hx
    · obtain ⟨a, ha, hx⟩ := List.mem_flatMap.mp hx
      exact hbody (hargs a ha x hx)
    · exact hbody (ih x hx)

theorem PhantomFree.mem_varIds {t : Ty} (h : t.PhantomFree) {i : Int} (hi : i ∈ t.leafIds) :
    i ∈ t.varIds := by
  obtain ⟨v, hv, rfl⟩ := mem_leafIds.mp hi
  exact h.shows _ hv

theorem shows_replace {v : Int} {t u : Ty} {x : TyVar ⊕ Param} :
    (t.replace v u).Shows x ↔
      (t.Shows x ∧ ∀ w, x = .inl w → w.id ≠ v) ∨ (v ∈ t.varIds ∧ u.Shows x) := by
  simp only [shows_iff_shape, shape_replace, varIds_eq_shape]
  cases x with
  | inl w =>
    simp only [Sum.elim_inl, Shape.mem_vars_subst, Shape.single, Sum.inl.injEq]
    constructor
    · rintro ⟨i, hi, hw⟩
      by_cases hiv : i = v
      · rw [if_pos hiv] at hw
        exact Or.inr ⟨hiv ▸ hi, hw⟩
      · rw [if_neg hiv, Shape.vars_var, List.mem_singleton] at hw
        exact Or.inl ⟨hw ▸ hi, fun w' hw' => by rw [← hw', hw]; exact hiv⟩
    · rintro (⟨hw, hne⟩ | ⟨hv, hw⟩)
      · exact ⟨w.id, hw, by simp [hne w rfl]⟩
      · exact ⟨v, hv, by simpa using hw⟩
  | inr p =>
    simp only [Sum.elim_inr, Shape.mem_params_subst, Shape.single, reduceCtorEq, false_implies,
      implies_true, and_true]
    constructor
    · rintro (⟨i, hi, hp⟩ | hp)
      · by_cases hiv : i = v
        · rw [if_pos hiv] at hp
          exact Or.inr ⟨hiv ▸ hi, hp⟩
        · rw [if_neg hiv, Shape.params_var] at hp
          exact absurd hp List.not_mem_nil
      · exact Or.inl hp
    · rintro (hp | ⟨hv, hp⟩)
      · exact Or.inr hp
      · exact Or.inl ⟨v, hv, by simpa using hp⟩

theorem PhantomFree.replace {t u : Ty} (ht : t.PhantomFree) (hu : u.PhantomFree) (v : Int) :
    (t.replace v u).PhantomFree := by
  unfold Ty.replace
  induction ht with
  | @free w =>
    rw [bind]
    split
    · exact hu
    · exact .free
  | bound => exact .bound
  | con _ ih =>
    rw [bind, bindList_eq_map]
    exact .con (List.forall_mem_map.mpr ih)
  | record _ ih =>
    rw [bind, bindFields_eq_map]
    exact .record (List.forall_mem_map.mpr ih)
  | @synonym n args body _ _ hargs iha ihb =>
    rw [bind, bindList_eq_map]
    refine .synonym (List.forall_mem_map.mpr iha) ihb (List.forall_mem_map.mpr fun a ha x hx => ?_)
    refine shows_replace.mpr ?_
    rcases mem_leaves_replace.mp hx with ⟨hkept, hne⟩ | ⟨hv, hnew⟩
    · exact Or.inl ⟨hargs a ha x hkept, hne⟩
    · obtain ⟨w, hw, rfl⟩ := mem_leafIds.mp hv
      exact Or.inr ⟨hargs a ha _ hw, hu.shows x hnew⟩
  | newtype _ ih =>
    rw [bind, bindList_eq_map]
    exact .newtype (List.forall_mem_map.mpr ih)

theorem PhantomFree.expand : ∀ {t : Ty}, t.PhantomFree → t.expand.PhantomFree
  | .free _, h | .bound _, h | .con _ _, h | .record _, h | .newtype _ _ _ _, h => h
  | .synonym _ _ _, .synonym _ h _ => h.expand

/-! ## Types over a class of variables -/

/-- A type without phantom arguments, all of whose variables satisfy `Q`. -/
structure Over (Q : TyVar → Prop) (t : Ty) : Prop where
  phantomFree : t.PhantomFree
  vars : ∀ v, .inl v ∈ t.leaves → Q v

variable {Q : TyVar → Prop}

theorem Over.imp {Q' : TyVar → Prop} {t : Ty} (h : t.Over Q) (hQ : ∀ v, Q v → Q' v) : t.Over Q' :=
  ⟨h.phantomFree, fun v hv => hQ v (h.vars v hv)⟩

theorem over_free {v : TyVar} : (free v).Over Q ↔ Q v := by
  refine ⟨fun h => h.vars v (List.mem_singleton_self _), fun h => ⟨.free, fun w hw => ?_⟩⟩
  rw [leaves, List.mem_singleton, Sum.inl.injEq] at hw
  exact hw ▸ h

theorem over_bound {p : Param} : (bound p).Over Q :=
  ⟨.bound, fun v hv => by simp [leaves] at hv⟩

theorem over_con {c : Con} {args : List Ty} :
    (con c args).Over Q ↔ ∀ a ∈ args, a.Over Q := by
  constructor
  · rintro ⟨hfree, hvars⟩ a ha
    rw [leaves, leavesList_eq_flatMap] at hvars
    cases hfree with
    | con hargs => exact ⟨hargs a ha, fun v hv => hvars v (List.mem_flatMap_of_mem ha hv)⟩
  · refine fun h => ⟨.con fun a ha => (h a ha).phantomFree, fun v hv => ?_⟩
    rw [leaves, leavesList_eq_flatMap] at hv
    obtain ⟨a, ha, hv⟩ := List.mem_flatMap.mp hv
    exact (h a ha).vars v hv

theorem Over.of_mem_record {fs : List (String × Ty)} (h : (record fs).Over Q)
    {f : String × Ty} (hf : f ∈ fs) : f.2.Over Q := by
  obtain ⟨hfree, hvars⟩ := h
  rw [leaves, leavesFields_eq_flatMap] at hvars
  cases hfree with
  | record hfs => exact ⟨hfs f hf, fun v hv => hvars v (List.mem_flatMap.mpr ⟨f, hf, hv⟩)⟩

theorem Over.of_mem_newtype {n : Name} {ps : List Param} {fs : List (String × Ty)}
    {args : List Ty} (h : (newtype n ps fs args).Over Q) {a : Ty} (ha : a ∈ args) :
    a.Over Q := by
  obtain ⟨hfree, hvars⟩ := h
  rw [leaves, leavesList_eq_flatMap] at hvars
  cases hfree with
  | newtype hargs => exact ⟨hargs a ha, fun v hv => hvars v (List.mem_flatMap_of_mem ha hv)⟩

theorem Over.replace {t u : Ty} (ht : t.Over Q) (hu : u.Over Q) (v : Int) :
    (t.replace v u).Over Q := by
  refine ⟨ht.phantomFree.replace hu.phantomFree v, fun w hw => ?_⟩
  rcases mem_leaves_replace.mp hw with ⟨hw, -⟩ | ⟨-, hw⟩
  · exact ht.vars w hw
  · exact hu.vars w hw

theorem Over.expand {t : Ty} (h : t.Over Q) : t.expand.Over Q := by
  refine ⟨h.phantomFree.expand, fun w hw => h.vars w ?_⟩
  have key : ∀ {t : Ty} {x : TyVar ⊕ Param}, x ∈ t.expand.leaves → x ∈ t.leaves := by
    intro t
    induction t using Ty.induct with
    | synonym n args body _ ih => exact fun hx => List.mem_append_right _ (ih hx)
    | _ => exact id
  exact key hw

end SizedTypes.Ty
