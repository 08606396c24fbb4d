import SizedTypes.Proofs.Table
import SizedTypes.Proofs.Ty.Leaves

/-!
# Types without their synonyms

A synonym keeps its name and arguments next to what it expands to. Erased, a type is its expansion
at every layer. It shows the same variables and parameters as before, and these are all of its
leaves.
-/

set_option autoImplicit false

namespace SizedTypes.Ty

mutual
/-- Put what it expands to in place of every synonym. -/
def erased : Ty → Ty
  | free v => free v
  | bound p => bound p
  | con c args => con c (erasedList args)
  | record fields => record (erasedFields fields)
  | synonym _ _ body => body.erased
  | newtype n ps fields args => newtype n ps fields (erasedList args)

def erasedList : List Ty → List Ty
  | [] => []
  | t :: ts => t.erased :: erasedList ts

def erasedFields : List (String × Ty) → List (String × Ty)
  | [] => []
  | (l, t) :: fs => (l, t.erased) :: erasedFields fs
end

theorem erasedList_eq_map (ts : List Ty) : erasedList ts = ts.map erased := by
  induction ts with
  | nil => rfl
  | cons t ts ih => rw [erasedList, ih, List.map_cons]

theorem erasedFields_eq_map (fs : List (String × Ty)) :
    erasedFields fs = fs.map fun e => (e.1, e.2.erased) := by
  induction fs with
  | nil => rfl
  | cons e fs ih => rw [erasedFields, ih, List.map_cons]

/-! ## What an erased type shows -/

@[simp] theorem vars_erased (t : Ty) : t.erased.vars = t.vars := by
  induction t using Ty.induct with
  | free v => rfl
  | bound p => rfl
  | con c args ih | newtype n ps fs args ih =>
    rw [erased, vars, vars, varsList_eq_flatMap, varsList_eq_flatMap, erasedList_eq_map,
      List.flatMap_map]
    exact List.flatMap_congr ih
  | record fs ih =>
    rw [erased, vars, vars, varsFields_eq_flatMap, varsFields_eq_flatMap, erasedFields_eq_map,
      List.flatMap_map]
    exact List.flatMap_congr ih
  | synonym n args body _ ih => exact ih

@[simp] theorem params_erased (t : Ty) : t.erased.params = t.params := by
  induction t using Ty.induct with
  | free v => rfl
  | bound p => rfl
  | con c args ih | newtype n ps fs args ih =>
    rw [erased, params, params, paramsList_eq_flatMap, paramsList_eq_flatMap, erasedList_eq_map,
      List.flatMap_map]
    exact List.flatMap_congr ih
  | record fs ih =>
    rw [erased, params, params, paramsFields_eq_flatMap, paramsFields_eq_flatMap,
      erasedFields_eq_map, List.flatMap_map]
    exact List.flatMap_congr ih
  | synonym n args body _ ih => exact ih

@[simp] theorem varIds_erased (t : Ty) : t.erased.varIds = t.varIds := by
  rw [varIds, vars_erased, varIds]

theorem phantomFree_erased (t : Ty) : t.erased.PhantomFree := by
  induction t using Ty.induct with
  | free v => exact .free
  | bound p => exact .bound
  | con c args ih =>
    rw [erased, erasedList_eq_map]
    exact .con (List.forall_mem_map.mpr ih)
  | record fs ih =>
    rw [erased, erasedFields_eq_map]
    exact .record (List.forall_mem_map.mpr ih)
  | synonym n args body _ ih => exact ih
  | newtype n ps fs args ih =>
    rw [erased, erasedList_eq_map]
    exact .newtype (List.forall_mem_map.mpr ih)

/-! ## Replacing variables -/

theorem erased_bind (f : TyVar → Ty) (g : Param → Ty) (t : Ty) :
    (t.bind f g).erased = t.erased.bind (fun v => (f v).erased) fun p => (g p).erased := by
  induction t using Ty.induct with
  | free v => rfl
  | bound p => rfl
  | con c args ih =>
    simp only [bind, erased, erasedList_eq_map, bindList_eq_map, List.map_map]
    exact congrArg _ (List.map_congr_left ih)
  | record fs ih =>
    simp only [bind, erased, erasedFields_eq_map, bindFields_eq_map, List.map_map]
    refine congrArg _ (List.map_congr_left fun e he => ?_)
    rw [Function.comp_apply, Function.comp_apply, ih e he]
  | synonym n args body _ ih => exact ih
  | newtype n ps fs args ih =>
    simp only [bind, erased, erasedList_eq_map, bindList_eq_map, List.map_map]
    exact congrArg _ (List.map_congr_left ih)

theorem erased_replace (t : Ty) (v : Int) (u : Ty) :
    (t.replace v u).erased = t.erased.replace v u.erased := by
  have hfree : (fun w : TyVar => (if w.id = v then u else free w).erased) =
      fun w => if w.id = v then u.erased else free w := by
    funext w
    split <;> rfl
  rw [replace, erased_bind, hfree]
  rfl

/-! ## Variables of a class -/

/-- All variables that a type shows are in `Q`. -/
def VarsIn (Q : TyVar → Prop) (t : Ty) : Prop := ∀ v ∈ t.vars, Q v

variable {Q Q' : TyVar → Prop}

@[simp] theorem varsIn_free {v : TyVar} : (free v).VarsIn Q ↔ Q v := by simp [VarsIn, vars]

@[simp] theorem varsIn_bound (p : Param) : (bound p).VarsIn Q := by simp [VarsIn, vars]

@[simp] theorem varsIn_con {c : Con} {args : List Ty} :
    (con c args).VarsIn Q ↔ ∀ a ∈ args, a.VarsIn Q := by
  simp only [VarsIn, vars, varsList_eq_flatMap, List.forall_mem_flatMap]

@[simp] theorem varsIn_record {fs : List (String × Ty)} :
    (record fs).VarsIn Q ↔ ∀ f ∈ fs, f.2.VarsIn Q := by
  simp only [VarsIn, vars, varsFields_eq_flatMap, List.forall_mem_flatMap]

@[simp] theorem varsIn_synonym {n : Name} {args : List Ty} {body : Ty} :
    (synonym n args body).VarsIn Q ↔ body.VarsIn Q := Iff.rfl

@[simp] theorem varsIn_newtype {n : Name} {ps : List Param} {fs : List (String × Ty)}
    {args : List Ty} : (newtype n ps fs args).VarsIn Q ↔ ∀ a ∈ args, a.VarsIn Q :=
  varsIn_con (c := .bit)

@[simp] theorem varsIn_num (n : Int) : (num n).VarsIn Q := varsIn_con.mpr (List.forall_mem_nil _)

@[simp] theorem varsIn_bit : bit.VarsIn Q := varsIn_con.mpr (List.forall_mem_nil _)

@[simp] theorem varsIn_seq {n a : Ty} : (seq n a).VarsIn Q ↔ n.VarsIn Q ∧ a.VarsIn Q :=
  varsIn_con.trans (by simp)

@[simp] theorem varsIn_arrow {a b : Ty} : (arrow a b).VarsIn Q ↔ a.VarsIn Q ∧ b.VarsIn Q :=
  varsIn_con.trans (by simp)

@[simp] theorem varsIn_tuple {ts : List Ty} : (tuple ts).VarsIn Q ↔ ∀ t ∈ ts, t.VarsIn Q :=
  varsIn_con

@[simp] theorem varsIn_op {f : SizeOp} {args : List Ty} :
    (op f args).VarsIn Q ↔ ∀ a ∈ args, a.VarsIn Q := varsIn_con

theorem VarsIn.imp {t : Ty} (h : t.VarsIn Q) (hQ : ∀ v, Q v → Q' v) : t.VarsIn Q' :=
  fun v hv => hQ v (h v hv)

theorem VarsIn.expand {t : Ty} (h : t.VarsIn Q) : t.expand.VarsIn Q := by
  rw [VarsIn, vars_expand]
  exact h

theorem VarsIn.asSeq? {t n a : Ty} (h : t.VarsIn Q) (heq : t.asSeq? = some (n, a)) :
    n.VarsIn Q ∧ a.VarsIn Q := by
  have hexp := h.expand
  unfold Ty.asSeq? at heq
  split at heq
  · rename_i hcon
    cases heq
    rw [hcon, varsIn_con] at hexp
    exact ⟨hexp n (by simp), hexp a (by simp)⟩
  · cases heq

theorem VarsIn.asTuple? {t : Ty} {ts : List Ty} (h : t.VarsIn Q) (heq : t.asTuple? = some ts) :
    ∀ a ∈ ts, a.VarsIn Q := by
  have hexp := h.expand
  unfold Ty.asTuple? at heq
  split at heq
  · rename_i hcon
    cases heq
    rwa [hcon, varsIn_con] at hexp
  · cases heq

theorem VarsIn.asRecord? {t : Ty} {fs : Table String Ty} (h : t.VarsIn Q)
    (heq : t.asRecord? = some fs) : ∀ f ∈ fs, f.2.VarsIn Q := by
  have hexp := h.expand
  unfold Ty.asRecord? at heq
  split at heq
  · rename_i hrecord
    cases heq
    rwa [hrecord, varsIn_record] at hexp
  · cases heq

theorem VarsIn.bind {t : Ty} (h : t.VarsIn Q) {onFree : TyVar → Ty} {onBound : Param → Ty}
    (hfree : ∀ v, Q v → (onFree v).VarsIn Q') (hbound : ∀ p, (onBound p).VarsIn Q') :
    (t.bind onFree onBound).VarsIn Q' := by
  induction t using Ty.induct with
  | free v => exact hfree v (varsIn_free.mp h)
  | bound p => exact hbound p
  | con c args ih =>
    rw [varsIn_con] at h
    rw [Ty.bind, varsIn_con, bindList_eq_map]
    exact List.forall_mem_map.mpr fun a ha => ih a ha (h a ha)
  | record fs ih =>
    rw [varsIn_record] at h
    rw [Ty.bind, varsIn_record, bindFields_eq_map]
    exact List.forall_mem_map.mpr fun f hf => ih f hf (h f hf)
  | synonym n args body _ ih => exact ih h
  | newtype n ps fs args ih =>
    rw [varsIn_newtype] at h
    rw [Ty.bind, varsIn_newtype, bindList_eq_map]
    exact List.forall_mem_map.mpr fun a ha => ih a ha (h a ha)

theorem VarsIn.replace {t u : Ty} (ht : t.VarsIn Q) (hu : u.VarsIn Q) (v : Int) :
    (t.replace v u).VarsIn Q := by
  refine ht.bind (fun w hw => ?_) varsIn_bound
  split
  · exact hu
  · exact varsIn_free.mpr hw

theorem VarsIn.instantiate {t : Ty} (h : t.VarsIn Q) {m : Table Int Ty}
    (hm : ∀ e ∈ m, e.2.VarsIn Q) : (t.instantiate m).VarsIn Q := by
  refine h.bind (fun v hv => varsIn_free.mpr hv) fun p => ?_
  cases hfind : m.find? p.id with
  | none => exact varsIn_bound p
  | some u => exact hm _ (Table.mem_of_find? hfind)

/-- All variables that can come out of the type are in `Q`: it shows no others, and the declarations
of its newtypes have none. -/
inductive OpenIn : (TyVar → Prop) → Ty → Prop
  | free {Q : TyVar → Prop} {v : TyVar} : Q v → OpenIn Q (.free v)
  | bound {Q : TyVar → Prop} {p : Param} : OpenIn Q (.bound p)
  | con {Q : TyVar → Prop} {c : Con} {args : List Ty} : (∀ a ∈ args, OpenIn Q a) →
      OpenIn Q (.con c args)
  | record {Q : TyVar → Prop} {fs : List (String × Ty)} : (∀ f ∈ fs, OpenIn Q f.2) →
      OpenIn Q (.record fs)
  | synonym {Q : TyVar → Prop} {n : Name} {args : List Ty} {body : Ty} : OpenIn Q body →
      OpenIn Q (.synonym n args body)
  | newtype {Q : TyVar → Prop} {n : Name} {ps : List Param} {fs : List (String × Ty)}
      {args : List Ty} : (∀ f ∈ fs, OpenIn (fun _ => False) f.2) → (∀ a ∈ args, OpenIn Q a) →
      OpenIn Q (.newtype n ps fs args)

theorem OpenIn.varsIn {t : Ty} (h : t.OpenIn Q) : t.VarsIn Q := by
  induction h with
  | free hv => exact varsIn_free.mpr hv
  | bound => exact varsIn_bound _
  | con _ ih => exact varsIn_con.mpr ih
  | record _ ih => exact varsIn_record.mpr ih
  | synonym _ ih => exact ih
  | newtype _ _ _ ih => exact varsIn_newtype.mpr ih

/-- What is known of the variables that a type shows is known of all that can come out of it. -/
theorem OpenIn.of_varsIn {t : Ty} (h : t.OpenIn Q) (hv : t.VarsIn Q') : t.OpenIn Q' := by
  induction h with
  | free _ => exact .free (varsIn_free.mp hv)
  | bound => exact .bound
  | con _ ih => exact .con fun a ha => ih a ha (varsIn_con.mp hv a ha)
  | record _ ih => exact .record fun f hf => ih f hf (varsIn_record.mp hv f hf)
  | synonym _ ih => exact .synonym (ih hv)
  | newtype hfields _ _ ih =>
    exact .newtype hfields fun a ha => ih a ha (varsIn_newtype.mp hv a ha)

theorem OpenIn.imp {t : Ty} (h : t.OpenIn Q) (hQ : ∀ v, Q v → Q' v) : t.OpenIn Q' :=
  h.of_varsIn (h.varsIn.imp hQ)

theorem OpenIn.expand : ∀ {t : Ty}, t.OpenIn Q → t.expand.OpenIn Q
  | .free _, h | .bound _, h | .con _ _, h | .record _, h | .newtype _ _ _ _, h => h
  | .synonym _ _ _, .synonym h => h.expand

theorem OpenIn.of_mem_con {c : Con} {args : List Ty} (h : (Ty.con c args).OpenIn Q) {a : Ty}
    (ha : a ∈ args) : a.OpenIn Q := by
  cases h with
  | con hargs => exact hargs a ha

theorem OpenIn.bind {t : Ty} (h : t.OpenIn Q) {onFree : TyVar → Ty} {onBound : Param → Ty}
    (hfree : ∀ v, Q v → (onFree v).OpenIn Q') (hbound : ∀ p, (onBound p).OpenIn Q') :
    (t.bind onFree onBound).OpenIn Q' := by
  induction h with
  | free hv => exact hfree _ hv
  | bound => exact hbound _
  | con _ ih =>
    rw [Ty.bind, bindList_eq_map]
    exact .con (List.forall_mem_map.mpr fun a ha => ih a ha hfree)
  | record _ ih =>
    rw [Ty.bind, bindFields_eq_map]
    exact .record (List.forall_mem_map.mpr fun f hf => ih f hf hfree)
  | synonym _ ih => exact .synonym (ih hfree)
  | newtype hfields _ _ ih =>
    rw [Ty.bind, bindList_eq_map]
    exact .newtype hfields (List.forall_mem_map.mpr fun a ha => ih a ha hfree)

theorem OpenIn.replace {t u : Ty} (ht : t.OpenIn Q) (hu : u.OpenIn Q) (v : Int) :
    (t.replace v u).OpenIn Q := by
  refine ht.bind (fun w hw => ?_) fun _ => .bound
  split
  · exact hu
  · exact .free hw

/-- The leaves of an erased type are the variables that the type shows. -/
theorem VarsIn.over_erased {t : Ty} (h : t.VarsIn Q) : t.erased.Over Q := by
  refine ⟨t.phantomFree_erased, ?_⟩
  induction t using Ty.induct with
  | free v => simpa [erased, leaves] using h
  | bound p => simp [erased, leaves]
  | con c args ih =>
    rw [erased, leaves, leavesList_eq_flatMap, erasedList_eq_map, List.flatMap_map]
    intro v hv
    obtain ⟨a, ha, hv⟩ := List.mem_flatMap.mp hv
    exact ih a ha (varsIn_con.mp h a ha) v hv
  | record fs ih =>
    rw [erased, leaves, leavesFields_eq_flatMap, erasedFields_eq_map, List.flatMap_map]
    intro v hv
    obtain ⟨f, hf, hv⟩ := List.mem_flatMap.mp hv
    exact ih f hf (varsIn_record.mp h f hf) v hv
  | synonym n args body _ ih => exact ih h
  | newtype n ps fs args ih =>
    rw [erased, leaves, leavesList_eq_flatMap, erasedList_eq_map, List.flatMap_map]
    intro v hv
    obtain ⟨a, ha, hv⟩ := List.mem_flatMap.mp hv
    exact ih a ha (varsIn_newtype.mp h a ha) v hv

theorem varsIn_of_over_erased {t : Ty} (h : t.erased.Over Q) : t.VarsIn Q := fun v hv =>
  h.vars v ((mem_leaves_of_mem _).1 v (by rwa [vars_erased]))

end SizedTypes.Ty
