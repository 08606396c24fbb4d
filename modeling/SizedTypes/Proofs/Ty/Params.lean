import Mathlib.Data.Set.Basic
import SizedTypes.Proofs.Simplify.Variables
import SizedTypes.Proofs.Table
import SizedTypes.Quantify

/-!
# The parameters of a type

A type can bring a parameter in wherever it stands: also in the arguments of a synonym, and in the
declaration that an applied newtype carries. A type has its parameters among `K` if none of these is
another one. Whatever is made of such types has its parameters among `K` again.
-/

set_option autoImplicit false

namespace SizedTypes

variable {K K' : Set Int}

namespace Ty

/-- All parameters of a type are among `K`. -/
inductive ParamsIn (K : Set Int) : Ty → Prop
  | free {v : TyVar} : ParamsIn K (.free v)
  | bound {p : Param} : p.id ∈ K → ParamsIn K (.bound p)
  | con {c : Con} {args : List Ty} : (∀ a ∈ args, ParamsIn K a) → ParamsIn K (.con c args)
  | record {fs : List (String × Ty)} : (∀ f ∈ fs, ParamsIn K f.2) → ParamsIn K (.record fs)
  | synonym {n : Name} {args : List Ty} {body : Ty} : (∀ a ∈ args, ParamsIn K a) →
      ParamsIn K body → ParamsIn K (.synonym n args body)
  | newtype {n : Name} {ps : List Param} {fs : List (String × Ty)} {args : List Ty} :
      (∀ p ∈ ps, p.id ∈ K) → (∀ f ∈ fs, ParamsIn K f.2) → (∀ a ∈ args, ParamsIn K a) →
      ParamsIn K (.newtype n ps fs args)

@[simp] theorem paramsIn_free (v : TyVar) : (free v).ParamsIn K := .free

@[simp] theorem paramsIn_bound {p : Param} : (bound p).ParamsIn K ↔ p.id ∈ K :=
  ⟨fun h => by cases h with | bound h => exact h, .bound⟩

@[simp] theorem paramsIn_con {c : Con} {args : List Ty} :
    (con c args).ParamsIn K ↔ ∀ a ∈ args, a.ParamsIn K :=
  ⟨fun h => by cases h with | con h => exact h, .con⟩

@[simp] theorem paramsIn_record {fs : List (String × Ty)} :
    (record fs).ParamsIn K ↔ ∀ f ∈ fs, f.2.ParamsIn K :=
  ⟨fun h => by cases h with | record h => exact h, .record⟩

@[simp] theorem paramsIn_synonym {n : Name} {args : List Ty} {body : Ty} :
    (synonym n args body).ParamsIn K ↔ (∀ a ∈ args, a.ParamsIn K) ∧ body.ParamsIn K :=
  ⟨fun h => by cases h with | synonym hargs hbody => exact ⟨hargs, hbody⟩, fun h => .synonym h.1 h.2⟩

@[simp] theorem paramsIn_newtype {n : Name} {ps : List Param} {fs : List (String × Ty)}
    {args : List Ty} : (newtype n ps fs args).ParamsIn K ↔
      (∀ p ∈ ps, p.id ∈ K) ∧ (∀ f ∈ fs, f.2.ParamsIn K) ∧ ∀ a ∈ args, a.ParamsIn K :=
  ⟨fun h => by cases h with | newtype hps hfs hargs => exact ⟨hps, hfs, hargs⟩,
    fun h => .newtype h.1 h.2.1 h.2.2⟩

/-- The parameters that a type shows are among those that occur in it. -/
theorem ParamsIn.mem_params {t : Ty} (h : t.ParamsIn K) : ∀ p ∈ t.params, p.id ∈ K := by
  induction h with
  | free => exact List.forall_mem_nil _
  | bound hp => exact List.forall_mem_singleton.mpr hp
  | con _ ih | newtype _ _ _ _ ih =>
    rw [params, paramsList_eq_flatMap]
    exact List.forall_mem_flatMap.mpr ih
  | record _ ih =>
    rw [params, paramsFields_eq_flatMap]
    exact List.forall_mem_flatMap.mpr ih
  | synonym _ _ _ ih => exact ih

theorem ParamsIn.mono {t : Ty} (h : t.ParamsIn K) (hK : K ⊆ K') : t.ParamsIn K' := by
  induction h with
  | free => exact .free
  | bound h => exact .bound (hK h)
  | con _ ih => exact .con ih
  | record _ ih => exact .record ih
  | synonym _ _ iha ihb => exact .synonym iha ihb
  | newtype hps _ _ ihf iha => exact .newtype (fun p hp => hK (hps p hp)) ihf iha

mutual
theorem paramsIn_univ : ∀ t : Ty, t.ParamsIn Set.univ
  | .free _ => .free
  | .bound _ => .bound (Set.mem_univ _)
  | .con _ args => .con (paramsIn_univ_list args)
  | .record fs => .record (paramsIn_univ_fields fs)
  | .synonym _ args body => .synonym (paramsIn_univ_list args) (paramsIn_univ body)
  | .newtype _ _ fs args =>
    .newtype (fun _ _ => Set.mem_univ _) (paramsIn_univ_fields fs) (paramsIn_univ_list args)

theorem paramsIn_univ_list : ∀ ts : List Ty, ∀ t ∈ ts, t.ParamsIn Set.univ
  | [] => List.forall_mem_nil _
  | t :: ts => List.forall_mem_cons.mpr ⟨paramsIn_univ t, paramsIn_univ_list ts⟩

theorem paramsIn_univ_fields : ∀ fs : List (String × Ty), ∀ f ∈ fs, f.2.ParamsIn Set.univ
  | [] => List.forall_mem_nil _
  | (_, t) :: fs => List.forall_mem_cons.mpr ⟨paramsIn_univ t, paramsIn_univ_fields fs⟩
end

/-! ## Types put together -/

@[simp] theorem paramsIn_num (n : Int) : (num n).ParamsIn K := paramsIn_con.mpr (by simp)

@[simp] theorem paramsIn_bit : bit.ParamsIn K := paramsIn_con.mpr (by simp)

@[simp] theorem paramsIn_seq {n a : Ty} : (seq n a).ParamsIn K ↔ n.ParamsIn K ∧ a.ParamsIn K :=
  paramsIn_con.trans (by simp)

@[simp] theorem paramsIn_word {n : Ty} : (word n).ParamsIn K ↔ n.ParamsIn K :=
  paramsIn_seq.trans (by simp)

@[simp] theorem paramsIn_arrow {a b : Ty} : (arrow a b).ParamsIn K ↔ a.ParamsIn K ∧ b.ParamsIn K :=
  paramsIn_con.trans (by simp)

@[simp] theorem paramsIn_tuple {ts : List Ty} : (tuple ts).ParamsIn K ↔ ∀ t ∈ ts, t.ParamsIn K :=
  paramsIn_con

@[simp] theorem paramsIn_op {f : SizeOp} {args : List Ty} :
    (op f args).ParamsIn K ↔ ∀ a ∈ args, a.ParamsIn K := paramsIn_con

@[simp] theorem paramsIn_compare {r : Comparison} {a b : Ty} :
    (compare r a b).ParamsIn K ↔ a.ParamsIn K ∧ b.ParamsIn K := paramsIn_con.trans (by simp)

@[simp] theorem paramsIn_fin {n : Ty} : (fin n).ParamsIn K ↔ n.ParamsIn K :=
  paramsIn_con.trans (by simp)

theorem paramsIn_toTy (n : Size) : n.toTy.ParamsIn K := by
  cases n <;> simp [Size.toTy, inf]

theorem paramsIn_arrows {args : List Ty} {res : Ty} (hargs : ∀ a ∈ args, a.ParamsIn K)
    (hres : res.ParamsIn K) : (arrows args res).ParamsIn K := by
  induction args with
  | nil => exact hres
  | cons a args ih =>
    obtain ⟨ha, hargs⟩ := List.forall_mem_cons.mp hargs
    exact paramsIn_arrow.mpr ⟨ha, ih hargs⟩

@[simp] theorem paramsIn_default : (default : Ty).ParamsIn K := .free

/-! ## Types taken apart -/

theorem ParamsIn.mem {t : Ty} (h : t.ParamsIn K) : ∀ p ∈ t.params, p.id ∈ K := by
  induction h with
  | free => simp [params]
  | bound h => simpa [params] using h
  | con _ ih | newtype _ _ _ _ ih =>
    rw [params, paramsList_eq_flatMap]
    intro p hp
    obtain ⟨a, ha, hp⟩ := List.mem_flatMap.mp hp
    exact ih a ha p hp
  | record _ ih =>
    rw [params, paramsFields_eq_flatMap]
    intro p hp
    obtain ⟨f, hf, hp⟩ := List.mem_flatMap.mp hp
    exact ih f hf p hp
  | synonym _ _ _ ih => exact ih

theorem ParamsIn.expand {t : Ty} (h : t.ParamsIn K) : t.expand.ParamsIn K := by
  induction h with
  | synonym _ _ _ ih => exact ih
  | free => exact .free
  | bound h => exact .bound h
  | con h _ => exact .con h
  | record h _ => exact .record h
  | newtype hps hfs hargs _ _ => exact .newtype hps hfs hargs

theorem ParamsIn.asSeq? {t n a : Ty} (h : t.ParamsIn K) (heq : t.asSeq? = some (n, a)) :
    n.ParamsIn K ∧ a.ParamsIn K := by
  have hexp := h.expand
  unfold Ty.asSeq? at heq
  split at heq
  · rename_i hcon
    cases heq
    rw [hcon, paramsIn_con] at hexp
    exact ⟨hexp n (by simp), hexp a (by simp)⟩
  · cases heq

theorem ParamsIn.asArrow? {t a b : Ty} (h : t.ParamsIn K) (heq : t.asArrow? = some (a, b)) :
    a.ParamsIn K ∧ b.ParamsIn K := by
  have hexp := h.expand
  unfold Ty.asArrow? at heq
  split at heq
  · rename_i hcon
    cases heq
    rw [hcon, paramsIn_con] at hexp
    exact ⟨hexp a (by simp), hexp b (by simp)⟩
  · cases heq

theorem ParamsIn.asTuple? {t : Ty} {ts : List Ty} (h : t.ParamsIn K) (heq : t.asTuple? = some ts) :
    ∀ a ∈ ts, a.ParamsIn K := by
  have hexp := h.expand
  unfold Ty.asTuple? at heq
  split at heq
  · rename_i hcon
    cases heq
    rwa [hcon, paramsIn_con] at hexp
  · cases heq

theorem ParamsIn.asRecord? {t : Ty} {fs : Table String Ty} (h : t.ParamsIn K)
    (heq : t.asRecord? = some fs) : ∀ f ∈ fs, f.2.ParamsIn K := by
  have hexp := h.expand
  unfold Ty.asRecord? at heq
  split at heq
  · rename_i hrecord
    cases heq
    rwa [hrecord, paramsIn_record] at hexp
  · cases heq

/-! ## Replacing variables and parameters -/

theorem ParamsIn.bind {t : Ty} (h : t.ParamsIn K) {onFree : TyVar → Ty} {onBound : Param → Ty}
    (hfree : ∀ v, (onFree v).ParamsIn K') (hbound : ∀ p, p.id ∈ K → (onBound p).ParamsIn K')
    (hK : K ⊆ K') : (t.bind onFree onBound).ParamsIn K' := by
  induction h with
  | free => exact hfree _
  | bound h => exact hbound _ h
  | con _ ih =>
    rw [Ty.bind, bindList_eq_map]
    exact .con (List.forall_mem_map.mpr ih)
  | record _ ih =>
    rw [Ty.bind, bindFields_eq_map]
    exact .record (List.forall_mem_map.mpr ih)
  | synonym _ _ iha ihb =>
    rw [Ty.bind, bindList_eq_map]
    exact .synonym (List.forall_mem_map.mpr iha) ihb
  | newtype hps hfs _ _ iha =>
    -- the declaration that a newtype carries stays as it is
    rw [Ty.bind, bindList_eq_map]
    exact .newtype (fun p hp => hK (hps p hp)) (fun f hf => (hfs f hf).mono hK)
      (List.forall_mem_map.mpr iha)

theorem ParamsIn.replace {t u : Ty} (ht : t.ParamsIn K) (hu : u.ParamsIn K) (v : Int) :
    (t.replace v u).ParamsIn K := by
  refine ht.bind (fun w => ?_) (fun p hp => .bound hp) le_rfl
  split
  · exact hu
  · exact .free

theorem ParamsIn.instantiate {t : Ty} (h : t.ParamsIn K) {m : Table Int Ty}
    (hm : ∀ e ∈ m, e.2.ParamsIn K) : (t.instantiate m).ParamsIn K := by
  refine h.bind (fun v => .free) (fun p hp => ?_) le_rfl
  cases hfind : m.find? p.id with
  | none => exact .bound hp
  | some u => exact hm _ (Table.mem_of_find? hfind)

theorem ParamsIn.quantify {t : Ty} (h : t.ParamsIn K) {m : Table Int Param}
    (hm : ∀ e ∈ m, e.2.id ∈ K) : (t.quantify m).ParamsIn K := by
  refine h.bind (fun v => ?_) (fun p hp => .bound hp) le_rfl
  split
  · rename_i hfind
    exact .bound (hm _ (Table.mem_of_find? hfind))
  · exact .free

/-! ## Predicates -/

theorem ParamsIn.normalize {t : Ty} (h : t.ParamsIn K) : t.normalize.ParamsIn K := by
  induction h with
  | free => exact .free
  | bound h => exact .bound h
  | @con c args _ ih =>
    have hargs : ∀ a ∈ normalizeList args, a.ParamsIn K := by
      rw [normalizeList_eq_map]
      exact List.forall_mem_map.mpr ih
    cases c with
    | op f =>
      rw [Ty.normalize]
      split
      · exact paramsIn_toTy _
      · exact .con hargs
    | _ => exact .con hargs
  | record _ ih =>
    rw [Ty.normalize, normalizeFields_eq_map]
    exact .record (List.forall_mem_map.mpr ih)
  | synonym _ _ iha ihb =>
    rw [Ty.normalize, normalizeList_eq_map]
    exact .synonym (List.forall_mem_map.mpr iha) ihb
  | newtype hps hfs _ _ iha =>
    rw [Ty.normalize, normalizeList_eq_map]
    exact .newtype hps hfs (List.forall_mem_map.mpr iha)

theorem inherited_paramsIn : Inherited (ParamsIn K) where
  args := paramsIn_con.mp
  con _ := .con
  fields := paramsIn_record.mp
  body h := (paramsIn_synonym.mp h).2
  normalize h := h.normalize

theorem ParamsIn.conjunctsList {ps : List Ty} (h : ∀ p ∈ ps, p.ParamsIn K) :
    ∀ q ∈ conjunctsList ps, q.ParamsIn K := by
  induction ps with
  | nil => exact List.forall_mem_nil _
  | cons p ps ih =>
    obtain ⟨hp, hps⟩ := List.forall_mem_cons.mp h
    intro q hq
    rcases List.mem_append.mp hq with hq | hq
    · exact Simplify.conjuncts_inherit inherited_paramsIn hp q hq
    · exact ih hps q hq

theorem ParamsIn.implied {p : Ty} (h : p.ParamsIn K) : ∀ q ∈ p.implied, q.ParamsIn K := by
  refine List.forall_mem_cons.mpr ⟨h, ?_⟩
  split
  · rename_i hp
    exact List.forall_mem_map.mpr fun d _ =>
      inherited_paramsIn.cls (inherited_paramsIn.asProp? h hp)
  · rename_i hp
    have hn := inherited_paramsIn.asProp? h hp _ (List.mem_cons_self ..)
    simpa [geq] using hn
  · exact List.forall_mem_nil _

theorem ParamsIn.asHas? {p record field : Ty} {sel : Selector} (h : p.ParamsIn K)
    (heq : p.asHas? = some (sel, record, field)) : record.ParamsIn K ∧ field.ParamsIn K := by
  unfold Ty.asHas? at heq
  split at heq
  · rename_i hp
    cases heq
    have hargs := inherited_paramsIn.asProp? h hp
    exact ⟨hargs _ (by simp), hargs _ (by simp)⟩
  · cases heq

end Ty

/-! ## Declared types -/

/-- All parameters of a schema are among `K`, also those that it quantifies. -/
structure Schema.ParamsIn (K : Set Int) (sc : Schema) : Prop where
  params : ∀ p ∈ sc.params, p.id ∈ K
  props : ∀ p ∈ sc.props, p.ParamsIn K
  body : sc.body.ParamsIn K

structure TypeSynonym.ParamsIn (K : Set Int) (ts : TypeSynonym) : Prop where
  params : ∀ p ∈ ts.params, p.id ∈ K
  props : ∀ p ∈ ts.props, p.ParamsIn K
  body : ts.body.ParamsIn K

structure Newtype.ParamsIn (K : Set Int) (nt : Newtype) : Prop where
  params : ∀ p ∈ nt.params, p.id ∈ K
  props : ∀ p ∈ nt.props, p.ParamsIn K
  fields : ∀ f ∈ nt.fields, f.2.ParamsIn K

def PrimType.ParamsIn (K : Set Int) (pt : PrimType) : Prop := ∀ p ∈ pt.props, p.ParamsIn K

theorem Schema.ParamsIn.mono {sc : Schema} (h : sc.ParamsIn K) (hK : K ⊆ K') : sc.ParamsIn K' :=
  ⟨fun p hp => hK (h.params p hp), fun p hp => (h.props p hp).mono hK, h.body.mono hK⟩

theorem TypeSynonym.ParamsIn.mono {ts : TypeSynonym} (h : ts.ParamsIn K) (hK : K ⊆ K') :
    ts.ParamsIn K' :=
  ⟨fun p hp => hK (h.params p hp), fun p hp => (h.props p hp).mono hK, h.body.mono hK⟩

theorem Newtype.ParamsIn.mono {nt : Newtype} (h : nt.ParamsIn K) (hK : K ⊆ K') : nt.ParamsIn K' :=
  ⟨fun p hp => hK (h.params p hp), fun p hp => (h.props p hp).mono hK,
    fun f hf => (h.fields f hf).mono hK⟩

theorem PrimType.ParamsIn.mono {pt : PrimType} (h : pt.ParamsIn K) (hK : K ⊆ K') : pt.ParamsIn K' :=
  fun p hp => (h p hp).mono hK

theorem Schema.paramsIn_univ (sc : Schema) : sc.ParamsIn Set.univ :=
  ⟨fun _ _ => trivial, fun p _ => p.paramsIn_univ, Ty.paramsIn_univ _⟩

theorem TypeSynonym.paramsIn_univ (ts : TypeSynonym) : ts.ParamsIn Set.univ :=
  ⟨fun _ _ => trivial, fun p _ => p.paramsIn_univ, Ty.paramsIn_univ _⟩

theorem Newtype.paramsIn_univ (nt : Newtype) : nt.ParamsIn Set.univ :=
  ⟨fun _ _ => trivial, fun p _ => p.paramsIn_univ, fun f _ => f.2.paramsIn_univ⟩

theorem PrimType.paramsIn_univ (pt : PrimType) : pt.ParamsIn Set.univ := fun p _ => p.paramsIn_univ

theorem Schema.paramsIn_mono {t : Ty} : (Schema.mono t).ParamsIn K ↔ t.ParamsIn K :=
  ⟨Schema.ParamsIn.body, fun h => ⟨List.forall_mem_nil _, List.forall_mem_nil _, h⟩⟩

theorem Schema.ParamsIn.mapTypes {sc : Schema} (h : sc.ParamsIn K) {f : Ty → Ty}
    (hf : ∀ t, t.ParamsIn K → (f t).ParamsIn K) : (sc.mapTypes f).ParamsIn K :=
  ⟨h.params, List.forall_mem_map.mpr fun p hp => hf p (h.props p hp), hf _ h.body⟩

theorem Newtype.ParamsIn.applied {nt : Newtype} (h : nt.ParamsIn K) {args : List Ty}
    (hargs : ∀ a ∈ args, a.ParamsIn K) : (nt.applied args).ParamsIn K :=
  .newtype h.params h.fields hargs

theorem Newtype.ParamsIn.conSchema {nt : Newtype} (h : nt.ParamsIn K) : nt.conSchema.ParamsIn K where
  params := h.params
  props := h.props
  body := Ty.paramsIn_arrow.mpr ⟨.record h.fields,
    h.applied (List.forall_mem_map.mpr fun p hp => .bound (h.params p hp))⟩

/-! ## Instances -/

theorem mem_assignment {ps : List Param} {args : List Ty} (h : ∀ a ∈ args, a.ParamsIn K) :
    ∀ e ∈ Schema.assignment ps args, e.2.ParamsIn K := by
  intro e he
  obtain ⟨x, hx, rfl⟩ := List.mem_map.mp (Table.mem_ofList he)
  exact h _ (List.of_mem_zip hx).2

theorem Schema.ParamsIn.instantiate {sc : Schema} (h : sc.ParamsIn K) {args : List Ty}
    (hargs : ∀ a ∈ args, a.ParamsIn K) : (∀ p ∈ (sc.instantiate args).1, p.ParamsIn K) ∧
      (sc.instantiate args).2.ParamsIn K :=
  ⟨List.forall_mem_map.mpr fun p hp => (h.props p hp).instantiate (mem_assignment hargs),
    h.body.instantiate (mem_assignment hargs)⟩

end SizedTypes
