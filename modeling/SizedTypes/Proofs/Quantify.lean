import SizedTypes.Proofs.Ty.Leaves
import SizedTypes.Proofs.Ty.WellFormed
import SizedTypes.Quantify

/-!
# Quantifying and instantiating

Closing types over fresh parameters puts parameters in place of variables, and a use of the schema
puts types in place of its parameters, all of them at once. A schema that is used at the variables
it was closed over gives the types back if they mention none of its parameters. Ids that are
counted upward from above all of theirs are not mentioned, unless the counter wraps around.
-/

set_option autoImplicit false

namespace SizedTypes

/-! ## The order of parameters -/

section Order

variable {vs : List TyVar} {v : TyVar}

theorem mem_paramOrder : v ∈ paramOrder vs ↔ v ∈ vs := by
  simp only [paramOrder, List.mem_append, List.mem_filter, beq_iff_eq, bne_iff_ne]
  by_cases h : v.kind = .num
  · simp [h]
  · simp [h]

theorem perm_paramOrder (vs : List TyVar) : (paramOrder vs).Perm vs :=
  List.filter_append_perm (fun v : TyVar => v.kind == .num) vs

theorem length_paramOrder (vs : List TyVar) : (paramOrder vs).length = vs.length :=
  (perm_paramOrder vs).length_eq

theorem paramOrder_paramOrder (vs : List TyVar) : paramOrder (paramOrder vs) = paramOrder vs := by
  have hnone : ∀ v : TyVar, (v.kind == .num && v.kind != .num) = false := by
    intro v
    cases v.kind <;> rfl
  have hnone' : ∀ v : TyVar, (v.kind != .num && v.kind == .num) = false := by
    intro v
    cases v.kind <;> rfl
  simp [paramOrder, List.filter_filter, hnone, hnone']

end Order

/-! ## Fresh parameters -/

section Fresh

variable {next : Int}

theorem length_freshParams (vs : List TyVar) (next : Int) :
    (freshParams vs next).1.length = vs.length := by
  induction vs generalizing next with
  | nil => rfl
  | cons v vs ih =>
    rw [freshParams]
    simp [ih]

theorem map_kind_freshParams (vs : List TyVar) (next : Int) :
    (freshParams vs next).1.map Param.kind = vs.map TyVar.kind := by
  induction vs generalizing next with
  | nil => rfl
  | cons v vs ih => rw [freshParams, List.map_cons, List.map_cons, ih]

/-- The ids are consecutive words. -/
theorem map_id_freshParams (hnext : Word.Fits next) (vs : List TyVar) :
    (freshParams vs next).1.map Param.id =
      (List.range vs.length).map fun k => Word.wrap (next + (k : Nat)) := by
  induction vs generalizing next with
  | nil => rfl
  | cons v vs ih =>
    have hlater : ∀ k : Nat, Word.wrap (Word.next next + k) = Word.wrap (next + (k + 1 : Nat)) := by
      intro k
      rw [Word.next, Word.add, Word.wrap, Word.wrap, Word.wrap, Int.bmod_add_bmod]
      congr 1
      omega
    have hfits : Word.Fits (Word.next next) := Word.fits_wrap _
    rw [freshParams, List.map_cons, ih hfits, List.length_cons, List.range_succ_eq_map,
      List.map_cons, List.map_map]
    congr 1
    · rw [Int.natCast_zero, Int.add_zero, Word.wrap_eq_self hnext]
    · exact List.map_congr_left fun k _ => hlater k

/-- As long as the counter does not wrap around, the ids are counted upward. -/
theorem map_id_freshParams_of_le {vs : List TyVar} (hnext : Word.Fits next)
    (hroom : next + vs.length ≤ Word.maxValue + 1) :
    (freshParams vs next).1.map Param.id = (List.range vs.length).map fun k => next + (k : Nat) := by
  rw [map_id_freshParams hnext]
  refine List.map_congr_left fun k hk => Word.wrap_eq_self ?_
  have hlt := List.mem_range.mp hk
  obtain ⟨hlo, -⟩ := hnext
  exact ⟨by omega, by omega⟩

theorem nodup_freshParams {vs : List TyVar} (hnext : Word.Fits next)
    (hroom : next + vs.length ≤ Word.maxValue + 1) :
    ((freshParams vs next).1.map Param.id).Nodup := by
  rw [map_id_freshParams_of_le hnext hroom]
  exact List.nodup_range.map fun j k hjk => by omega

end Fresh

/-! ## The table of a quantification -/

section Tables

variable {vs : List TyVar} {next i : Int} {v : TyVar} {p : Param}

theorem length_quantifyVars : (quantifyVars vs next).1.length = (paramOrder vs).length :=
  length_freshParams ..

/-- Every variable becomes one of the parameters. -/
theorem find?_quantifyVars (hv : v ∈ vs) (next : Int) :
    ∃ p ∈ (quantifyVars vs next).1, (quantifyVars vs next).2.1.find? v.id = some p := by
  have hlen : ((paramOrder vs).map TyVar.id).length =
      (freshParams (paramOrder vs) next).1.length := by
    rw [length_freshParams, List.length_map]
  have hmem : v.id ∈ (((paramOrder vs).map TyVar.id).zip
      (freshParams (paramOrder vs) next).1).map Prod.fst := by
    rw [List.map_fst_zip (Nat.le_of_eq hlen)]
    exact List.mem_map_of_mem (mem_paramOrder.mpr hv)
  obtain ⟨p, hp, hzip⟩ := Table.exists_find?_ofList hmem
  exact ⟨p, (List.of_mem_zip hzip).2, hp⟩

/-- A parameter is found for a variable at its place. -/
theorem mem_zip_of_find?_quantifyVars (h : (quantifyVars vs next).2.1.find? i = some p) :
    ∃ v, v.id = i ∧ (v, p) ∈ (paramOrder vs).zip (quantifyVars vs next).1 := by
  have hmem := Table.mem_ofList (Table.mem_of_find? h)
  rw [List.zip_map_left] at hmem
  obtain ⟨⟨v, q⟩, hpair, heq⟩ := List.mem_map.mp hmem
  obtain ⟨rfl, rfl⟩ := Prod.mk.inj heq
  exact ⟨v, rfl, hpair⟩

/-- Every parameter is found for one of the variables, if these have different ids. -/
theorem exists_find?_of_mem_quantifyVars (hvs : (vs.map TyVar.id).Nodup)
    (hp : p ∈ (quantifyVars vs next).1) :
    ∃ v ∈ vs, (quantifyVars vs next).2.1.find? v.id = some p := by
  have hlen : (quantifyVars vs next).1.length = (paramOrder vs).length := length_quantifyVars
  obtain ⟨n, hn, rfl⟩ := List.mem_iff_getElem.mp hp
  have hnv : n < (paramOrder vs).length := hlen ▸ hn
  refine ⟨(paramOrder vs)[n], mem_paramOrder.mp (List.getElem_mem hnv), ?_⟩
  refine Table.find?_ofList_of_mem ?_ (List.mem_iff_getElem.mpr ⟨n, ?_, List.getElem_zip.trans ?_⟩)
  · rw [List.map_fst_zip (by rw [List.length_map]; exact hlen.ge)]
    exact ((perm_paramOrder vs).map TyVar.id).nodup_iff.mpr hvs
  · rw [List.length_zip, List.length_map]
    exact Nat.lt_min.mpr ⟨hnv, hn⟩
  · rw [List.getElem_map]
    rfl

theorem isNone_find?_quantifyVars :
    ((quantifyVars vs next).2.1.find? i).isNone = !(vs.map TyVar.id).contains i := by
  cases h : (quantifyVars vs next).2.1.find? i with
  | none =>
    have hout : i ∉ vs.map TyVar.id := by
      rintro hmem
      obtain ⟨v, hv, rfl⟩ := List.mem_map.mp hmem
      obtain ⟨p, -, hp⟩ := find?_quantifyVars hv next
      cases h.symm.trans hp
    simpa using hout
  | some p =>
    obtain ⟨v, rfl, hpair⟩ := mem_zip_of_find?_quantifyVars h
    have hv := mem_paramOrder.mp (List.of_mem_zip hpair).1
    simpa using ⟨v, hv, rfl⟩

end Tables

/-! ## Types -/

namespace Ty

variable {m : Table Int Param} {t : Ty}

theorem shape_quantify (t : Ty) (m : Table Int Param) :
    (t.quantify m).shape =
      t.shape.bind (fun i => ((m.find? i).map fun p => Shape.param p.id).getD (.var i)) .param := by
  refine shape_bind (fun v => ?_) (fun _ => rfl) t
  cases m.find? v.id with
  | none => rfl
  | some p => rfl

theorem vars_quantify (m : Table Int Param) (t : Ty) :
    (t.quantify m).vars = t.vars.filter fun v => (m.find? v.id).isNone := by
  rw [quantify, vars_bind]
  induction t.vars with
  | nil => rfl
  | cons v vs ih =>
    rw [List.flatMap_cons, List.filter_cons, ih]
    cases m.find? v.id <;> rfl

theorem mem_varIds_of_mem_varIds_quantify {i : Int} (hi : i ∈ (t.quantify m).varIds) :
    i ∈ t.varIds := by
  rw [mem_varIds, vars_quantify] at hi
  obtain ⟨v, hv, rfl⟩ := hi
  exact mem_varIds.mpr ⟨v, List.mem_of_mem_filter hv, rfl⟩

/-- A variable with an entry does not occur in a quantified type. -/
theorem not_mem_varIds_quantify {i : Int} {p : Param} (h : m.find? i = some p) :
    i ∉ (t.quantify m).varIds := by
  rw [mem_varIds, vars_quantify]
  rintro ⟨v, hv, rfl⟩
  simpa [h] using (List.mem_filter.mp hv).2

/-- A variable with an entry becomes its parameter. -/
theorem mem_params_quantify {p : Param} {v : TyVar} (hp : m.find? v.id = some p) (hv : v ∈ t.vars) :
    p ∈ (t.quantify m).params := by
  unfold quantify
  induction t using Ty.induct with
  | free w =>
    obtain rfl := List.mem_singleton.mp hv
    rw [bind, hp]
    exact List.mem_singleton_self p
  | bound q => cases hv
  | con c args ih | newtype n ps fs args ih =>
    rw [vars, varsList_eq_flatMap] at hv
    obtain ⟨a, ha, hv⟩ := List.mem_flatMap.mp hv
    rw [bind, params, paramsList_eq_flatMap, bindList_eq_map]
    exact List.mem_flatMap.mpr ⟨_, List.mem_map_of_mem ha, ih a ha hv⟩
  | record fs ih =>
    rw [vars, varsFields_eq_flatMap] at hv
    obtain ⟨f, hf, hv⟩ := List.mem_flatMap.mp hv
    rw [bind, params, paramsFields_eq_flatMap, bindFields_eq_map]
    exact List.mem_flatMap.mpr ⟨_, List.mem_map_of_mem hf, ih f hf hv⟩
  | synonym n args body _ ih =>
    rw [bind, params]
    exact ih hv

/-- Quantifying leaves the variables without an entry, also in the arguments of synonyms. -/
theorem mem_leaves_quantify {w : TyVar} :
    .inl w ∈ (t.quantify m).leaves ↔ .inl w ∈ t.leaves ∧ m.find? w.id = none := by
  rw [quantify, leaves_bind, List.mem_flatMap]
  constructor
  · rintro ⟨v | p, hx, hw⟩
    · rw [Sum.elim_inl] at hw
      cases hm : m.find? v.id with
      | none =>
        rw [hm, leaves, List.mem_singleton, Sum.inl.injEq] at hw
        exact hw ▸ ⟨hx, hm⟩
      | some p =>
        rw [hm, leaves, List.mem_singleton] at hw
        cases hw
    · rw [Sum.elim_inr, leaves, List.mem_singleton] at hw
      cases hw
  · rintro ⟨hx, hm⟩
    exact ⟨.inl w, hx, by simp [hm, leaves]⟩

theorem mem_leafIds_quantify {i : Int} (hi : i ∈ (t.quantify m).leafIds) :
    i ∈ t.leafIds ∧ m.find? i = none := by
  obtain ⟨w, hw, rfl⟩ := mem_leafIds.mp hi
  obtain ⟨hw, hm⟩ := mem_leaves_quantify.mp hw
  exact ⟨mem_leafIds.mpr ⟨w, hw, rfl⟩, hm⟩

/-- Types in place of parameters undo quantifying if they are the variables that became these
parameters and none of these was mentioned before. -/
theorem instantiate_quantify {m' : Table Int Ty}
    (hfree : ∀ v, .inl v ∈ t.leaves → ∀ p, m.find? v.id = some p → m'.find? p.id = some (free v))
    (hbound : ∀ p, .inr p ∈ t.leaves → m'.find? p.id = none) :
    (t.quantify m).instantiate m' = t := by
  rw [quantify, instantiate, bind_bind]
  refine (bind_congr (fun v hv => ?_) fun p hp => ?_).trans (bind_self t)
  · cases hm : m.find? v.id with
    | none => rfl
    | some p =>
      show (m'.find? p.id).getD (bound p) = free v
      rw [hfree v hv p hm, Option.getD_some]
  · show (m'.find? p.id).getD (bound p) = bound p
    rw [hbound p hp, Option.getD_none]

theorem dedupVars_congr {seen seen' : List Int} {vs : List TyVar}
    (h : ∀ v ∈ vs, seen.contains v.id = seen'.contains v.id) :
    dedupVars seen vs = dedupVars seen' vs := by
  induction vs generalizing seen seen' with
  | nil => rfl
  | cons v vs ih =>
    obtain ⟨hv, hvs⟩ := List.forall_mem_cons.mp h
    have hcons : ∀ w ∈ vs, (v.id :: seen).contains w.id = (v.id :: seen').contains w.id :=
      fun w hw => by rw [List.contains_cons, List.contains_cons, hvs w hw]
    rw [dedupVars, dedupVars, hv, ih hvs, ih hcons]

theorem dedupVars_filter (keep : Int → Bool) (seen : List Int) (vs : List TyVar) :
    dedupVars seen (vs.filter fun v => keep v.id) =
      (dedupVars seen vs).filter fun v => keep v.id := by
  induction vs generalizing seen with
  | nil => rfl
  | cons v vs ih =>
    rw [List.filter_cons, dedupVars]
    cases hkeep : keep v.id with
    | true =>
      rw [if_pos rfl, dedupVars]
      split
      · exact ih seen
      · rw [List.filter_cons, hkeep, if_pos rfl, ih]
    | false =>
      rw [if_neg Bool.false_ne_true]
      split
      · exact ih seen
      · rw [List.filter_cons, hkeep, if_neg Bool.false_ne_true, ← ih]
        -- a variable that is dropped need not have been seen
        refine dedupVars_congr fun w hw => ?_
        have hne : w.id ≠ v.id := fun heq => by simp [heq, hkeep] at hw
        simp [hne]

theorem freeVars_quantify (m : Table Int Param) (ts : List Ty) :
    freeVars (ts.map (quantify m)) = (freeVars ts).filter fun v => (m.find? v.id).isNone := by
  rw [freeVars, freeVars, ← dedupVars_filter fun i => (m.find? i).isNone, List.flatMap_map,
    List.filter_flatMap]
  simp only [vars_quantify]

end Ty

/-! ## Schemas -/

namespace Schema

variable {vs : List TyVar} {next : Int} {props : List Ty} {body : Ty}

/-- Predicates and a body, closed over fresh parameters for variables. -/
def closedOver (vs : List TyVar) (next : Int) (props : List Ty) (body : Ty) : Schema :=
  .generalize (quantifyVars vs next).1 (quantifyVars vs next).2.1 props body

/-- Types for the variables, in the order of the parameters, reach the parameters. -/
theorem find?_assignment_quantifyVars (f : TyVar → Ty)
    (hnodup : ((quantifyVars vs next).1.map Param.id).Nodup) {v : TyVar} {p : Param}
    (h : (v, p) ∈ (paramOrder vs).zip (quantifyVars vs next).1) :
    (assignment (quantifyVars vs next).1 ((paramOrder vs).map f)).find? p.id = some (f v) := by
  refine Ty.find?_assignment_of_mem hnodup ?_ ?_
  · rw [List.length_map, length_quantifyVars]
  · rw [List.zip_map_right, ← List.zip_swap]
    exact List.mem_map_of_mem (f := Prod.map id f) (List.mem_map_of_mem (f := Prod.swap) h)

theorem mem_of_find?_assignment {params : List Param} {args : List Ty} {i : Int} {t : Ty}
    (h : (assignment params args).find? i = some t) : i ∈ params.map Param.id ∧ t ∈ args := by
  obtain ⟨⟨p, u⟩, he, heq⟩ := List.mem_map.mp (Table.mem_ofList (Table.mem_of_find? h))
  obtain ⟨rfl, rfl⟩ := Prod.mk.inj heq
  exact ⟨List.mem_map_of_mem (List.of_mem_zip he).1, (List.of_mem_zip he).2⟩

/-- A use at the variables gives back types that mention none of the new parameters. -/
theorem instantiate_of_unmentioned (hnodup : ((quantifyVars vs next).1.map Param.id).Nodup)
    (hsame : ∀ t ∈ body :: props, ∀ w, .inl w ∈ t.leaves → ∀ v ∈ vs, w.id = v.id → w = v)
    (hfresh : ∀ t ∈ body :: props, ∀ p, .inr p ∈ t.leaves →
      p.id ∉ (quantifyVars vs next).1.map Param.id) :
    (closedOver vs next props body).instantiate ((paramOrder vs).map .free) = (props, body) := by
  have hback : ∀ t ∈ body :: props, (t.quantify (quantifyVars vs next).2.1).instantiate
      (assignment (quantifyVars vs next).1 ((paramOrder vs).map .free)) = t := by
    intro t ht
    refine Ty.instantiate_quantify (fun w hw p hp => ?_) fun p hp => ?_
    · obtain ⟨v, hid, hpair⟩ := mem_zip_of_find?_quantifyVars hp
      have hv := mem_paramOrder.mp (List.of_mem_zip hpair).1
      rw [hsame t ht w hw v hv hid.symm]
      exact find?_assignment_quantifyVars .free hnodup hpair
    · exact Option.eq_none_iff_forall_ne_some.mpr fun u hu =>
        hfresh t ht p hp (mem_of_find?_assignment hu).1
  obtain ⟨hbody, hprops⟩ := List.forall_mem_cons.mp hback
  refine Prod.ext ?_ hbody
  exact (List.map_map ..).trans ((List.map_congr_left hprops).trans (List.map_id' props))

/-- The variables that are left, in the same order. -/
theorem freeVars_closedOver (vs : List TyVar) (next : Int) (props : List Ty) (body : Ty) :
    Ty.freeVars ((closedOver vs next props body).body :: (closedOver vs next props body).props) =
      (Ty.freeVars (body :: props)).filter fun v => !(vs.map TyVar.id).contains v.id := by
  refine (Ty.freeVars_quantify (quantifyVars vs next).2.1 (body :: props)).trans ?_
  simp only [isNone_find?_quantifyVars]

/-- The variables that are left, those in the arguments of synonyms included. -/
theorem mem_leaves_closedOver {w : TyVar} :
    (∃ t ∈ (closedOver vs next props body).body :: (closedOver vs next props body).props,
      .inl w ∈ t.leaves) ↔
    (∃ t ∈ body :: props, .inl w ∈ t.leaves) ∧ w.id ∉ vs.map TyVar.id := by
  have hnone : (quantifyVars vs next).2.1.find? w.id = none ↔ w.id ∉ vs.map TyVar.id := by
    rw [← Option.isNone_iff_eq_none, isNone_find?_quantifyVars]
    simp
  constructor
  · rintro ⟨t, ht, hw⟩
    have hmap : t ∈ (body :: props).map (Ty.quantify (quantifyVars vs next).2.1) := ht
    obtain ⟨u, hu, rfl⟩ := List.mem_map.mp hmap
    obtain ⟨hw, hm⟩ := Ty.mem_leaves_quantify.mp hw
    exact ⟨⟨u, hu, hw⟩, hnone.mp hm⟩
  · rintro ⟨⟨u, hu, hw⟩, hout⟩
    exact ⟨_, List.mem_map_of_mem (f := Ty.quantify (quantifyVars vs next).2.1) hu,
      Ty.mem_leaves_quantify.mpr ⟨hw, hnone.mpr hout⟩⟩

theorem map_kind_closedOver (vs : List TyVar) (next : Int) (props : List Ty) (body : Ty) :
    (closedOver vs next props body).params.map Param.kind = (paramOrder vs).map TyVar.kind :=
  map_kind_freshParams ..

/-- A schema that is used at the variables it was closed over, in the order of its parameters, gives
back the predicates and the body. The variables left in it are those of the predicates and the body
without the ones it was closed over, also where the arguments of synonyms count. Among the
parameters the sizes come first, and otherwise the order of the variables is kept.

In the types, a variable with the id of a given one has to be that variable. The ids are drawn from
above those of all parameters mentioned; the last one may be the largest word. -/
theorem instantiate_closedOver (hnext : Word.Fits next)
    (hroom : next + vs.length ≤ Word.maxValue + 1)
    (hsame : ∀ t ∈ body :: props, ∀ w, .inl w ∈ t.leaves → ∀ v ∈ vs, w.id = v.id → w = v)
    (hbelow : ∀ t ∈ body :: props, ∀ p, .inr p ∈ t.leaves → p.id < next) :
    let S := closedOver vs next props body
    S.instantiate ((paramOrder vs).map .free) = (props, body) ∧
    Ty.freeVars (S.body :: S.props) =
      ((Ty.freeVars (body :: props)).filter fun v => !(vs.map TyVar.id).contains v.id) ∧
    (∀ w, (∃ t ∈ S.body :: S.props, .inl w ∈ t.leaves) ↔
      (∃ t ∈ body :: props, .inl w ∈ t.leaves) ∧ w.id ∉ vs.map TyVar.id) ∧
    S.params.map Param.kind = (vs.filter fun v => v.kind == .num).map TyVar.kind ++
      (vs.filter fun v => v.kind != .num).map TyVar.kind := by
  have hroom' : next + (paramOrder vs).length ≤ Word.maxValue + 1 := by rwa [length_paramOrder]
  have hnodup : ((quantifyVars vs next).1.map Param.id).Nodup := nodup_freshParams hnext hroom'
  have hfresh : ∀ t ∈ body :: props, ∀ p, .inr p ∈ t.leaves →
      p.id ∉ (quantifyVars vs next).1.map Param.id := by
    intro t ht p hp hmem
    have hids := map_id_freshParams_of_le hnext hroom'
    rw [quantifyVars, hids] at hmem
    obtain ⟨k, -, hk⟩ := List.mem_map.mp hmem
    have hlt := hbelow t ht p hp
    omega
  refine ⟨instantiate_of_unmentioned hnodup hsame hfresh, freeVars_closedOver ..,
    fun _ => mem_leaves_closedOver, ?_⟩
  rw [map_kind_closedOver, paramOrder, List.map_append]

/-- `?1`, an element, `?2`, a length, and another variable `?3`. -/
def elemVar : TyVar := { id := 1, kind := .type }

def lenVar : TyVar := { id := 2, kind := .num }

def otherVar : TyVar := { id := 3, kind := .type }

/-- `(fin ?2) => [?2]?1 -> ?3`, closed over `?1` and `?2`: the length becomes the first parameter. -/
theorem instantiate_closedOver_seq :
    let S := closedOver [elemVar, lenVar] 500 [.fin (.free lenVar)]
      (.arrow (.seq (.free lenVar) (.free elemVar)) (.free otherVar))
    S.instantiate [.free lenVar, .free elemVar] = ([.fin (.free lenVar)],
      .arrow (.seq (.free lenVar) (.free elemVar)) (.free otherVar)) ∧
    Ty.freeVars (S.body :: S.props) = [otherVar] ∧ S.params.map Param.kind = [.num, .type] := by
  have hsame : ∀ t ∈ [Ty.arrow (.seq (.free lenVar) (.free elemVar)) (.free otherVar),
      .fin (.free lenVar)], ∀ w, .inl w ∈ t.leaves → ∀ v ∈ [elemVar, lenVar], w.id = v.id → w = v := by
    simp [Ty.leaves, Ty.leavesList, Ty.arrow, Ty.seq, Ty.fin, elemVar, lenVar, otherVar]
  have hbelow : ∀ t ∈ [Ty.arrow (.seq (.free lenVar) (.free elemVar)) (.free otherVar),
      .fin (.free lenVar)], ∀ p, .inr p ∈ t.leaves → p.id < 500 := by
    simp [Ty.leaves, Ty.leavesList, Ty.arrow, Ty.seq, Ty.fin]
  obtain ⟨hback, hleft, -, hkinds⟩ := instantiate_closedOver (by decide) (by decide) hsame hbelow
  exact ⟨hback, hleft.trans (by decide), hkinds⟩

/-- Wherever the counter wraps around, the smallest word is given out, and a type that mentions the
parameter with this id is not given back. -/
theorem exists_captured (hnext : Word.Fits next) (hmin : -9223372036854775808 < next)
    (hwrap : Word.maxValue + 1 < next + vs.length) :
    ∃ t : Ty, (∀ p, .inr p ∈ t.leaves → p.id < next) ∧ (∀ w, .inl w ∉ t.leaves) ∧
      (closedOver vs next [] t).instantiate ((paramOrder vs).map .free) ≠ ([], t) := by
  let q : Param := { id := -9223372036854775808, kind := .type }
  have hmem : q.id ∈ (quantifyVars vs next).1.map Param.id := by
    show q.id ∈ (freshParams (paramOrder vs) next).1.map Param.id
    obtain ⟨k, hk⟩ := Int.eq_ofNat_of_zero_le (by have := hnext.2; omega : 0 ≤ Word.maxValue + 1 - next)
    rw [map_id_freshParams hnext, length_paramOrder]
    refine List.mem_map.mpr ⟨k, List.mem_range.mpr (by omega), ?_⟩
    rw [show next + (k : Int) = Word.maxValue + 1 by omega]
    rfl
  have hlen : (quantifyVars vs next).1.length ≤ ((paramOrder vs).map Ty.free).length := by
    rw [List.length_map, length_quantifyVars]
  obtain ⟨u, hu⟩ := Ty.exists_find?_assignment hlen hmem
  obtain ⟨v, -, rfl⟩ := List.mem_map.mp (mem_of_find?_assignment hu).2
  refine ⟨.bound q, fun p hp => ?_, fun w hw => ?_, fun heq => ?_⟩
  · rw [Ty.leaves, List.mem_singleton, Sum.inr.injEq] at hp
    exact hp ▸ hmin
  · rw [Ty.leaves, List.mem_singleton] at hw
    cases hw
  · have hbody : ((assignment (quantifyVars vs next).1 ((paramOrder vs).map .free)).find?
        q.id).getD (.bound q) = .bound q := congrArg Prod.snd heq
    rw [hu] at hbody
    cases hbody

/-- `(p, ?3)` with a parameter `p` that has the smallest id, closed over `?1` and `?3` when the counter
is at the largest word: `?3` becomes a parameter with the id of `p`, and the use at `?1` and `?3` gives
`(?3, ?3)`. -/
theorem instantiate_closedOver_captured :
    ([elemVar, otherVar].map TyVar.id).Nodup ∧
    (∀ p, .inr p ∈ (Ty.tuple [.bound { id := -9223372036854775808, kind := .type },
      .free otherVar]).leaves → p.id < Word.maxValue) ∧
    (closedOver [elemVar, otherVar] Word.maxValue []
      (.tuple [.bound { id := -9223372036854775808, kind := .type }, .free otherVar])).instantiate
        ((paramOrder [elemVar, otherVar]).map .free) = ([], .tuple [.free otherVar, .free otherVar]) ∧
    Ty.tuple [.free otherVar, .free otherVar] ≠
      .tuple [.bound { id := -9223372036854775808, kind := .type }, .free otherVar] := by
  refine ⟨by decide, fun p hp => ?_, rfl, fun heq => ?_⟩
  · have hp' : p = { id := -9223372036854775808, kind := .type } := by
      simpa [Ty.leaves, Ty.leavesList, Ty.tuple] using hp
    rw [hp']
    decide
  · cases heq

end Schema

end SizedTypes
