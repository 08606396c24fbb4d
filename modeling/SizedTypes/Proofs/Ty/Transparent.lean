import SizedTypes.Proofs.Simplify.Variables
import SizedTypes.Proofs.Ty.Leaves

/-!
# Types whose synonyms show their variables

Variables in the arguments of a synonym count only where what it expands to mentions them as well.
In a transparent type no argument has others. A type passes this on to its parts, normalizing keeps
it, and so does putting a constant in place of a variable.
-/

set_option autoImplicit false

namespace SizedTypes.Ty

/-- Every variable in the arguments of a synonym occurs in what the synonym expands to, and sizes
that are literals have no arguments. -/
inductive Transparent : Ty → Prop
  | free {v : TyVar} : Transparent (.free v)
  | bound {p : Param} : Transparent (.bound p)
  | con {c : Con} {args : List Ty} : (c.isLiteral = true → args = []) →
      (∀ a ∈ args, Transparent a) → Transparent (.con c args)
  | record {fs : List (String × Ty)} : (∀ f ∈ fs, Transparent f.2) → Transparent (.record fs)
  | synonym {n : Name} {args : List Ty} {body : Ty} : Transparent body →
      (∀ a ∈ args, ∀ i ∈ a.leafIds, i ∈ body.varIds) → Transparent (.synonym n args body)
  | newtype {n : Name} {ps : List Param} {fs : List (String × Ty)} {args : List Ty} :
      (∀ a ∈ args, Transparent a) → Transparent (.newtype n ps fs args)

/-! ## Variables of composed types -/

theorem mem_varIds_con {c : Con} {args : List Ty} {i : Int} :
    i ∈ (con c args).varIds ↔ ∃ a ∈ args, i ∈ a.varIds := by
  rw [varIds, vars, varsList_eq_flatMap, List.map_flatMap, List.mem_flatMap]
  rfl

theorem mem_varIds_record {fs : List (String × Ty)} {i : Int} :
    i ∈ (record fs).varIds ↔ ∃ f ∈ fs, i ∈ f.2.varIds := by
  rw [varIds, vars, varsFields_eq_flatMap, List.map_flatMap, List.mem_flatMap]
  rfl

theorem mem_varIds_newtype {n : Name} {ps : List Param} {fs : List (String × Ty)} {args : List Ty}
    {i : Int} : i ∈ (newtype n ps fs args).varIds ↔ ∃ a ∈ args, i ∈ a.varIds :=
  mem_varIds_con (c := .bit)

theorem mem_leafIds_con {c : Con} {args : List Ty} {i : Int} :
    i ∈ (con c args).leafIds ↔ ∃ a ∈ args, i ∈ a.leafIds := by
  rw [leafIds, leaves, leavesList_eq_flatMap, List.filterMap_flatMap, List.mem_flatMap]
  rfl

theorem mem_leafIds_record {fs : List (String × Ty)} {i : Int} :
    i ∈ (record fs).leafIds ↔ ∃ f ∈ fs, i ∈ f.2.leafIds := by
  rw [leafIds, leaves, leavesFields_eq_flatMap, List.filterMap_flatMap, List.mem_flatMap]
  rfl

theorem mem_leafIds_synonym {n : Name} {args : List Ty} {body : Ty} {i : Int} :
    i ∈ (synonym n args body).leafIds ↔ (∃ a ∈ args, i ∈ a.leafIds) ∨ i ∈ body.leafIds := by
  rw [leafIds, leaves, List.filterMap_append, List.mem_append, leavesList_eq_flatMap,
    List.filterMap_flatMap, List.mem_flatMap]
  rfl

theorem mem_leafIds_newtype {n : Name} {ps : List Param} {fs : List (String × Ty)} {args : List Ty}
    {i : Int} : i ∈ (newtype n ps fs args).leafIds ↔ ∃ a ∈ args, i ∈ a.leafIds :=
  mem_leafIds_con (c := .bit)

/-! ## Types without the synonyms around them -/

theorem expand_expand : ∀ t : Ty, t.expand.expand = t.expand
  | .free _ | .bound _ | .con _ _ | .record _ | .newtype _ _ _ _ => rfl
  | .synonym _ _ body => expand_expand body

theorem params_expand : ∀ t : Ty, t.expand.params = t.params
  | .free _ | .bound _ | .con _ _ | .record _ | .newtype _ _ _ _ => rfl
  | .synonym _ _ body => params_expand body

theorem mem_leafIds_of_expand {i : Int} : ∀ {t : Ty}, i ∈ t.expand.leafIds → i ∈ t.leafIds
  | .free _, h | .bound _, h | .con _ _, h | .record _, h | .newtype _ _ _ _, h => h
  | .synonym _ _ _, h => mem_leafIds_synonym.mpr (.inr (mem_leafIds_of_expand h))

theorem closed_expand {t : Ty} (h : t.leafIds = []) : t.expand.leafIds = [] :=
  List.eq_nil_of_subset_nil fun _ hi => h ▸ mem_leafIds_of_expand hi

theorem closed_of_mem_con {c : Con} {args : List Ty} (h : (Ty.con c args).leafIds = []) {a : Ty}
    (ha : a ∈ args) : a.leafIds = [] :=
  List.eq_nil_of_subset_nil fun i hi => by
    rw [← h]
    exact mem_leafIds_con.mpr ⟨a, ha, hi⟩

/-! ## Hidden variables -/

/-- The variable occurs in an argument of a synonym that expands to a type without it. -/
inductive Hides (i : Int) : Ty → Prop
  | con {c : Con} {args : List Ty} {a : Ty} : a ∈ args → Hides i a → Hides i (.con c args)
  | record {fs : List (String × Ty)} {f : String × Ty} : f ∈ fs → Hides i f.2 → Hides i (.record fs)
  | dropped {n : Name} {args : List Ty} {body a : Ty} : a ∈ args → i ∈ a.leafIds →
      i ∉ body.varIds → Hides i (.synonym n args body)
  | body {n : Name} {args : List Ty} {body : Ty} : Hides i body → Hides i (.synonym n args body)
  | newtype {n : Name} {ps : List Param} {fs : List (String × Ty)} {args : List Ty} {a : Ty} :
      a ∈ args → Hides i a → Hides i (.newtype n ps fs args)

/-- A leaf that a type does not show is hidden by one of its synonyms. -/
theorem Hides.of_mem_leafIds {t : Ty} {i : Int} (hi : i ∈ t.leafIds) (hshown : i ∉ t.varIds) :
    t.Hides i := by
  induction t using Ty.induct with
  | free v => exact absurd hi hshown
  | bound p => cases hi
  | con c args ih =>
    obtain ⟨a, ha, hi⟩ := mem_leafIds_con.mp hi
    exact .con ha (ih a ha hi fun hv => hshown (mem_varIds_con.mpr ⟨a, ha, hv⟩))
  | record fs ih =>
    obtain ⟨f, hf, hi⟩ := mem_leafIds_record.mp hi
    exact .record hf (ih f hf hi fun hv => hshown (mem_varIds_record.mpr ⟨f, hf, hv⟩))
  | synonym n args body _ ih =>
    rcases mem_leafIds_synonym.mp hi with ⟨a, ha, hi⟩ | hi
    · exact .dropped ha hi hshown
    · exact .body (ih hi hshown)
  | newtype n ps fs args ih =>
    obtain ⟨a, ha, hi⟩ := mem_leafIds_newtype.mp hi
    exact .newtype ha (ih a ha hi fun hv => hshown (mem_varIds_newtype.mpr ⟨a, ha, hv⟩))

/-- Nothing is hidden in a type whose synonyms show their variables. -/
theorem Transparent.not_hides {t : Ty} (h : t.Transparent) (i : Int) : ¬t.Hides i := by
  induction h with
  | free => exact fun hi => nomatch hi
  | bound => exact fun hi => nomatch hi
  | con _ _ ih =>
    intro hi
    cases hi with
    | con ha hi => exact ih _ ha hi
  | record _ ih =>
    intro hi
    cases hi with
    | record hf hi => exact ih _ hf hi
  | synonym _ hargs ih =>
    intro hi
    cases hi with
    | dropped ha hi hbody => exact hbody (hargs _ ha i hi)
    | body hi => exact ih hi
  | newtype _ ih =>
    intro hi
    cases hi with
    | newtype ha hi => exact ih _ ha hi

namespace Transparent

/-- The variables of a transparent type are those that it shows. -/
theorem mem_varIds {t : Ty} (h : t.Transparent) {i : Int} (hi : i ∈ t.leafIds) : i ∈ t.varIds := by
  induction h with
  | free => exact hi
  | bound => exact hi
  | con _ _ ih =>
    obtain ⟨a, ha, hi⟩ := mem_leafIds_con.mp hi
    exact mem_varIds_con.mpr ⟨a, ha, ih a ha hi⟩
  | record _ ih =>
    obtain ⟨f, hf, hi⟩ := mem_leafIds_record.mp hi
    exact mem_varIds_record.mpr ⟨f, hf, ih f hf hi⟩
  | synonym _ hargs ih =>
    rcases mem_leafIds_synonym.mp hi with ⟨a, ha, hi⟩ | hi
    · exact hargs a ha i hi
    · exact ih hi
  | newtype _ ih =>
    obtain ⟨a, ha, hi⟩ := mem_leafIds_newtype.mp hi
    exact mem_varIds_newtype.mpr ⟨a, ha, ih a ha hi⟩

/-! ## Normalizing -/

theorem of_evalList {ts : List Ty} {ns : List Size} (h : evalList ts = some ns) {t : Ty}
    (ht : t ∈ ts) : ∃ n, t.eval = some n := by
  induction ts generalizing ns with
  | nil => cases ht
  | cons u us ih =>
    simp only [evalList, Option.bind_eq_some_iff, Option.map_eq_some_iff] at h
    obtain ⟨n, hn, ms, hms, -⟩ := h
    rcases List.mem_cons.mp ht with rfl | ht
    · exact ⟨n, hn⟩
    · exact ih hms ht

/-- A transparent type that has a value has no variables. -/
theorem varIds_of_eval {t : Ty} (h : t.Transparent) {n : Size} (hn : t.eval = some n) :
    t.varIds = [] := by
  induction h generalizing n with
  | @con c args hliteral _ ih =>
    refine List.eq_nil_iff_forall_not_mem.mpr fun i hi => ?_
    obtain ⟨a, ha, hia⟩ := mem_varIds_con.mp hi
    unfold eval at hn
    split at hn
    · rename_i heq
      cases heq
      rw [hliteral rfl] at ha
      cases ha
    · rename_i heq
      cases heq
      rw [hliteral rfl] at ha
      cases ha
    · rename_i heq
      cases heq
      obtain ⟨ns, hns, -⟩ := Option.bind_eq_some_iff.mp hn
      obtain ⟨m, hm⟩ := of_evalList hns ha
      rw [ih a ha hm] at hia
      cases hia
    · rename_i heq
      cases heq
    · cases hn
  | synonym _ _ ih => exact ih hn
  | _ => cases hn

theorem toTy (n : Size) : n.toTy.Transparent := by
  cases n <;> exact .con (fun _ => rfl) fun _ ha => nomatch ha

/-- Normalizing a type adds no leaves. -/
theorem leafIds_normalize {t : Ty} {i : Int} (hi : i ∈ t.normalize.leafIds) : i ∈ t.leafIds := by
  have hargs : ∀ {args : List Ty}, (∀ a ∈ args, i ∈ a.normalize.leafIds → i ∈ a.leafIds) →
      (∃ a ∈ normalizeList args, i ∈ a.leafIds) → ∃ a ∈ args, i ∈ a.leafIds := by
    rintro args ih ⟨a, ha, hi⟩
    rw [normalizeList_eq_map] at ha
    obtain ⟨b, hb, rfl⟩ := List.mem_map.mp ha
    exact ⟨b, hb, ih b hb hi⟩
  induction t using Ty.induct with
  | free v => exact hi
  | bound p => exact hi
  | con c args ih =>
    have hcon : i ∈ (Ty.con c (normalizeList args)).leafIds → i ∈ (Ty.con c args).leafIds :=
      fun hi => mem_leafIds_con.mpr (hargs ih (mem_leafIds_con.mp hi))
    cases c with
    | op f =>
      rw [Ty.normalize] at hi
      split at hi
      · rename_i n _
        cases n <;> cases hi
      · exact hcon hi
    | _ => exact hcon hi
  | record fs ih =>
    rw [Ty.normalize, normalizeFields_eq_map, mem_leafIds_record] at hi
    obtain ⟨f, hf, hi⟩ := hi
    obtain ⟨e, he, rfl⟩ := List.mem_map.mp hf
    exact mem_leafIds_record.mpr ⟨e, he, ih e he hi⟩
  | synonym n args body iha ihb =>
    rw [Ty.normalize, mem_leafIds_synonym] at hi
    exact mem_leafIds_synonym.mpr (hi.imp (hargs iha) ihb)
  | newtype n ps fs args ih =>
    rw [Ty.normalize, mem_leafIds_newtype] at hi
    exact mem_leafIds_newtype.mpr (hargs ih hi)

/-- Normalizing a transparent type keeps its variables, so the result is transparent. -/
theorem normalize_spec {t : Ty} (h : t.Transparent) :
    t.normalize.Transparent ∧ ∀ i, i ∈ t.varIds → i ∈ t.normalize.varIds := by
  induction h with
  | free => exact ⟨.free, fun _ hi => hi⟩
  | bound => exact ⟨.bound, fun _ hi => hi⟩
  | @con c args hliteral _ ih =>
    have hcon : (Ty.con c (normalizeList args)).Transparent ∧
        ∀ i, i ∈ (Ty.con c args).varIds → i ∈ (Ty.con c (normalizeList args)).varIds := by
      rw [normalizeList_eq_map]
      refine ⟨.con (fun hc => by rw [hliteral hc]; rfl) (List.forall_mem_map.mpr fun a ha =>
        (ih a ha).1), fun i hi => ?_⟩
      obtain ⟨a, ha, hi⟩ := mem_varIds_con.mp hi
      exact mem_varIds_con.mpr ⟨_, List.mem_map_of_mem ha, (ih a ha).2 i hi⟩
    cases c with
    | op f =>
      rw [Ty.normalize]
      split
      · -- a value takes the place of a type that has no variables
        rename_i n hn
        refine ⟨.toTy n, fun i hi => ?_⟩
        have hmem := hcon.2 i hi
        rw [hcon.1.varIds_of_eval hn] at hmem
        cases hmem
      · exact hcon
    | _ => exact hcon
  | record _ ih =>
    rw [Ty.normalize, normalizeFields_eq_map]
    refine ⟨.record (List.forall_mem_map.mpr fun f hf => (ih f hf).1), fun i hi => ?_⟩
    obtain ⟨f, hf, hi⟩ := mem_varIds_record.mp hi
    exact mem_varIds_record.mpr ⟨_, List.mem_map_of_mem hf, (ih f hf).2 i hi⟩
  | synonym _ hargs ih =>
    refine ⟨.synonym ih.1 ?_, ih.2⟩
    rw [normalizeList_eq_map]
    exact List.forall_mem_map.mpr fun a ha i hi => ih.2 i (hargs a ha i (leafIds_normalize hi))
  | newtype _ ih =>
    rw [Ty.normalize, normalizeList_eq_map]
    refine ⟨.newtype (List.forall_mem_map.mpr fun a ha => (ih a ha).1), fun i hi => ?_⟩
    obtain ⟨a, ha, hi⟩ := mem_varIds_newtype.mp hi
    exact mem_varIds_newtype.mpr ⟨_, List.mem_map_of_mem ha, (ih a ha).2 i hi⟩

theorem inherited : Inherited Transparent where
  args h := by
    cases h with
    | con _ hargs => exact hargs
  con hliteral hargs := .con hliteral hargs
  fields h := by
    cases h with
    | record hfs => exact hfs
  body h := by
    cases h with
    | synonym hbody _ => exact hbody
  normalize h := h.normalize_spec.1

/-! ## Replacing a variable -/

theorem leafIds_con_nil (c : Con) : (Ty.con c []).leafIds = [] := rfl

theorem mem_varIds_replace {t : Ty} {v i : Int} {u : Ty} (hi : i ∈ t.varIds) (hne : i ≠ v) :
    i ∈ (t.replace v u).varIds := by
  rw [varIds_eq_shape, shape_replace, Shape.mem_vars_subst]
  exact ⟨i, varIds_eq_shape t ▸ hi, by simp [Shape.single, hne]⟩

/-- A constant in place of a variable. -/
theorem replace_const {t : Ty} (h : t.Transparent) (v : Int) (c : Con) :
    (t.replace v (.con c [])).Transparent := by
  have hconst : (Ty.con c []).Transparent := .con (fun _ => rfl) fun _ ha => nomatch ha
  unfold Ty.replace
  induction h with
  | @free w =>
    rw [bind]
    split
    · exact hconst
    · exact .free
  | bound => exact .bound
  | con hliteral _ ih =>
    rw [bind, bindList_eq_map]
    exact .con (fun hc => by rw [hliteral hc]; rfl) (List.forall_mem_map.mpr ih)
  | record _ ih =>
    rw [bind, bindFields_eq_map]
    exact .record (List.forall_mem_map.mpr ih)
  | synonym _ hargs ih =>
    rw [bind, bindList_eq_map]
    refine .synonym ih (List.forall_mem_map.mpr fun a ha i hi => ?_)
    rcases mem_leafIds_replace.mp hi with ⟨hi, hne⟩ | ⟨-, hi⟩
    · exact mem_varIds_replace (hargs a ha i hi) hne
    · rw [leafIds_con_nil] at hi
      cases hi
  | newtype _ ih =>
    rw [bind, bindList_eq_map]
    exact .newtype (List.forall_mem_map.mpr ih)

end Transparent

/-- A property of leaves goes over from a predicate to what simplifying leaves of it. -/
theorem inherited_leafIds (S : Int → Prop) : Inherited fun t => ∀ i ∈ t.leafIds, S i where
  args h a ha i hi := h i (mem_leafIds_con.mpr ⟨a, ha, hi⟩)
  con _ h i hi := by
    obtain ⟨a, ha, hi⟩ := mem_leafIds_con.mp hi
    exact h a ha i hi
  fields h f hf i hi := h i (mem_leafIds_record.mpr ⟨f, hf, hi⟩)
  body h i hi := h i (mem_leafIds_synonym.mpr (Or.inr hi))
  normalize h i hi := h i (Transparent.leafIds_normalize hi)

end SizedTypes.Ty
