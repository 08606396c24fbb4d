import SizedTypes.Proofs.Quantify
import SizedTypes.Proofs.Simplify.Normal
import SizedTypes.Proofs.Simplify.Replacement
import SizedTypes.Proofs.Subst.Acyclic

/-!
# Normal forms and equality

Goals, schemas and terms are normalized at different times, before or after other variables are
bound. This cannot be observed: a value that stands in place of a closed application stays its value
under every substitution, and an application that is left has no value yet, so it is still there when
the type is normalized again.

Nor can it be observed where a type is written with a synonym. Equality looks through synonyms, and
types that are equal stay equal as they are normalized and as their variables and parameters are
replaced, so a goal is recognized among assumptions or earlier goals after every substitution.
-/

set_option autoImplicit false

namespace SizedTypes.Ty

/-! ## Values under replacements -/

section bind

variable {onFree : TyVar → Ty} {onBound : Param → Ty}

mutual
/-- A value does not depend on what stands in place of variables and parameters. -/
theorem eval_bind : ∀ {t : Ty} {n : Size}, t.eval = some n →
    (t.bind onFree onBound).eval = some n
  | free _, _, h | bound _, _, h | record _, _, h | newtype _ _ _ _, _, h => by simp [eval] at h
  | synonym _ _ body, n, h => by
    rw [eval] at h
    rw [bind, eval, eval_bind h]
  | con c args, n, h => by
    cases c with
    | op f =>
      rw [eval] at h
      obtain ⟨ns, hns, hn⟩ := Option.bind_eq_some_iff.mp h
      rw [bind, eval, evalList_bindList hns]
      exact hn
    | num | inf => exact h
    | _ => simp [eval] at h

theorem evalList_bindList : ∀ {ts : List Ty} {ns : List Size}, evalList ts = some ns →
    evalList (bindList onFree onBound ts) = some ns
  | [], _, h => h
  | t :: ts, ns, h => by
    rw [evalList] at h
    obtain ⟨n, hn, h⟩ := Option.bind_eq_some_iff.mp h
    obtain ⟨ns, hns, rfl⟩ := Option.map_eq_some_iff.mp h
    rw [bindList, evalList, eval_bind hn, evalList_bindList hns]
    rfl
end

theorem bind_toTy (n : Size) : n.toTy.bind onFree onBound = n.toTy := by
  cases n <;> rfl

mutual
/-- A replacement after normalizing and one before it have the same normal form. -/
theorem normalize_bind : ∀ t : Ty,
    (t.normalize.bind onFree onBound).normalize = (t.bind onFree onBound).normalize
  | free _ | bound _ => rfl
  | con c args => by
    have hargs := normalizeList_bindList args
    cases c with
    | op f =>
      cases hval : (con (.op f) args).eval with
      | some n =>
        -- the value is found before and after
        have hlater : (con (.op f) (bindList onFree onBound args)).eval = some n := eval_bind hval
        rw [normalize_op, hval, bind, normalize_op, hlater]
        exact (congrArg normalize (bind_toTy n)).trans (normalize_toTy n)
      | none =>
        rw [normalize_op, hval]
        show (con (.op f) (bindList onFree onBound (normalizeList args))).normalize = _
        rw [bind, normalize, normalize, hargs]
    | _ => simp only [normalize, bind, hargs]
  | record fields => by simp only [normalize, bind, normalizeFields_bindFields fields]
  | synonym _ args body => by
    simp only [normalize, bind, normalizeList_bindList args, normalize_bind body]
  | newtype _ _ _ args => by simp only [normalize, bind, normalizeList_bindList args]

theorem normalizeList_bindList : ∀ ts : List Ty,
    normalizeList (bindList onFree onBound (normalizeList ts)) =
      normalizeList (bindList onFree onBound ts)
  | [] => rfl
  | t :: ts => by simp only [normalizeList, bindList, normalize_bind t, normalizeList_bindList ts]

theorem normalizeFields_bindFields : ∀ fs : List (String × Ty),
    normalizeFields (bindFields onFree onBound (normalizeFields fs)) =
      normalizeFields (bindFields onFree onBound fs)
  | [] => rfl
  | (_, t) :: fs => by
    simp only [normalizeFields, bindFields, normalize_bind t, normalizeFields_bindFields fs]
end

end bind

theorem normalize_apply (s : Subst) (t : Ty) :
    (s.apply t.normalize).normalize = (s.apply t).normalize := by
  rw [Subst.apply_eq_bind, Subst.apply_eq_bind s t]
  exact normalize_bind t

/-! ## What is nested in a normal form -/

/-- `u` is the type or nested in it, at whatever place. -/
inductive NestedIn (u : Ty) : Ty → Prop
  | refl : NestedIn u u
  | con {c : Con} {args : List Ty} {a : Ty} (ha : a ∈ args) (h : NestedIn u a) :
      NestedIn u (con c args)
  | record {fs : List (String × Ty)} {e : String × Ty} (he : e ∈ fs) (h : NestedIn u e.2) :
      NestedIn u (record fs)
  | synonym {n : Name} {args : List Ty} {body a : Ty} (ha : a ∈ args) (h : NestedIn u a) :
      NestedIn u (synonym n args body)
  | body {n : Name} {args : List Ty} {body : Ty} (h : NestedIn u body) :
      NestedIn u (synonym n args body)
  | newtype {n : Name} {ps : List Param} {fs : List (String × Ty)} {args : List Ty} {a : Ty}
      (ha : a ∈ args) (h : NestedIn u a) : NestedIn u (newtype n ps fs args)

/-- An application that is its own normal form has no value. -/
theorem eval_of_normalized {f : SizeOp} {args : List Ty}
    (h : (con (.op f) args).normalize = con (.op f) args) : (con (.op f) args).eval = none := by
  cases hval : (con (.op f) args).eval with
  | none => rfl
  | some n =>
    rw [normalize_op, hval] at h
    cases n <;> cases h

theorem normalizeList_of_normalized {c : Con} {args : List Ty}
    (h : (con c args).normalize = con c args) : normalizeList args = args := by
  cases c with
  | op f =>
    have hnone := eval_of_normalized h
    rw [normalize_op, hnone] at h
    exact (con.inj h).2
  | _ =>
    simp only [normalize] at h
    exact (con.inj h).2

theorem normalize_of_mem {ts : List Ty} (h : normalizeList ts = ts) {t : Ty} (ht : t ∈ ts) :
    t.normalize = t := by
  rw [normalizeList_eq_map] at h
  exact List.map_inj_left.mp (h.trans (List.map_id ts).symm) t ht

/-- What is nested in a normal form is normalized. -/
theorem NestedIn.normalized {t u : Ty} (h : u.NestedIn t) (ht : t.normalize = t) :
    u.normalize = u := by
  induction h with
  | refl => exact ht
  | con ha _ ih => exact ih (normalize_of_mem (normalizeList_of_normalized ht) ha)
  | @record fs e he _ ih =>
    rw [normalize, normalizeFields_eq_map] at ht
    have heq := List.map_inj_left.mp ((record.inj ht).trans (List.map_id fs).symm) e he
    exact ih (congrArg Prod.snd heq)
  | synonym ha _ ih =>
    rw [normalize] at ht
    exact ih (normalize_of_mem (synonym.inj ht).2.1 ha)
  | body _ ih =>
    rw [normalize] at ht
    exact ih (synonym.inj ht).2.2
  | newtype ha _ ih =>
    rw [normalize] at ht
    exact ih (normalize_of_mem (newtype.inj ht).2.2.2 ha)

/-! ## Normalizing early -/

/-- Normalizing again changes nothing, nor does normalizing change a value or its absence. What is
left has no value. Under every substitution the normal form is the same whether or not the type was
normalized before. -/
theorem normalize_early (t : Ty) :
    t.normalize.normalize = t.normalize ∧ t.normalize.eval = t.eval ∧
    (∀ (f : SizeOp) (args : List Ty), (con (.op f) args).NestedIn t.normalize →
      (con (.op f) args).eval = none) ∧
    ∀ s : Subst, (s.apply t.normalize).normalize = (s.apply t).normalize :=
  ⟨normalize_normalize t, eval_normalize t,
    fun _ _ h => eval_of_normalized (h.normalized (normalize_normalize t)),
    fun s => normalize_apply s t⟩

/-- `2 - 3`, which is undefined. -/
def belowZero : Ty := op .sub [num 2, num 3]

/-- `[(2 - 3) + (2 + 2)]Bit`, in which only the sum of the twos has a value. The other applications
are left in the normal form, the one inside the other. -/
theorem normalize_early_belowZero :
    (seq (op .add [belowZero, op .add [num 2, num 2]]) bit).normalize =
      seq (op .add [belowZero, num 4]) bit ∧
    belowZero.eval = none ∧ (op .add [belowZero, num 4]).eval = none := by
  obtain ⟨-, -, hleft, -⟩ := normalize_early (seq (op .add [belowZero, op .add [num 2, num 2]]) bit)
  have hnormal : (seq (op .add [belowZero, op .add [num 2, num 2]]) bit).normalize =
      seq (op .add [belowZero, num 4]) bit := by cbv
  have hsum : (op .add [belowZero, num 4]).NestedIn (seq (op .add [belowZero, num 4]) bit) :=
    .con (List.mem_cons_self ..) .refl
  have hinner : belowZero.NestedIn (seq (op .add [belowZero, num 4]) bit) :=
    .con (List.mem_cons_self ..) (.con (List.mem_cons_self ..) .refl)
  rw [hnormal] at hleft
  exact ⟨hnormal, hleft _ _ hinner, hleft _ _ hsum⟩

/-! ## Equality up to synonyms -/

/-- `u` is `t` with a synonym put around one of its parts, at whatever depth. -/
inductive Wraps : Ty → Ty → Prop
  | here (n : Name) (args : List Ty) (t : Ty) : Wraps t (synonym n args t)
  | con {c : Con} {before after : List Ty} {t u : Ty} (h : Wraps t u) :
      Wraps (con c (before ++ t :: after)) (con c (before ++ u :: after))
  | record {before after : List (String × Ty)} {l : String} {t u : Ty} (h : Wraps t u) :
      Wraps (record (before ++ (l, t) :: after)) (record (before ++ (l, u) :: after))
  | argument {n : Name} {before after : List Ty} {body t u : Ty} (h : Wraps t u) :
      Wraps (synonym n (before ++ t :: after) body) (synonym n (before ++ u :: after) body)
  | body {n : Name} {args : List Ty} {t u : Ty} (h : Wraps t u) :
      Wraps (synonym n args t) (synonym n args u)
  | newtype {n : Name} {ps : List Param} {fs : List (String × Ty)} {before after : List Ty}
      {t u : Ty} (h : Wraps t u) :
      Wraps (newtype n ps fs (before ++ t :: after)) (newtype n ps fs (before ++ u :: after))

theorem Wraps.shape_eq {t u : Ty} (h : Wraps t u) : t.shape = u.shape := by
  induction h with
  | here | argument => rfl
  | con _ ih | record _ ih | newtype _ ih => simp [ih]
  | body _ ih => exact ih

/-- Synonyms may be put around parts and taken off again. -/
def Rewrapped : Ty → Ty → Prop := Relation.EqvGen Wraps

theorem Rewrapped.shape_eq {t u : Ty} (h : Rewrapped t u) : t.shape = u.shape := by
  induction h with
  | rel _ _ h => exact h.shape_eq
  | refl => rfl
  | symm _ _ _ ih => exact ih.symm
  | trans _ _ _ _ _ ih ih' => exact ih.trans ih'

theorem same_equivalence : Equivalence fun a b : Ty => a.same b = true where
  refl a := (same_iff_shape a a).mpr rfl
  symm h := (same_iff_shape _ _).mpr ((same_iff_shape _ _).mp h).symm
  trans h h' := (same_iff_shape _ _).mpr
    (((same_iff_shape _ _).mp h).trans ((same_iff_shape _ _).mp h'))

/-- Equality looks through synonyms on both sides. -/
theorem same_eq_of_rewrapped {a a' b b' : Ty} (ha : a.Rewrapped a') (hb : b.Rewrapped b') :
    a.same b = a'.same b' := by
  rw [Bool.eq_iff_iff, same_iff_shape, same_iff_shape, ha.shape_eq, hb.shape_eq]

/-! Records are compared position by position. For tables in order, this is to compare them label
by label. -/

theorem exists_field_of_sameFields {fs gs : List (String × Ty)} (h : sameFields fs gs = true)
    {l : String} {t : Ty} (ht : Table.find? l fs = some t) :
    ∃ u, Table.find? l gs = some u ∧ t.same u = true := by
  induction fs generalizing gs with
  | nil => cases ht
  | cons e fs ih =>
    cases gs with
    | nil => cases h
    | cons e' gs =>
      simp only [sameFields, Bool.and_eq_true, beq_iff_eq] at h
      obtain ⟨⟨hlabel, hsame⟩, hrest⟩ := h
      rw [Table.find?] at ht ⊢
      rw [← hlabel]
      by_cases hl : l = e.1
      · rw [if_pos hl, Option.some.injEq] at ht
        exact ⟨e'.2, if_pos hl, ht ▸ hsame⟩
      · rw [if_neg hl] at ht ⊢
        exact ih hrest ht

theorem sameFields_of_labels {fs gs : List (String × Ty)} (hnodup : (fs.map Prod.fst).Nodup)
    (hlabels : fs.map Prod.fst = gs.map Prod.fst)
    (hsame : ∀ l t, Table.find? l fs = some t →
      ∃ u, Table.find? l gs = some u ∧ t.same u = true) : sameFields fs gs = true := by
  induction fs generalizing gs with
  | nil =>
    obtain rfl : gs = [] := List.map_eq_nil_iff.mp hlabels.symm
    rfl
  | cons e fs ih =>
    cases gs with
    | nil => cases hlabels
    | cons e' gs =>
      obtain ⟨l, t⟩ := e
      obtain ⟨m, u⟩ := e'
      obtain ⟨rfl, hrest⟩ := List.cons.inj hlabels
      obtain ⟨hnew, hnodup⟩ := List.nodup_cons.mp hnodup
      obtain ⟨u', hu', hhead⟩ := hsame l t (if_pos rfl)
      obtain rfl : u = u' := by simpa [Table.find?] using hu'
      have hfields : sameFields fs gs = true := by
        refine ih hnodup hrest fun k t' hk => ?_
        -- labels occur once, so another label is looked up behind the first field on both sides
        have hmem : k ∈ fs.map Prod.fst := List.mem_map.mpr ⟨(k, t'), Table.mem_of_find? hk, rfl⟩
        have hne : k ≠ l := fun heq => hnew (heq ▸ hmem)
        simpa [Table.find?, hne] using hsame k t' (by rw [Table.find?, if_neg hne, hk])
      simp [sameFields, hhead, hfields]

theorem same_record_iff {fs gs : Table String Ty} (hfs : Table.Sorted fs) (hgs : Table.Sorted gs) :
    (record fs).same (record gs) = true ↔ fs.length = gs.length ∧
      ∀ l t, Table.find? l fs = some t → ∃ u, Table.find? l gs = some u ∧ t.same u = true := by
  have hsame : (record fs).same (record gs) = sameFields fs gs := rfl
  rw [hsame]
  constructor
  · intro h
    have hlabels := congrArg List.length ((sameFields_iff_shape fs gs).mp h).1
    rw [List.length_map, List.length_map] at hlabels
    exact ⟨hlabels, fun l t ht => exists_field_of_sameFields h ht⟩
  · rintro ⟨hlength, hfields⟩
    have hnodup : (fs.map Prod.fst).Nodup := hfs.imp ne_of_lt
    have hsubset : fs.map Prod.fst ⊆ gs.map Prod.fst := by
      intro l hl
      obtain ⟨e, he, rfl⟩ := List.mem_map.mp hl
      obtain ⟨u, hu, -⟩ := hfields e.1 e.2 (Table.find?_of_mem hfs he)
      exact List.mem_map.mpr ⟨(e.1, u), Table.mem_of_find? hu, rfl⟩
    have hperm : (fs.map Prod.fst).Perm (gs.map Prod.fst) :=
      (List.subperm_of_subset hnodup hsubset).perm_of_length_le (by simp [hlength])
    exact sameFields_of_labels hnodup (hperm.eq_of_pairwise' hfs hgs) hfields

/-- Equality up to synonyms is a congruence. It is an equivalence, it does not change as synonyms
are put around parts of a type or taken off, and on records it compares the types under each label.
Equal types stay equal as types are put in place of parameters, parameters in place of variables,
values in place of sizes and, under any substitution, types in place of variables. -/
theorem same_congruence :
    Equivalence (fun a b : Ty => a.same b = true) ∧
    (∀ a a' b b' : Ty, a.Rewrapped a' → b.Rewrapped b' → a.same b = a'.same b') ∧
    (∀ fs gs : Table String Ty, Table.Sorted fs → Table.Sorted gs →
      ((record fs).same (record gs) = true ↔ fs.length = gs.length ∧
        ∀ l t, Table.find? l fs = some t → ∃ u, Table.find? l gs = some u ∧ t.same u = true)) ∧
    ∀ a b : Ty, a.same b = true →
      (∀ m : Table Int Ty, (a.instantiate m).same (b.instantiate m) = true) ∧
      (∀ m : Table Int Param, (a.quantify m).same (b.quantify m) = true) ∧
      a.normalize.same b.normalize = true ∧
      ∀ s : Subst, (s.apply a).same (s.apply b) = true := by
  refine ⟨same_equivalence, fun _ _ _ _ => same_eq_of_rewrapped, fun _ _ => same_record_iff,
    fun a b h => ?_⟩
  have hshape := (same_iff_shape a b).mp h
  refine ⟨fun m => ?_, fun m => ?_, ?_, fun s => ?_⟩ <;> rw [same_iff_shape]
  · rw [shape_instantiate, shape_instantiate, hshape]
  · rw [shape_quantify, shape_quantify, hshape]
  · exact Simplify.normalize_congr hshape
  · rw [Subst.shape_apply, Subst.shape_apply, hshape]

/-- `T ?1`, which stands for `[2 + n]?1`. -/
def paddedSynonym : Ty :=
  .synonym { id := 9, ident := "T" } [.free { id := 1, kind := .type }]
    (seq (op .add [num 2, .bound { id := 2, kind := .num }]) (.free { id := 1, kind := .type }))

/-- `{x : T ?1}` -/
def paddedField : Ty := record [("x", paddedSynonym)]

/-- `{x : [2 + n]?1}` -/
def spelledField : Ty := record [("x", paddedSynonym.expand)]

/-- The two records are equal, and so are their fields. They stay equal for `n = 2`, for a parameter
in place of `?1`, as sizes are evaluated, and for bits in place of `?1`. -/
theorem same_congruence_paddedField :
    paddedField.same spelledField = true ∧ paddedSynonym.same paddedSynonym.expand = true ∧
    (paddedField.instantiate [(2, num 2)]).same (spelledField.instantiate [(2, num 2)]) = true ∧
    (paddedField.quantify [(1, { id := 3, kind := .type })]).same
      (spelledField.quantify [(1, { id := 3, kind := .type })]) = true ∧
    paddedField.normalize.same spelledField.normalize = true ∧
    (Subst.apply { bindings := [({ id := 1, kind := .type }, bit)] } paddedField).same
      (Subst.apply { bindings := [({ id := 1, kind := .type }, bit)] } spelledField) = true := by
  obtain ⟨hequiv, hrewrap, hrecord, hkept⟩ := same_congruence
  have hwraps : Wraps paddedSynonym.expand paddedSynonym := .here ..
  have hwrapped : spelledField.Rewrapped paddedField := .rel _ _ (@Wraps.record [] [] _ _ _ hwraps)
  have hsame : paddedField.same spelledField = true :=
    (hrewrap _ _ _ _ hwrapped (.refl _)).symm.trans (hequiv.refl spelledField)
  have hsorted (t : Ty) : Table.Sorted [("x", t)] := List.pairwise_singleton ..
  obtain ⟨-, hfields⟩ := (hrecord _ _ (hsorted _) (hsorted _)).mp hsame
  obtain ⟨u, hu, hfield⟩ := hfields "x" paddedSynonym rfl
  obtain rfl : paddedSynonym.expand = u := by simpa [Table.find?] using hu
  obtain ⟨hinst, hquantify, hnormal, happly⟩ := hkept _ _ hsame
  exact ⟨hsame, hfield, hinst _, hquantify _, hnormal, happly _⟩

end SizedTypes.Ty
