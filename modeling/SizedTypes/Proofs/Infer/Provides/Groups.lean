import SizedTypes.Proofs.Infer.Provides.Scopes
import SizedTypes.Proofs.Infer.Uses.Groups

/-!
# Groups find their names

The bindings of a recursive group are visible while the group is checked. Once it is complete each
of them has a definition, and these definitions are declared.
-/

set_option autoImplicit false

namespace SizedTypes.Infer

open Surface (Bind Visible bindIds)
open SizedTypes.Core (Decl)

variable {c : Context} {s s₁ s' : State} {v w : Visible} {plan plan' : Plan} {binds bs : List Bind}

/-! ## Plans -/

/-- The values that a group declares for its recursive uses. -/
def recursiveIds (recursive : Bool) (bs : List Bind) : List Int :=
  if recursive then bindIds bs else []

theorem recursiveIds_cons (recursive : Bool) (b : Bind) (bs : List Bind) :
    recursiveIds recursive (b :: bs) = recursiveIds recursive [b] ++ recursiveIds recursive bs := by
  cases recursive <;> rfl

theorem resolves_planDeclare (recursive : Bool) (b : Bind) (t : VarType) :
    Resolves v (plan.declare recursive b.name t) (v.withValues (recursiveIds recursive [b])) := by
  cases recursive with
  | false => exact (Visible.withValues_nil v).symm ▸ .pure _
  | true => exact (resolves_declare b.name t).bind fun _ => .pure _

theorem resolves_planAdd (recursive : Bool) {b : Bind} (h : b.signatureInScope v = true) :
    Resolves v (plan.add recursive b) (v.withValues (recursiveIds recursive [b])) := by
  refine .withRange ?_
  unfold Bind.signatureInScope at h
  split
  · rename_i sig hsig
    rw [hsig] at h
    exact (resolves_checkSignature h).bind fun _ => resolves_planDeclare ..
  · dsimp only
    split
    · exact .throw_bind rfl
    · exact (resolves_freshVar ..).bind fun _ =>
        .ite (resolves_planDeclare ..) (resolves_planDeclare ..)

theorem resolves_planAll (recursive : Bool) (h : ∀ b ∈ bs, b.signatureInScope v = true) :
    Resolves v (bs.foldlM (fun plan b => plan.add recursive b) plan)
      (v.withValues (recursiveIds recursive bs)) := by
  induction bs generalizing v plan with
  | nil =>
    have hnil : recursiveIds recursive [] = [] := by cases recursive <;> rfl
    rw [hnil, Visible.withValues_nil]
    exact .pure _
  | cons b bs ih =>
    obtain ⟨hb, hbs⟩ := List.forall_mem_cons.mp h
    rw [List.foldlM_cons, recursiveIds_cons, ← Visible.withValues_withValues]
    have hle : v.Le [] (v.withValues (recursiveIds recursive [b])) := Visible.le_withValues v _
    exact (resolves_planAdd recursive hb).bind fun _ => ih fun b' hb' =>
      Bind.signatureInScope_of_le hle (hbs b' hb')

theorem resolves_planGroup (top recursive : Bool) (h : ∀ b ∈ binds, b.signatureInScope v = true) :
    Resolves v (planGroup top recursive binds) (v.withValues (recursiveIds recursive binds)) :=
  .read_bind fun _ => (resolves_trace _).bind fun _ => resolves_planAll recursive h

/-- What a plan says about the bindings `bs`. -/
structure Plan.Describes (plan : Plan) (bs : List Bind) : Prop where
  /-- Each signature is that of a binding with this name. -/
  signed : ∀ id sc, plan.signatures.find? id = some sc →
    ∃ b ∈ bs, b.name.id = id ∧ b.signature.isSome ∧ NamedAs b.paramIds sc.params
  signatures : ∀ b ∈ bs, b.signature.isSome → (plan.signatures.find? b.name.id).isSome
  general : ∀ b ∈ bs, plan.generalizes b = true → plan.general ≠ []

theorem returns_planDeclare {recursive : Bool} {n : Name} {t : VarType}
    (h : Returns (plan.declare recursive n t) c s plan' s') :
    ∃ declared, plan' = { plan with declared } := by
  unfold Plan.declare at h
  split at h
  · obtain ⟨⟨⟩, s₁, -, h⟩ := returns_bind.mp h
    exact ⟨_, (returns_pure.mp h).1⟩
  · exact ⟨_, (returns_pure.mp h).1⟩

namespace Plan.Describes

variable {b : Bind}

theorem nil (mono : Bool) : Plan.Describes { mono } [] where
  signed _ _ hfind := by cases hfind
  signatures := List.forall_mem_nil _
  general := List.forall_mem_nil _

theorem addSigned (h : plan.Describes bs) {sc : Schema} (hsig : b.signature.isSome)
    (hnamed : NamedAs b.paramIds sc.params) (declared : Nat) :
    Plan.Describes { plan with signatures := plan.signatures.insert b.name.id sc, declared }
      (bs ++ [b]) where
  signed id sc' hfind := by
    rw [Table.find?_insert] at hfind
    split at hfind
    · rename_i hid
      obtain rfl := Option.some.inj hfind
      exact ⟨b, List.mem_append_right _ (List.mem_singleton_self b), hid.symm, hsig, hnamed⟩
    · obtain ⟨b', hb', hrest⟩ := h.signed id sc' hfind
      exact ⟨b', List.mem_append_left _ hb', hrest⟩
  signatures := List.forall_mem_append.mpr ⟨fun b' hb' hsome =>
    isSome_insert (Or.inr (h.signatures b' hb' hsome)),
    List.forall_mem_singleton.mpr fun _ => isSome_insert (Or.inl rfl)⟩
  general := List.forall_mem_append.mpr ⟨fun b' hb' hgen => h.general b' hb' hgen,
    List.forall_mem_singleton.mpr fun hgen => by
      simp [Plan.generalizes, Option.isNone_eq_false_iff.mpr hsig] at hgen⟩

theorem addUnsigned (h : plan.Describes bs) (hsig : b.signature = none) (monos : Table Int Ty)
    {general : Table Int (Int × Ty)} (declared : Nat) (hkept : plan.general ≠ [] → general ≠ [])
    (hadded : plan.mono = false → general ≠ []) :
    Plan.Describes { plan with monos, general, declared } (bs ++ [b]) where
  signed id sc hfind := by
    obtain ⟨b', hb', hrest⟩ := h.signed id sc hfind
    exact ⟨b', List.mem_append_left _ hb', hrest⟩
  signatures := List.forall_mem_append.mpr ⟨h.signatures,
    List.forall_mem_singleton.mpr fun hsome => by
      rw [hsig] at hsome
      cases hsome⟩
  general := List.forall_mem_append.mpr ⟨fun b' hb' hgen => hkept (h.general b' hb' hgen),
    List.forall_mem_singleton.mpr fun hgen => hadded (by simpa [Plan.generalizes, hsig] using hgen)⟩

/-- A plan describes one more binding. -/
theorem add (h : plan.Describes bs) {recursive : Bool}
    (ha : Returns (plan.add recursive b) c s plan' s') : plan'.Describes (bs ++ [b]) := by
  unfold Plan.add at ha
  replace ha := returns_withReader.mp ha
  split at ha
  · rename_i sig hsig
    obtain ⟨sc, s₁, hsc, ha⟩ := returns_bind.mp ha
    obtain ⟨declared, rfl⟩ := returns_planDeclare ha
    have hnamed : NamedAs b.paramIds sc.params := by
      rw [Bind.paramIds, hsig]
      exact namedAs_checkSignature hsc
    exact h.addSigned (by rw [hsig]; rfl) hnamed declared
  · rename_i hsig
    dsimp only at ha
    split at ha
    · obtain ⟨_, _, ha, -⟩ := returns_bind.mp ha
      exact absurd ha not_returns_throw
    · obtain ⟨t, s₁, -, ha⟩ := returns_bind.mp ha
      split at ha
      · rename_i hmono
        obtain ⟨declared, rfl⟩ := returns_planDeclare ha
        exact h.addUnsigned hsig _ declared id fun hnot => by simp [hmono] at hnot
      · obtain ⟨declared, rfl⟩ := returns_planDeclare ha
        have hinsert : plan.general.insert b.name.id (t.id, Ty.free t) ≠ [] := by
          intro hnil
          have hfind := Table.find?_insert_self b.name.id (t.id, Ty.free t) plan.general
          rw [hnil] at hfind
          cases hfind
        exact h.addUnsigned hsig _ declared (fun _ => hinsert) fun _ => hinsert

end Plan.Describes

theorem describes_planAll {before : List Bind} {recursive : Bool} (h : plan.Describes before)
    (ha : Returns (bs.foldlM (fun plan b => plan.add recursive b) plan) c s plan' s') :
    plan'.Describes (before ++ bs) := by
  induction bs generalizing plan before s with
  | nil =>
    rw [List.foldlM_nil, returns_pure] at ha
    rw [List.append_nil, ha.1]
    exact h
  | cons b bs ih =>
    rw [List.foldlM_cons, returns_bind] at ha
    obtain ⟨plan₁, s₁, hb, ha⟩ := ha
    rw [← List.singleton_append, ← List.append_assoc]
    exact ih (h.add hb) ha

theorem describes_planGroup {top recursive : Bool}
    (h : Returns (planGroup top recursive binds) c s plan s') : plan.Describes binds := by
  unfold planGroup at h
  rw [returns_read_bind] at h
  dsimp only at h
  obtain ⟨⟨⟩, s₁, -, h⟩ := returns_bind.mp h
  exact describes_planAll (.nil _) h

/-! ## The definitions of a group -/

theorem name_checkMono {b : Bind} {t : Ty} {body : Checker} {d : Decl}
    (h : Returns (checkMono b t body) c s d s') : d.name = b.name := by
  obtain ⟨e, s₁, -, h⟩ := returns_bind.mp (returns_withReader.mp h)
  rw [(returns_pure.mp h).1]
  rfl

theorem name_checkSigned {b : Bind} {sc : Schema} {body : Checker} {d : Decl}
    (h : Returns (checkSigned b sc body) c s d s') : d.name = b.name := by
  unfold checkSigned at h
  replace h := returns_withReader.mp h
  split at h
  · rw [(returns_pure.mp h).1]
    rfl
  · obtain ⟨e, s₁, -, h⟩ := returns_bind.mp h
    rw [(returns_pure.mp h).1]
    rfl

theorem name_checkSingle {b : Bind} {body : Checker} {d : Decl}
    (h : Returns (checkSingle b body) c s d s') : d.name = b.name := by
  unfold checkSingle at h
  split at h
  · obtain ⟨sc, s₁, -, h⟩ := returns_bind.mp h
    exact name_checkSigned h
  · obtain ⟨t, s₁, -, h⟩ := returns_bind.mp h
    exact name_checkMono h

theorem names_checkGeneral {ds : List Decl} (h : Returns (checkGeneral plan bs) c s ds s') :
    ds.map Decl.name = (bs.filter plan.generalizes).map Bind.name := by
  induction bs generalizing ds s s' with
  | nil =>
    rw [checkGeneral, returns_pure] at h
    rw [h.1]
    rfl
  | cons b bs ih =>
    rw [checkGeneral] at h
    split at h
    · rename_i hgen
      obtain ⟨d, s₁, hd, h⟩ := returns_bind.mp h
      obtain ⟨rest, s₂, hrest, h⟩ := returns_bind.mp h
      rw [(returns_pure.mp h).1, List.filter_cons_of_pos hgen, List.map_cons, List.map_cons,
        name_checkMono hd, ih hrest]
    · rename_i hgen
      rw [List.filter_cons_of_neg hgen, ih h]

theorem names_checkOthers {ds : List Decl} (h : Returns (checkOthers plan bs) c s ds s') :
    ds.map Decl.name = (bs.filter fun b => !plan.generalizes b).map Bind.name := by
  induction bs generalizing ds s s' with
  | nil =>
    rw [checkOthers, returns_pure] at h
    rw [h.1]
    rfl
  | cons b bs ih =>
    rw [checkOthers] at h
    split at h
    · rename_i hgen
      rw [List.filter_cons_of_neg (by simp [hgen]), ih h]
    · rename_i hgen
      rw [List.filter_cons_of_pos (by simp [hgen])]
      split at h
      · obtain ⟨d, s₁, hd, h⟩ := returns_bind.mp h
        obtain ⟨rest, s₂, hrest, h⟩ := returns_bind.mp h
        rw [(returns_pure.mp h).1, List.map_cons, List.map_cons, name_checkSigned hd, ih hrest]
      · obtain ⟨d, s₁, hd, h⟩ := returns_bind.mp h
        obtain ⟨rest, s₂, hrest, h⟩ := returns_bind.mp h
        rw [(returns_pure.mp h).1, List.map_cons, List.map_cons, name_checkMono hd, ih hrest]

theorem names_generalizeGroup {general : Infer (List Decl)} {names : List Name} {gs : List Decl}
    (hgeneral : ∀ {c s ds s'}, Returns general c s ds s' → ds.map Decl.name = names)
    (h : Returns (generalizeGroup plan general) c s gs s') :
    plan.general = [] ∨ gs.map Decl.name = names := by
  unfold generalizeGroup at h
  split at h
  · rename_i hnil
    exact Or.inl (List.isEmpty_iff.mp hnil)
  · simp only [collectGoals, returns_bind, returns_get, returns_modify, returns_pure] at h
    obtain ⟨⟨ds, goals⟩, s₁, hcollect, h⟩ := h
    obtain ⟨g, hrun, rfl, -⟩ := returns_generalize h
    obtain ⟨_, _, -, -, _, -, ds', _, ⟨ds'', _, hds, -, -, -, rfl, -⟩, _, _, -, -, _, -, heq, -⟩ :=
      hcollect
    rw [hrun.names_result]
    obtain rfl := (Prod.mk.inj heq).1
    exact Or.inr (hgeneral hds)

/-- Each binding has a definition among those of its group. -/
theorem mem_names_inOrder {ds : List Decl} (h : ∀ b ∈ binds, b.name ∈ ds.map Decl.name) :
    bindIds binds ⊆ (inOrder binds ds).map fun d => d.name.id := by
  intro id hid
  obtain ⟨b, hb, rfl⟩ := List.mem_map.mp hid
  obtain ⟨d, hd, hname⟩ := List.mem_map.mp (h b hb)
  have hkey : b.name.id ∈ (ds.map fun d => (d.name.id, d)).map Prod.fst := by
    rw [List.map_map]
    exact List.mem_map.mpr ⟨d, hd, congrArg Name.id hname⟩
  obtain ⟨d', hfind, hmem⟩ := Table.exists_find?_ofList hkey
  obtain ⟨d'', -, heq⟩ := List.mem_map.mp hmem
  obtain ⟨hid, rfl⟩ := Prod.mk.inj heq
  exact List.mem_map.mpr ⟨d'', List.mem_filterMap.mpr ⟨b, hb, hfind⟩, hid⟩

theorem names_checkGroup {recursive : Bool} {out : List Decl} (hplan : plan.Describes binds)
    (h : Returns (checkGroup plan recursive binds (checkGeneral plan binds)
      (checkOthers plan binds)) c s out s') : bindIds binds ⊆ out.map fun d => d.name.id := by
  have hall : ∀ {gs os : List Decl}, (plan.general = [] ∨
      gs.map Decl.name = (binds.filter plan.generalizes).map Bind.name) →
      os.map Decl.name = (binds.filter fun b => !plan.generalizes b).map Bind.name →
      ∀ b ∈ binds, b.name ∈ gs.map Decl.name ++ os.map Decl.name := by
    intro gs os hgs hos b hb
    rw [List.mem_append]
    cases hgen : plan.generalizes b with
    | true =>
      rw [hgs.resolve_left (hplan.general b hb hgen)]
      exact Or.inl (List.mem_map_of_mem (List.mem_filter.mpr ⟨hb, hgen⟩))
    | false =>
      rw [hos]
      exact Or.inr (List.mem_map_of_mem (List.mem_filter.mpr ⟨hb, by rw [hgen]; rfl⟩))
  obtain ⟨-, gs, s₁, os, s₂, hgs, hos, -, rfl⟩ | ⟨-, os, s₁, gs, s₂, hos, hgs, -, rfl⟩ :=
    returns_checkGroup h
  all_goals
    have hdefined := hall (names_generalizeGroup names_checkGeneral hgs) (names_checkOthers hos)
    refine mem_names_inOrder fun b hb => ?_
    have hb := hdefined b hb
    rw [List.mem_append] at hb
    rw [List.map_append, List.mem_append]
  · exact hb
  · exact hb.symm

/-! ## Groups -/

theorem resolves_generalizeGroup {general : Infer (List Decl)} (h : Resolves v general v) :
    Resolves v (generalizeGroup plan general) v := by
  refine .ite (.pure _) ((resolves_collectGoals ?_).bind fun _ => resolves_generalize ..)
  exact h.bind fun _ => (resolves_simplifyStore _).bind fun _ => .pure _

theorem resolves_checkGroup {recursive : Bool} {general others : Infer (List Decl)}
    (hgeneral : Resolves v general v) (hothers : Resolves v others v) :
    Resolves v (checkGroup plan recursive binds general others) v.outer := by
  have hfinish : ∀ (n : Nat) (ds : List Decl), Resolves v (do
      unstash n
      simplifyStore true
      let done : Table Int Decl := Table.ofList (ds.map fun d => (d.name.id, d))
      return binds.filterMap fun b => done.find? b.name.id) v.outer := fun n ds =>
    (resolves_unstash n).bind fun _ => (resolves_simplifyStore _).bind fun _ => .pure _
  have hgroup : Resolves v (generalizeGroup plan general) v := resolves_generalizeGroup hgeneral
  refine .ite ?_ ?_
  · exact hgroup.bind fun gs => ((resolves_declareEach gs Decl.name fun d =>
      .known d.schema).weaken Provides.of_withValues).bind fun _ => hothers.bind fun os => hfinish ..
  · exact hothers.bind fun os => hgroup.bind fun gs => hfinish ..

section Whole

variable {top recursive : Bool} (hsigs : ∀ b ∈ binds, b.signatureInScope v = true)
  (hgeneral : ∀ plan, plan.Describes binds →
    Resolves (v.withValues (recursiveIds recursive binds)) (checkGeneral plan binds)
      (v.withValues (recursiveIds recursive binds)))
  (hothers : ∀ plan, plan.Describes binds →
    Resolves (v.withValues (recursiveIds recursive binds)) (checkOthers plan binds)
      (v.withValues (recursiveIds recursive binds)))
include hsigs hgeneral hothers

/-- A group, from its plan to its definitions. What it declares for its recursive uses is taken
back. -/
theorem resolves_planned : Resolves v (do
      let plan ← planGroup top recursive binds
      checkGroup plan recursive binds (checkGeneral plan binds) (checkOthers plan binds)) v := by
  refine Resolves.restored (w := v.outer) ?_ ⟨fun h hs => ?_⟩ (List.Subset.refl _)
  · refine (resolves_planGroup top recursive hsigs).andThen fun _ hplan => ?_
    have hplan := describes_planGroup hplan
    exact resolves_checkGroup (hgeneral _ hplan) (hothers _ hplan)
  · obtain ⟨plan, s₁, hplan, hgroup⟩ := returns_bind.mp h
    obtain ⟨vs, hlen, hdeclared, hscopes⟩ := declared_planGroup hplan
    exact frame_checkGroup hdeclared hscopes hlen hs (scoped_checkGeneral binds plan)
      (scoped_checkOthers binds plan) hgroup

/-- After a group all its bindings are visible. -/
theorem resolves_group :
    Resolves v (checkDecl top (.group recursive binds)) (v.withValues (bindIds binds)) := by
  rw [checkDecl, ← bind_assoc]
  refine (resolves_planned hsigs hgeneral hothers).andThen fun _ h => ?_
  obtain ⟨plan, s₁, hplan, hgroup⟩ := returns_bind.mp h
  have hnames := names_checkGroup (describes_planGroup hplan) hgroup
  refine ((resolves_declareEach _ Decl.name fun d => .known d.schema).weaken fun hs => ?_).bind
    fun _ => (resolves_addGroup _).bind fun _ => .pure _
  exact hs.anti rfl rfl (List.append_subset.mpr ⟨List.subset_append_left ..,
    List.Subset.trans hnames (List.subset_append_right ..)⟩) (List.Subset.refl _)
    (List.Subset.refl _) (List.Subset.refl _)

end Whole

end SizedTypes.Infer
