import SizedTypes.Proofs.Infer.Ledger.Checks

/-!
# Groups and declarations wait for allocated goals

Generalization puts recursive uses in place, which wait for nothing; so a group waits for the goals
that its bodies wait for, and what is added to a scope for goals that have been allocated.
-/

set_option autoImplicit false

namespace SizedTypes.Infer

open Surface (Bind TypeExpr TypeParam)
open SizedTypes.Core (Decl Group Term awaited partsDecls partsGroups partsMatches)

variable {known : List Int}

/-! ## Plans -/

theorem conserved_planDeclare (plan : Plan) (recursive : Bool) (n : Name) (v : VarType) :
    Respects Conserved (plan.declare recursive n v) :=
  .ite ((conserved_declare ..).bind fun _ => .pure _) (.pure _)

theorem conserved_planAdd (plan : Plan) (recursive : Bool) (b : Bind) :
    Respects Conserved (plan.add recursive b) := by
  refine .withRange ?_
  split
  · exact (respects_checkSignature _).bind fun _ => conserved_planDeclare ..
  · refine .ite .throw_bind ((respects_freshVar ..).bind fun v => .ite ?_ ?_)
    · exact conserved_planDeclare ..
    · exact conserved_planDeclare ..

theorem conserved_planGroup (top recursive : Bool) (binds : List Bind) :
    Respects Conserved (planGroup top recursive binds) := by
  have hall : ∀ plan : Plan, Respects Conserved
      (binds.foldlM (fun plan b => plan.add recursive b) plan) := by
    induction binds with
    | nil => exact fun _ => .pure _
    | cons b bs ih =>
      intro plan
      rw [List.foldlM_cons]
      exact (conserved_planAdd ..).bind ih
  exact Respects.read.bind fun _ => (respects_trace _).bind fun _ => hall _

/-! ## Generalization -/

theorem awaited_recursiveUse {group : List (Int × Int)} {closing : Int → Option Closing}
    {close : Ty → Ty} (n : Name) (token : Int) (e : Term)
    (h : recursiveUse group closing close n token = some e) : awaited e.parts = [] := by
  unfold recursiveUse at h
  split at h
  · obtain ⟨callee, -, rfl⟩ := Option.map_eq_some_iff.mp h
    rw [Term.awaited_instantiated]
    rfl
  · cases h

theorem awaited_closeDecl (θ : Subst) (group : List (Int × Int)) (closing : Int → Option Closing)
    (cl : Closing) (body : Ty) (d : Decl) :
    awaited (closeDecl θ group closing cl body d).parts = awaited d.parts := by
  obtain ⟨n, sc, _ | e, prim, range⟩ := d
  · simp [closeDecl, Decl.parts, Decl.body]
  · simp [closeDecl, Decl.parts, Decl.body, Term.awaited_generalized,
      Term.awaited_substitute awaited_recursiveUse]

theorem awaited_result (g : Generalization) (ds : List Decl) (group : List (Int × Int)) :
    awaited (partsDecls (g.result ds group)) ⊆ awaited (partsDecls ds) := by
  intro id hid
  simp only [Core.awaited_partsDecls, Generalization.result, List.flatMap_map,
    List.mem_flatMap] at hid ⊢
  obtain ⟨e, he, hid⟩ := hid
  rw [awaited_closeDecl] at hid
  exact ⟨e.2, (List.of_mem_zip he).2, hid⟩

theorem awaits_generalize {ds : List Decl} (goals : List Goal) (group : List (Int × Int))
    (hds : awaited (partsDecls ds) ⊆ known) :
    Awaits known (fun out => awaited (partsDecls out)) (generalize ds goals group) where
  step h := by
    obtain ⟨g, -, rfl, -⟩ := returns_generalize h
    have hc : Conserved _ _ := (respects_generalize ..).step h
    exact ⟨hc.counted, fun hs => (hs.conserved hc).mono (List.Subset.trans (awaited_result ..) hds)⟩

/-! ## Groups -/

theorem awaits_generalizeGroup (plan : Plan) {general : Infer (List Decl)}
    (h : ∀ known, Awaits known (fun ds => awaited (partsDecls ds)) general) :
    Awaits known (fun ds => awaited (partsDecls ds)) (generalizeGroup plan general) := by
  have hchecked : Awaits known (fun ds => awaited (partsDecls ds)) (do
      let ds ← general
      simplifyStore false
      return ds) :=
    (h known).bind fun ds => (respects_simplifyStore _).bind_awaits fun _ =>
      .pure (List.subset_append_right ..)
  exact .ite (.pure (List.nil_subset known)) ((awaits_collectGoals hchecked).bind fun r =>
    awaits_generalize _ _ (List.subset_append_right ..))

theorem awaited_inOrder (binds : List Bind) (ds : List Decl) :
    awaited (partsDecls (inOrder binds ds)) ⊆ awaited (partsDecls ds) := by
  intro id hid
  rw [Core.awaited_partsDecls, List.mem_flatMap] at hid ⊢
  obtain ⟨d, hd, hid⟩ := hid
  exact ⟨d, mem_of_mem_inOrder hd, hid⟩

theorem awaits_checkGroup (plan : Plan) (recursive : Bool) (binds : List Bind)
    {general others : Infer (List Decl)}
    (hgeneral : ∀ known, Awaits known (fun ds => awaited (partsDecls ds)) general)
    (hothers : ∀ known, Awaits known (fun ds => awaited (partsDecls ds)) others) :
    Awaits known (fun ds => awaited (partsDecls ds))
      (checkGroup plan recursive binds general others) := by
  have hfinish : ∀ (declared : Nat) {ds : List Decl} {known : List Int},
      awaited (partsDecls ds) ⊆ known → Awaits known (fun ds => awaited (partsDecls ds)) (do
        unstash declared
        simplifyStore true
        return inOrder binds ds) := fun _ _ _ hds =>
    (conserved_unstash _).bind_awaits fun _ => (respects_simplifyStore _).bind_awaits fun _ =>
      .pure (List.Subset.trans (awaited_inOrder ..) hds)
  have hboth : ∀ ds ds' : List Decl, awaited (partsDecls (ds ++ ds')) =
      awaited (partsDecls ds) ++ awaited (partsDecls ds') := fun ds ds' => by
    simp only [Core.awaited_partsDecls, List.flatMap_append]
  refine .ite ?_ ?_
  · refine (awaits_generalizeGroup plan hgeneral).bind fun gs =>
      (Respects.forM fun _ _ => conserved_declare ..).bind_awaits fun _ =>
      (hothers _).bind fun os => hfinish _ ?_
    rw [hboth]
    grind
  · refine (hothers _).bind fun os => (awaits_generalizeGroup plan hgeneral).bind fun gs =>
      hfinish _ ?_
    rw [hboth]
    grind

/-! ## Comprehensions -/

/-- The selector goals that the qualifiers of an arm wait for. -/
def Arm.awaited (arm : Arm) : List Int := Core.awaited (partsMatches arm.quals)

theorem awaited_partsMatches_append (ms ms' : List Core.Match) :
    awaited (partsMatches (ms ++ ms')) =
      awaited (partsMatches ms) ++ awaited (partsMatches ms') := by
  induction ms with
  | nil => rfl
  | cons m ms ih => cases m <;> simp [partsMatches, ih]

theorem awaited_partsMatches_define (ds : List Decl) :
    awaited (partsMatches (ds.map .define)) = awaited (partsDecls ds) := by
  induction ds with
  | nil => rfl
  | cons d ds ih => simp [partsMatches, partsDecls, ih]

theorem awaits_draw {arm : Arm} {e : Term} {m : Matched} (n elem : Ty)
    (harm : arm.awaited ⊆ known) (he : awaited e.parts ⊆ known)
    (hm : awaited (partsDecls m.decls) ⊆ known) :
    Awaits known Arm.awaited (arm.draw n elem e m) := by
  refine (conserved_declareMonos _).bind_awaits fun _ => .pure ?_
  rw [Arm.awaited, awaited_partsMatches_append, partsMatches]
  simp only [Core.awaited_cons, Core.goal?_type, Core.awaited_append, awaited_partsMatches_define]
  unfold Arm.awaited at harm
  grind

theorem awaits_define {arm : Arm} {d : Decl} (harm : arm.awaited ⊆ known)
    (hd : awaited d.parts ⊆ known) : Awaits known Arm.awaited (arm.define d) := by
  refine (conserved_declare ..).bind_awaits fun _ => .pure ?_
  rw [Arm.awaited, awaited_partsMatches_append]
  unfold Arm.awaited at harm
  simp [partsMatches]
  grind

/-! ## Declarations of types and module parameters -/

/-- What is added to the innermost scope is no group. -/
theorem awaits_modifyScope_of_groups {f : Core.Module → Core.Module}
    (hf : ∀ m, (f m).groups = m.groups) : Awaits known (fun _ => []) (modifyScope f) :=
  awaits_modifyScope fun m => by
    rw [hf]
    exact List.subset_append_left ..

theorem awaits_checkSynonym (n : Name) (params : List TypeParam) (body : TypeExpr) (range : Range) :
    Awaits known (fun _ => []) (checkSynonym n params body range) := by
  have hrest : Awaits known (fun _ => []) (do
      let d ← (Kinding.declare params).run { allowWildcards := false }
      let b ← (Kinding.infer body .unknown).run d.2
      let fix := Kinding.settleTy (b.2.settle d.1)
      addSynonym
        { name := n, params := b.2.settle d.1, props := b.2.goals.map fun g => fix g.prop
          body := fix b.1.1 }) :=
    ((Kinding.respects_declare _).run _).bind_awaits fun _ =>
      ((Kinding.respects_infer ..).run _).bind_awaits fun _ =>
      awaits_modifyScope_of_groups fun _ => rfl
  refine (Respects.get.bind_awaits fun s => ?_).withRange
  split
  · exact (respects_recordWarning _).bind_awaits fun _ => hrest
  · exact hrest

theorem awaits_checkNewtype (n : Name) (params : List TypeParam)
    (fields : List (String × TypeExpr)) (conName : Option Name) (range : Range) :
    Awaits known (fun _ => []) (checkNewtype n params fields conName range) := by
  have hadd : ∀ nt, Awaits known (fun _ => []) (addNewtype nt) := fun _ =>
    awaits_modifyScope_of_groups fun _ => rfl
  exact Awaits.withRange <| ((Kinding.respects_declare _).run _).bind_awaits fun _ =>
    ((Kinding.respects_checkFields _).run _).bind_awaits fun _ => (hadd _).bind fun _ =>
    (conserved_declare ..).awaits fun _ => List.nil_subset _

theorem awaits_checkPrimType (n : Name) (kind : Kind) (props : List TypeExpr) (range : Range) :
    Awaits known (fun _ => []) (checkPrimType n kind props range) :=
  Awaits.withRange <| ((Kinding.respects_checkProps _).run _).bind_awaits fun _ =>
    awaits_modifyScope_of_groups fun _ => rfl

theorem awaits_checkParamType (n : Name) (kind : Kind) :
    Awaits known (fun _ => []) (checkParamType n kind) :=
  (respects_freshParam ..).bind_awaits fun _ =>
    Respects.bind_awaits (.modify fun _ => .of_books rfl rfl) fun _ =>
    awaits_modifyScope_of_groups fun _ => rfl

theorem awaits_checkParamProps (props : List TypeExpr) (range : Range) :
    Awaits known (fun _ => []) (checkParamProps props range) := by
  have hadd : ∀ ps, Awaits known (fun _ => []) (addParamProps ps) := fun _ =>
    awaits_modifyScope_of_groups fun _ => rfl
  exact Awaits.withRange <| ((Kinding.respects_checkProps _).run _).bind_awaits fun _ =>
    Respects.bind_awaits (.modify fun _ => .of_books rfl rfl) fun _ => (hadd _).bind fun _ =>
    (respects_simplifyGoals _).bind_awaits fun _ =>
    (respects_modifyGoals _).awaits fun _ => List.nil_subset _

theorem awaits_addGroup {recursive : Bool} {ds : List Decl}
    (hds : awaited (partsDecls ds) ⊆ known) :
    Awaits known (fun _ => []) (addGroup (.mk recursive ds)) :=
  awaits_modifyScope fun m => by
    rw [Core.awaited_partsGroups, List.flatMap_append, ← Core.awaited_partsGroups]
    simpa [Group.decls] using List.Subset.trans hds (List.subset_append_right ..)

end SizedTypes.Infer
