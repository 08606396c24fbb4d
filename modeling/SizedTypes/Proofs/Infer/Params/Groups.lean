import SizedTypes.Proofs.Infer.Generalize
import SizedTypes.Proofs.Infer.Params.Checks

/-!
# The parameters of groups and declared types

A group draws the parameters of its signatures when it is planned, and those of the bindings to
generalize when their bodies have been checked.
-/

set_option autoImplicit false

namespace SizedTypes

open SizedTypes.Core (Decl)

variable {K K' : Set Int}

/-! ## Parameters for variables -/

theorem next_freshParams (vs : List TyVar) (next : Int) :
    (freshParams vs next).2 = Word.next^[(freshParams vs next).1.length] next := by
  induction vs generalizing next with
  | nil => rfl
  | cons v vs ih =>
    rw [freshParams]
    exact ih (Word.next next)

theorem mem_freshParams {vs : List TyVar} {next : Int} {p : Param}
    (h : p ∈ (freshParams vs next).1) : p.id ∈ drawn next (freshParams vs next).1.length := by
  induction vs generalizing next with
  | nil => cases h
  | cons v vs ih =>
    rw [freshParams, List.length_cons, Nat.add_comm, drawn_add]
    rw [freshParams] at h
    rcases List.mem_cons.mp h with rfl | h
    · exact Or.inl (mem_drawn_one next)
    · exact Or.inr (ih h)

namespace Infer

open Surface (Bind)

/-- The definitions that a computation gives have their parameters among those that are around. -/
def DrawsDecls (K : Set Int) (act : Infer (List Decl)) : Prop :=
  ∀ {K' : Set Int}, K ⊆ K' → Draws K' act fun K'' ds => ∀ d ∈ ds, d.schema.ParamsIn K''

/-! ## Plans -/

/-- The types and schemas of a plan have their parameters among `K`. -/
structure Plan.ParamsIn (K : Set Int) (plan : Plan) : Prop where
  signatures : ∀ e ∈ plan.signatures, e.2.ParamsIn K
  monos : ∀ e ∈ plan.monos, e.2.ParamsIn K
  general : ∀ e ∈ plan.general, e.2.2.ParamsIn K

theorem Plan.ParamsIn.mono {plan : Plan} (h : plan.ParamsIn K) (hK : K ⊆ K') :
    plan.ParamsIn K' :=
  ⟨fun e he => (h.signatures e he).mono hK, fun e he => (h.monos e he).mono hK,
    fun e he => (h.general e he).mono hK⟩

theorem Plan.paramsIn_univ (plan : Plan) : plan.ParamsIn Set.univ :=
  ⟨fun e _ => e.2.paramsIn_univ, fun e _ => e.2.paramsIn_univ, fun e _ => e.2.2.paramsIn_univ⟩

theorem draws_planDeclare {plan : Plan} (hplan : plan.ParamsIn K) (recursive : Bool) (n : Name)
    {v : VarType} (hv : v.ParamsIn K) : Draws K (plan.declare recursive n v) Plan.ParamsIn :=
  .ite ((draws_declare n hv).bind fun hK _ _ => .pure { hplan.mono hK with }) (.pure hplan)

theorem draws_planAdd {plan : Plan} (hplan : plan.ParamsIn K) (recursive : Bool) (b : Bind) :
    Draws K (plan.add recursive b) Plan.ParamsIn := by
  refine Draws.withRange ?_
  split
  · refine (draws_checkSignature _).bind fun hK sc hsc => ?_
    have hplan := hplan.mono hK
    refine draws_planDeclare (v := .known sc) ?_ _ _ hsc
    exact { hplan with signatures := Table.forall_mem_insert hsc hplan.signatures }
  · dsimp only
    refine .ite .throw_bind ((draws_freshVar ..).bind fun hK v _ => ?_)
    have hplan := hplan.mono hK
    refine .ite ?_ ?_
    · refine draws_planDeclare (v := .known (.mono (.free v))) ?_ _ _ (VarType.paramsIn_mono .free)
      exact { hplan with monos := Table.forall_mem_insert .free hplan.monos }
    · refine draws_planDeclare (v := .inGroup v.id b.name (.free v)) ?_ _ _ Ty.ParamsIn.free
      have hgeneral := Table.forall_mem_insert (P := fun e : Int × Int × Ty => e.2.2.ParamsIn _)
        (k := b.name.id) (a := (v.id, .free v)) .free hplan.general
      exact { hplan with general := hgeneral }

theorem draws_planAll (recursive : Bool) (binds : List Bind) {plan : Plan}
    (hplan : plan.ParamsIn K) :
    Draws K (binds.foldlM (fun plan b => plan.add recursive b) plan) Plan.ParamsIn := by
  induction binds generalizing K plan with
  | nil => exact .pure hplan
  | cons b bs ih =>
    rw [List.foldlM_cons]
    exact (draws_planAdd hplan recursive b).bind fun _ _ hplan => ih hplan

theorem draws_planGroup (top recursive : Bool) (binds : List Bind) :
    Draws K (planGroup top recursive binds) Plan.ParamsIn :=
  .read_bind fun _ _ => (draws_trace _).bind fun _ _ _ => draws_planAll _ _
    ⟨List.forall_mem_nil _, List.forall_mem_nil _, List.forall_mem_nil _⟩

/-! ## Generalization -/

/-- What a binding abstracts over has its parameters among `K`. -/
structure Closing.ParamsIn (K : Set Int) (cl : Closing) : Prop where
  props : ∀ p ∈ cl.props, p.ParamsIn K
  params : ∀ p ∈ cl.params, p.id ∈ K

theorem Closing.ParamsIn.mono {cl : Closing} (h : cl.ParamsIn K) (hK : K ⊆ K') :
    cl.ParamsIn K' := ⟨fun p hp => (h.props p hp).mono hK, fun p hp => hK (h.params p hp)⟩

/-- Drawing parameters for a binding gives out their ids, and nothing else. -/
theorem drew_draw {c : Context} {s s' : State} {cl cl' : Closing}
    (h : Returns cl.draw c s cl' s') : Drew cl'.params.length s s' ∧
      ∀ p ∈ cl'.params, p.id ∈ drawn s.nextTypeVar cl'.params.length := by
  unfold Closing.draw at h
  simp only [returns_bind, returns_get, returns_set, returns_pure] at h
  obtain ⟨_, _, ⟨rfl, rfl⟩, ⟨⟩, _, rfl, rfl, rfl⟩ := h
  exact ⟨⟨rfl, next_freshParams ..⟩, fun p hp => mem_freshParams hp⟩

theorem draws_draw {cl : Closing} (hcl : ∀ p ∈ cl.props, p.ParamsIn K) :
    Draws K cl.draw fun K' cl' => cl'.ParamsIn K' ∧ ∀ e ∈ cl'.byVar, e.2 ∈ cl'.params where
  step {_ s s' cl'} h _ hs := by
    obtain ⟨hdrew, hparams⟩ := drew_draw h
    obtain ⟨next, draws, rfl⟩ := state_of_draw h
    obtain ⟨⟨last, heq⟩, hcl'⟩ := drawn_of_returns h
    obtain ⟨hps, hby⟩ := Prod.mk.inj heq
    refine ⟨_, hdrew, { hs.mono Set.subset_union_left with }, ⟨fun p hp => ?_,
      fun p hp => Or.inr (hparams p hp)⟩, fun e he => ?_⟩
    · rw [hcl'] at hp
      exact (hcl p hp).mono Set.subset_union_left
    · rw [hby] at he
      rw [hps]
      exact (List.of_mem_zip (Table.mem_ofList he)).2

/-- A binding is closed over parameters that have been drawn for it. -/
theorem paramsIn_closeDecl {cl : Closing} (hcl : cl.ParamsIn K)
    (hby : ∀ e ∈ cl.byVar, e.2 ∈ cl.params) {body : Ty} (hbody : body.ParamsIn K) (s : Subst)
    (group : List (Int × Int)) (closing : Int → Option Closing) (d : Decl) :
    (closeDecl s group closing cl body d).schema.ParamsIn K := by
  have hvars : ∀ e ∈ cl.byVar, e.2.id ∈ K := fun e he => hcl.params _ (hby e he)
  exact ⟨hcl.params, List.forall_mem_map.mpr fun p hp => (hcl.props p hp).quantify hvars,
    hbody.quantify hvars⟩

theorem draws_generalize {ds : List Decl} (hds : ∀ d ∈ ds, d.schema.ParamsIn K)
    {goals : List Goal} (hgoals : GoalsIn K goals) (group : List (Int × Int)) :
    Draws K (generalize ds goals group) fun K' out => ∀ d ∈ out, d.schema.ParamsIn K' := by
  refine draws_solveSelectors.bind fun hK _ _ => .get_bind fun s hs => ?_
  have hbodies : ∀ t ∈ ds.map fun d => s.subst.apply d.schema.body, t.ParamsIn _ :=
    List.forall_mem_map.mpr fun d hd => hs.subst.apply ((hds d hd).body.mono hK)
  have hgoals : GoalsIn _ (goals.map fun g => { g with prop := s.subst.apply g.prop }) :=
    List.forall_mem_map.mpr fun g hg => hs.subst.apply ((hgoals g hg).mono hK)
  dsimp only
  rw [List.partition_eq_filter_filter]
  refine (draws_store fun g hg => hgoals g (List.mem_of_mem_filter hg)).bind fun hK₁ _ _ => ?_
  refine (draws_defaultVars ..).bind fun hK₂ _ _ => ?_
  refine (draws_simplifyGoals fun g hg => (hgoals g (List.mem_of_mem_filter hg)).mono
    (hK₁.trans hK₂)).bind fun hK₃ left hleft => .get_bind fun s' hs' => ?_
  have hbodies : ∀ t ∈ (ds.map fun d => s.subst.apply d.schema.body).map s'.subst.apply,
      t.ParamsIn _ := List.forall_mem_map.mpr fun t ht =>
    hs'.subst.apply ((hbodies t ht).mono ((hK₁.trans hK₂).trans hK₃))
  rw [List.partition_eq_filter_filter]
  refine (draws_store fun g hg => hleft g (List.mem_of_mem_filter hg)).bind fun hK₄ _ _ => ?_
  refine (Draws.mapM (Q := fun K' (cl : Closing) => cl.ParamsIn K' ∧
    ∀ e ∈ cl.byVar, e.2 ∈ cl.params) (fun hK cl h => ⟨h.1.mono hK, h.2⟩) fun hK₅ cl hcl =>
      draws_draw fun p hp => ?_).bind fun hK₅ cls hcls => ?_
  · obtain ⟨b, -, rfl⟩ := List.mem_map.mp hcl
    obtain ⟨g, hg, rfl⟩ := List.mem_map.mp (List.mem_of_mem_filter hp)
    exact (hleft g (List.mem_of_mem_filter hg)).mono (hK₄.trans hK₅)
  refine (Draws.forM (I := fun _ _ => True) (fun _ _ _ => trivial) (fun _ _ => trivial)
    fun _ _ => draws_trace _).bind fun hK₆ _ _ => .pure ?_
  refine List.forall_mem_map.mpr fun e he => ?_
  obtain ⟨hcl, hby⟩ := hcls e.1.1 (List.of_mem_zip (List.of_mem_zip he).1).1
  have hbody := hbodies e.1.2 (List.of_mem_zip (List.of_mem_zip he).1).2
  exact paramsIn_closeDecl (hcl.mono hK₆) hby (hbody.mono ((hK₄.trans hK₅).trans hK₆)) ..

theorem draws_generalizeGroup (plan : Plan) {general : Infer (List Decl)}
    (hgeneral : DrawsDecls K general) : DrawsDecls K (generalizeGroup plan general) := by
  refine fun hK => .ite (.pure (by simp)) ?_
  refine (draws_collectGoals (P := fun K' ds => ∀ d ∈ ds, d.schema.ParamsIn K')
    ((hgeneral hK).bind fun _ ds hds => (draws_simplifyStore false).bind fun hK' _ _ =>
      .pure fun d hd => (hds d hd).mono hK')).bind fun _ r hr => ?_
  exact draws_generalize hr.1 hr.2 _

theorem draws_checkGroup (plan : Plan) (recursive : Bool) (binds : List Bind)
    {general others : Infer (List Decl)} (hgeneral : DrawsDecls K general)
    (hothers : DrawsDecls K others) :
    DrawsDecls K (checkGroup plan recursive binds general others) := by
  have hfinish : ∀ {K' : Set Int} (declared : Nat) {ds : List Decl},
      (∀ d ∈ ds, d.schema.ParamsIn K') → Draws K' (do
        unstash declared
        simplifyStore true
        return inOrder binds ds) fun K'' ds => ∀ d ∈ ds, d.schema.ParamsIn K'' := fun _ _ hds =>
    (draws_unstash _).bind fun hK₁ _ _ => (draws_simplifyStore true).bind fun hK₂ _ _ =>
      .pure fun d hd => (hds d (mem_of_mem_inOrder hd)).mono (hK₁.trans hK₂)
  intro K' hK
  cases recursive with
  | true =>
    refine (draws_generalizeGroup plan hgeneral hK).bind fun hK₁ gs hgs => ?_
    refine (Draws.forM (I := fun K' (d : Decl) => d.schema.ParamsIn K')
      (fun hK _ h => Schema.ParamsIn.mono h hK) hgs
      fun {_ d} _ hd => draws_declare d.name (v := .known d.schema) hd).bind fun hK₂ _ _ => ?_
    refine (hothers (hK.trans (hK₁.trans hK₂))).bind fun hK₃ os hos => hfinish _ ?_
    exact List.forall_mem_append.mpr ⟨fun d hd => (hgs d hd).mono (hK₂.trans hK₃), hos⟩
  | false =>
    refine (hothers hK).bind fun hK₁ os hos => ?_
    refine (draws_generalizeGroup plan hgeneral (hK.trans hK₁)).bind fun hK₂ gs hgs => hfinish _ ?_
    exact List.forall_mem_append.mpr ⟨fun d hd => (hos d hd).mono hK₂, hgs⟩

/-! ## Declared types -/

open Surface (TypeExpr TypeParam)

theorem draws_addSynonym {ts : TypeSynonym} (hts : ts.ParamsIn K) :
    Draws K (addSynonym ts) fun _ _ => True :=
  draws_modifyScope fun _ hm => { hm with synonyms := Table.forall_mem_insert hts hm.synonyms }

theorem draws_addNewtype {nt : Newtype} (hnt : nt.ParamsIn K) :
    Draws K (addNewtype nt) fun _ _ => True :=
  draws_modifyScope fun _ hm => { hm with newtypes := Table.forall_mem_insert hnt hm.newtypes }

theorem draws_addPrimType {pt : PrimType} (hpt : pt.ParamsIn K) :
    Draws K (addPrimType pt) fun _ _ => True :=
  draws_modifyScope fun _ hm => { hm with primTypes := Table.forall_mem_insert hpt hm.primTypes }

theorem draws_addParamType {p : ModuleParam} (hp : p.param.id ∈ K) :
    Draws K (addParamType p) fun _ _ => True :=
  draws_modifyScope fun _ hm => { hm with paramTypes := Table.forall_mem_insert hp hm.paramTypes }

theorem draws_addGroup (recursive : Bool) {ds : List Decl} (hds : ∀ d ∈ ds, d.schema.ParamsIn K) :
    Draws K (addGroup (.mk recursive ds)) fun _ _ => True := by
  refine draws_modifyScope fun m hm => { hm with decls := fun d hd => ?_ }
  rw [Core.Module.decls, List.flatMap_append, List.mem_append] at hd
  exact hd.elim (hm.decls d) fun hd => hds d (by simpa [Core.Group.decls] using hd)

theorem draws_addParamProps (ps : List Ty) : Draws K (addParamProps ps) fun _ _ => True :=
  draws_modifyScope fun _ hm => { hm with }

theorem draws_addParamFun (n : Name) (sc : Schema) :
    Draws K (addParamFun n sc) fun _ _ => True :=
  draws_modifyScope fun _ hm => { hm with }

theorem draws_checkSynonym (n : Name) (params : List TypeParam) (body : TypeExpr) (range : Range) :
    Draws K (checkSynonym n params body range) fun _ _ => True := by
  refine Draws.withRange (.get_bind fun s _ => ?_)
  split
  on_goal 1 => refine (draws_recordWarning _).bind fun _ _ _ => ?_
  all_goals
    refine (Kinding.draws_declare _).run_bind (Kinding.paramsIn_start _) fun _ ps k hk hps => ?_
    refine (Kinding.draws_infer ..).run_bind hk fun hK t k' hk' ht => draws_addSynonym ?_
    have hps := Kinding.mem_settle (k := k') fun p hp => hK (hps p hp)
    exact ⟨hps, List.forall_mem_map.mpr fun g hg => Kinding.paramsIn_settleTy hps (hk'.goals g hg),
      Kinding.paramsIn_settleTy hps ht⟩

theorem draws_checkNewtype (n : Name) (params : List TypeParam) (fields : List (String × TypeExpr))
    (conName : Option Name) (range : Range) :
    Draws K (checkNewtype n params fields conName range) fun _ _ => True := by
  refine Draws.withRange ?_
  refine (Kinding.draws_declare _).run_bind (Kinding.paramsIn_start _) fun _ ps k hk hps => ?_
  refine (Kinding.draws_checkFields _).run_bind hk fun {K'} hK fs k' hk' hfs => ?_
  have hps := Kinding.mem_settle (k := k') fun p hp => hK (hps p hp)
  have hnt : Newtype.ParamsIn K' {
      name := n
      params := k'.settle ps
      props := k'.goals.map fun g => Kinding.settleTy (k'.settle ps) g.prop
      fields := (Table.ofList fs).mapValues (Kinding.settleTy (k'.settle ps))
      conName := (conName.filter fun c => c.ident != "").getD n } := by
    refine ⟨hps, List.forall_mem_map.mpr fun g hg =>
      Kinding.paramsIn_settleTy hps (hk'.goals g hg), List.forall_mem_map.mpr fun f hf => ?_⟩
    exact Kinding.paramsIn_settleTy hps (hfs f (Table.mem_ofList hf))
  exact (draws_addNewtype hnt).bind fun hK _ _ =>
    draws_declare _ (v := .known _) (hnt.conSchema.mono hK)

theorem draws_checkPrimType (n : Name) (kind : Kind) (props : List TypeExpr) (range : Range) :
    Draws K (checkPrimType n kind props range) fun _ _ => True := by
  refine Draws.withRange ?_
  refine (Kinding.draws_checkProps _).run_bind (Kinding.paramsIn_start _) fun _ ps k hk hps => ?_
  exact draws_addPrimType (List.forall_mem_append.mpr ⟨hps, List.forall_mem_map.mpr hk.goals⟩)

theorem draws_checkParamType (n : Name) (kind : Kind) :
    Draws K (checkParamType n kind) fun _ _ => True := by
  refine (draws_freshParam ..).bind fun _ p hp => ?_
  refine .bind (.modify (fun s hs => { hs with
    params := List.forall_mem_append.mpr ⟨hs.params, List.forall_mem_singleton.mpr hp⟩ })
    fun _ => ⟨rfl, rfl⟩) fun hK _ _ => draws_addParamType (hK hp)

theorem draws_checkParamProps (props : List TypeExpr) (range : Range) :
    Draws K (checkParamProps props range) fun _ _ => True := by
  refine Draws.withRange ?_
  refine (Kinding.draws_checkProps _).run_bind (Kinding.paramsIn_start _) fun _ ps k hk hps => ?_
  refine .bind (.modify (fun s hs => { hs with
    assumptions := paramsIn_add hs.assumptions hps }) fun _ => ⟨rfl, rfl⟩) fun hK₁ _ _ => ?_
  refine (draws_addParamProps ps).bind fun hK₂ _ _ => ?_
  refine (draws_simplifyGoals (List.forall_mem_map.mpr fun g hg => ?_)).bind
    fun _ left hleft => draws_store hleft
  exact (hk.goals g hg).mono (hK₁.trans hK₂)

end Infer
end SizedTypes
