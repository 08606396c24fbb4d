import SizedTypes.Proofs.Infer.Frame.Recursion
import SizedTypes.Proofs.Infer.Mirror
import SizedTypes.Proofs.Surface.Cut

/-!
# Checks without cancellation

A check is mirrored by the checks of what is left of the program if some of its local declarations
are cut off: those that the check leaves out once it is cancelled.
-/

set_option autoImplicit false

namespace SizedTypes.Infer

open Surface (Bind CutArms CutBinds CutDecl CutDecls CutEach CutFields CutMatches CutUpdates Expr
  Pattern UpdateHow)
open SizedTypes.Core (Decl Term)

variable {r : Course} {α δ : Type} [Nonempty δ]

/-! ## Checks of parts -/

theorem mirrored_collectGoals {act : Infer α} {act' : δ → Infer α} (h : Mirrored r act act') :
    Mirrored r (collectGoals act) (fun d => collectGoals (act' d)) :=
  .get_bind (fun _ _ _ => rfl) fun _ => (Steady.modify fun _ _ _ => rfl).bind_mirrored fun _ =>
    h.bind_steady fun _ => .get_bind (fun _ _ _ => rfl) fun _ =>
    (Steady.modify fun _ _ _ => rfl).bind fun _ => .pure _

theorem mirrored_withParams {ps : List Param} {asmps : List Ty} {act : Infer α}
    {act' : δ → Infer α} (h : Mirrored r act act') :
    Mirrored r (withParams ps asmps act) (fun d => withParams ps asmps (act' d)) := by
  refine .get_bind (fun _ _ _ => rfl) fun s => (Steady.modify fun _ _ _ => rfl).bind_mirrored
    fun _ => (Steady.forM fun p => steady_nameParam p).bind_mirrored fun _ => .ite ?_ ?_
  · exact (Steady.modify fun _ _ _ => rfl).bind_mirrored fun _ => h.bind_steady fun _ =>
      (Steady.modify fun _ _ _ => rfl).bind fun _ => .pure _
  · exact h.bind_steady fun _ => (Steady.modify fun _ _ _ => rfl).bind fun _ => .pure _

theorem mirrored_withExistentials {act : Infer α} {act' : δ → Infer α} (h : Mirrored r act act') :
    Mirrored r (withExistentials act) (fun d => withExistentials (act' d)) :=
  (Steady.modify fun _ _ _ => rfl).bind_mirrored fun _ => h.bind_steady fun _ =>
    (Steady.modify fun _ _ _ => rfl).bind fun _ => .pure _

section Checkers

variable {body : Checker} {body' : δ → Checker}
  (h : ∀ exp, Mirrored r (body exp) (fun d => body' d exp))
include h

theorem mirrored_checkLambda (ps : List Pattern) (exp : Expected) :
    Mirrored r (checkLambda ps exp body) (fun d => checkLambda ps exp (body' d)) :=
  .ite (h exp) <| (steady_expectArrow ..).bind_mirrored fun _ =>
    (steady_checkParams ..).bind_mirrored fun _ => (h _).bind_steady fun _ =>
    (steady_unstash _).bind fun _ => .pure _

omit [Nonempty δ] in
theorem mirrored_checkMono (b : Bind) (t : Ty) :
    Mirrored r (checkMono b t body) (fun d => checkMono b t (body' d)) :=
  ((h _).bind_steady fun _ => .pure _).withRange

theorem mirrored_checkSigned (b : Bind) (sc : Schema) :
    Mirrored r (checkSigned b sc body) (fun d => checkSigned b sc (body' d)) := by
  refine Mirrored.withRange <| .ite (Steady.pure _).mirrored ?_
  refine (mirrored_withParams ?_).bind_steady fun _ => .pure _
  exact (mirrored_collectGoals (mirrored_thenSimplify (h _))).then_same fun _ =>
    (mirrored_proveSignature (δ := Unit) ..).bind_steady fun _ => .pure _

theorem mirrored_checkSingle (b : Bind) :
    Mirrored r (checkSingle b body) (fun d => checkSingle b (body' d)) := by
  unfold checkSingle
  cases b.signature with
  | some sig =>
    exact (steady_checkSignature sig).bind_mirrored fun sc => mirrored_checkSigned h b sc
  | none => exact (steady_freshType ..).bind_mirrored fun t => mirrored_checkMono h b t

theorem mirrored_checkUpdate (path : List Selector) (how : UpdateHow) (exp : Expected)
    (out : Term) : Mirrored r (checkUpdate path how exp out body)
      (fun d => checkUpdate path how exp out (body' d)) := by
  unfold checkUpdate
  split
  · refine (steady_freshType ..).bind_mirrored fun _ =>
      (steady_newSelectorGoal ..).bind_mirrored fun _ => ?_
    cases how with
    | set => exact (h _).bind_steady fun _ => .pure _
    | modify =>
      exact (h _).bind_steady fun _ => (steady_freshName _).bind fun _ =>
        (steady_monoDecl ..).bind fun _ => .pure _
  · exact (Steady.throw _).mirrored

end Checkers

theorem mirrored_generalizeGroup {general : Infer (List Decl)} {general' : δ → Infer (List Decl)}
    (h : Mirrored r general general') (plan : Plan) :
    Mirrored r (generalizeGroup plan general) (fun d => generalizeGroup plan (general' d)) :=
  .ite (Steady.pure _).mirrored <|
    (mirrored_collectGoals (mirrored_thenSimplify h)).bind_steady fun _ => steady_generalize ..

theorem mirrored_checkGroup {ε : Type} [Nonempty ε] {general others : Infer (List Decl)}
    {general' : δ → Infer (List Decl)} {others' : ε → Infer (List Decl)}
    (hgeneral : Mirrored r general general') (hothers : Mirrored r others others') (plan : Plan)
    (recursive : Bool) (binds : List Bind) :
    Mirrored r (checkGroup plan recursive binds general others)
      (fun d : δ × ε => checkGroup plan recursive binds (general' d.1) (others' d.2)) := by
  have hfinish : ∀ (k : Nat) (ds : List Decl), Mirrored r (do
      unstash k
      simplifyStore true
      return binds.filterMap fun b =>
        (Table.ofList (ds.map fun d => (d.name.id, d))).find? b.name.id) (fun _ : Unit => _) :=
    fun k ds => (steady_unstash k).bind_mirrored fun _ =>
      (mirrored_simplifyStore true).bind_steady fun _ => .pure _
  refine .ite ?_ ?_
  · exact ((mirrored_generalizeGroup hgeneral plan).bind fun gs =>
      (Steady.forM fun _ => steady_declare ..).bind_mirrored fun _ => hothers.then_same fun os =>
        hfinish (plan.declared + gs.length) (gs ++ os)).choose fun d => ⟨d, rfl⟩
  · exact (hothers.bind fun os => (mirrored_generalizeGroup hgeneral plan).then_same fun gs =>
      hfinish plan.declared (os ++ gs)).choose fun d => ⟨d.swap, rfl⟩

/-! ## Bindings whose bodies are cut -/

theorem checkMono_cut {b b' : Bind} (h : b.Cut b') : checkMono b' = checkMono b := by
  cases h <;> rfl

theorem checkSigned_cut {b b' : Bind} (h : b.Cut b') : checkSigned b' = checkSigned b := by
  cases h <;> rfl

theorem checkSingle_cut {b b' : Bind} (h : b.Cut b') : checkSingle b' = checkSingle b := by
  cases h <;> rfl

theorem generalizes_cut {b b' : Bind} (h : b.Cut b') (plan : Plan) :
    plan.generalizes b' = plan.generalizes b := by
  cases h <;> rfl

theorem name_cut {b b' : Bind} (h : b.Cut b') : b'.name = b.name := by
  cases h <;> rfl

theorem planGroup_cut {bs bs' : List Bind} (h : CutBinds bs bs') (top recursive : Bool) :
    planGroup top recursive bs' = planGroup top recursive bs := by
  have hmono : bs'.any Bind.mono = bs.any Bind.mono := by
    have hmap := h.map_eq Bind.mono fun hb => by cases hb <;> rfl
    have hany := congrArg (List.any · id) hmap
    rwa [List.any_map, List.any_map] at hany
  have hnames := h.map_eq (fun b => b.name.text) fun hb => by rw [name_cut hb]
  have hplan : ∀ init : Plan, bs'.foldlM (fun plan b => plan.add recursive b) init =
      bs.foldlM (fun plan b => plan.add recursive b) init := fun init => by
    have hmap := h.map_eq (fun b plan => Plan.add plan recursive b) fun hb => by cases hb <;> rfl
    have hfold := congrArg (List.foldlM (fun plan add => add plan) init) hmap
    rwa [List.foldlM_map, List.foldlM_map] at hfold
  unfold planGroup
  simp only [hmono, hnames, hplan]

theorem checkGroup_cut {bs bs' : List Bind} (h : CutBinds bs bs') (plan : Plan)
    (recursive : Bool) : checkGroup plan recursive bs' = checkGroup plan recursive bs := by
  have hdone : ∀ done : Table Int Decl, bs'.filterMap (fun b => done.find? b.name.id) =
      bs.filterMap (fun b => done.find? b.name.id) := fun done => by
    have hids := h.map_eq (fun b => b.name.id) fun hb => by rw [name_cut hb]
    have hfound := congrArg (List.filterMap fun id => done.find? id) hids
    rwa [List.filterMap_map, List.filterMap_map] at hfound
  funext general others
  unfold checkGroup
  simp only [hdone]

/-- The bindings that are generalized and the others can be cut in different ways. -/
theorem exists_cutBoth (plan : Plan) : ∀ {bs bs₁ bs₂ : List Bind}, CutBinds bs bs₁ →
    CutBinds bs bs₂ → ∃ bs', CutBinds bs bs' ∧ checkGeneral plan bs' = checkGeneral plan bs₁ ∧
      checkOthers plan bs' = checkOthers plan bs₂
  | [], _, _, .nil, .nil => ⟨[], .nil, rfl, rfl⟩
  | b :: bs, b₁ :: bs₁, b₂ :: bs₂, .cons h₁ hbs₁, .cons h₂ hbs₂ => by
    obtain ⟨bs', hbs', hgeneral, hothers⟩ := exists_cutBoth plan hbs₁ hbs₂
    cases hb : plan.generalizes b with
    | true =>
      refine ⟨b₁ :: bs', .cons h₁ hbs', ?_, ?_⟩
      · rw [checkGeneral, checkGeneral, hgeneral]
      · simp [checkOthers, generalizes_cut h₁, generalizes_cut h₂, hb, hothers]
    | false =>
      refine ⟨b₂ :: bs', .cons h₂ hbs', ?_, ?_⟩
      · simp [checkGeneral, generalizes_cut h₁, generalizes_cut h₂, hb, hgeneral]
      · rw [checkOthers, checkOthers, hothers]

/-! ## The recursion -/

instance {e : Expr} : Nonempty { e' // e.Cut e' } := ⟨⟨e, .same⟩⟩
instance {es : List Expr} : Nonempty { es' // CutEach es es' } := ⟨⟨es, .refl es⟩⟩
instance {fs : List (String × Expr)} : Nonempty { fs' // CutFields fs fs' } := ⟨⟨fs, .refl fs⟩⟩
instance {fs : List (List Selector × UpdateHow × Expr)} : Nonempty { fs' // CutUpdates fs fs' } :=
  ⟨⟨fs, .refl fs⟩⟩
instance {arms : List (List Surface.Match)} : Nonempty { arms' // CutArms arms arms' } :=
  ⟨⟨arms, .refl arms⟩⟩
instance {ms : List Surface.Match} : Nonempty { ms' // CutMatches ms ms' } := ⟨⟨ms, .refl ms⟩⟩
instance {b : Bind} : Nonempty { b' // b.Cut b' } := ⟨⟨b, .same⟩⟩
instance {bs : List Bind} : Nonempty { bs' // CutBinds bs bs' } := ⟨⟨bs, .refl bs⟩⟩
instance {inBlock : Bool} {d : Surface.Decl} : Nonempty { d' // CutDecl inBlock d d' } :=
  ⟨⟨d, .same⟩⟩
instance {inBlock : Bool} {ds : List Surface.Decl} : Nonempty { ds' // CutDecls inBlock ds ds' } :=
  ⟨⟨ds, .refl inBlock ds⟩⟩

/-- Declarations without expressions have nothing to do with the solver. -/
theorem steady_checkDecl {d : Surface.Decl} (hgroup : ∀ recursive bs, d ≠ .group recursive bs)
    (hsubmodule : ∀ n ds range, d ≠ .submodule n ds range) (top : Bool) :
    Steady (checkDecl top d) := by
  cases d with
  | group recursive bs => exact absurd rfl (hgroup recursive bs)
  | submodule n ds range => exact absurd rfl (hsubmodule n ds range)
  | synonym =>
    rw [checkDecl]
    exact (steady_checkSynonym ..).bind fun _ => .pure _
  | newtype =>
    rw [checkDecl]
    exact (steady_checkNewtype ..).bind fun _ => .pure _
  | primType =>
    rw [checkDecl]
    exact (steady_checkPrimType ..).bind fun _ => .pure _
  | paramType =>
    rw [checkDecl]
    exact (steady_checkParamType ..).bind fun _ => .pure _
  | paramProps =>
    rw [checkDecl]
    exact (steady_checkParamProps ..).bind fun _ => .pure _
  | paramFun =>
    rw [checkDecl]
    exact ((steady_checkSignature _).bind fun _ => (steady_modifyScope _).bind fun _ =>
      (steady_declare ..).bind fun _ => .pure _).withRange

theorem mirrored_same {e : Expr} {exp : Expected} {slots : List (Ty × Nat)}
    (h : Steady (checkExpr e exp slots)) : Mirrored r (checkExpr e exp slots)
      (fun e' : { e' // e.Cut e' } => checkExpr e'.1 exp slots) :=
  h.mirrored_of_eq ⟨e, .same⟩ rfl

theorem mirrored_group {bs : List Bind}
    (hgeneral : ∀ plan, Mirrored r (checkGeneral plan bs)
      (fun bs' : { bs' // CutBinds bs bs' } => checkGeneral plan bs'.1))
    (hothers : ∀ plan, Mirrored r (checkOthers plan bs)
      (fun bs' : { bs' // CutBinds bs bs' } => checkOthers plan bs'.1)) (top recursive : Bool) :
    Mirrored r (checkDecl top (.group recursive bs))
      (fun bs' : { bs' // CutBinds bs bs' } => checkDecl top (.group recursive bs'.1)) := by
  have hgroup : ∀ plan, Mirrored r
      (checkGroup plan recursive bs (checkGeneral plan bs) (checkOthers plan bs))
      (fun bs' : { bs' // CutBinds bs bs' } =>
        checkGroup plan recursive bs (checkGeneral plan bs'.1) (checkOthers plan bs'.1)) := by
    intro plan
    -- each pass over the bindings has a choice of its own; one cut serves both
    refine (mirrored_checkGroup (hgeneral plan) (hothers plan) plan recursive bs).choose
      fun d => ?_
    obtain ⟨bs', hbs', hgeneral', hothers'⟩ := exists_cutBoth plan d.1.2 d.2.2
    exact ⟨⟨bs', hbs'⟩, by rw [hgeneral', hothers']⟩
  rw [checkDecl]
  refine ((steady_planGroup ..).bind_mirrored fun plan => (hgroup plan).bind_steady fun _ =>
    (Steady.forM fun _ => steady_declare ..).bind fun _ => (steady_modifyScope _).bind fun _ =>
      .pure _).choose fun d => ⟨d, ?_⟩
  rw [checkDecl, planGroup_cut d.2]
  simp only [checkGroup_cut d.2]
  rfl

mutual
theorem mirrored_checkExpr : ∀ (e : Expr) (exp : Expected) (slots : List (Ty × Nat)),
    Mirrored r (checkExpr e exp slots) (fun e' : { e' // e.Cut e' } => checkExpr e'.1 exp slots)
  | .located range e, exp, slots => by
    rw [checkExpr]
    refine (((mirrored_checkExpr e exp []).bind_steady fun _ => ?_).withRange).choose fun d =>
      ⟨⟨.located range d.1, .located d.2⟩, ?_⟩
    · exact .read_bind (fun _ _ => rfl) fun _ => .pure _
    · rw [checkExpr]
  | .var n, exp, slots => mirrored_same <| by
    rw [checkExpr]
    exact steady_checkVar ..
  | .typeApp f args, exp, slots => mirrored_same <| by
    rw [checkExpr]
    split
    · exact steady_checkVar ..
    · exact .throw _
  | .num value base digits, exp, slots => mirrored_same <| by
    rw [checkExpr]
    exact steady_checkNum ..
  | .frac num den, exp, slots => mirrored_same <| by
    rw [checkExpr]
    exact steady_checkPrim ..
  | .char code, exp, slots => mirrored_same <| by
    rw [checkExpr]
    exact steady_checkPrim ..
  | .string str, exp, slots => mirrored_same <| by
    rw [checkExpr]
    exact steady_checkString ..
  | .typeValue t, exp, slots => mirrored_same <| by
    rw [checkExpr]
    exact (steady_checkType ..).bind fun _ => steady_checkPrim ..
  | .enumeration bounds, exp, slots => mirrored_same <| by
    rw [checkExpr]
    exact steady_checkEnumeration ..
  | .from first, exp, slots => by
    rw [checkExpr]
    refine ((steady_prim _).bind_mirrored fun _ => (steady_openSpine ..).bind_mirrored fun _ =>
      (steady_checkVar ..).bind_mirrored fun _ =>
      (mirrored_checkExpr first _ []).bind_steady fun _ => .pure _).choose fun d =>
      ⟨⟨.from d.1, .from d.2⟩, ?_⟩
    rw [checkExpr]
  | .fromThen first next, exp, slots => by
    rw [checkExpr]
    refine ((steady_prim _).bind_mirrored fun _ => (steady_openSpine ..).bind_mirrored fun _ =>
      (steady_checkVar ..).bind_mirrored fun _ => (steady_openSpine ..).bind_mirrored fun _ =>
      (mirrored_checkExpr first _ []).bind fun _ =>
      (mirrored_checkExpr next _ []).bind_steady fun _ => .pure _).choose fun d =>
      ⟨⟨.fromThen d.1.1 d.2.1, .fromThen d.1.2 d.2.2⟩, ?_⟩
    rw [checkExpr]
  | .tuple es, exp, slots => by
    rw [checkExpr]
    refine ((steady_expectTuple ..).bind_mirrored fun _ =>
      (mirrored_checkEach es _).bind_steady fun _ => .pure _).choose fun d =>
      ⟨⟨.tuple d.1, .tuple d.2⟩, ?_⟩
    rw [checkExpr, d.2.length_eq]
  | .record fs, exp, slots => by
    rw [checkExpr]
    refine ((steady_expectRecord ..).bind_mirrored fun _ =>
      (mirrored_checkRecordFields fs _).bind_steady fun _ => .pure _).choose fun d =>
      ⟨⟨.record d.1, .record d.2⟩, ?_⟩
    rw [checkExpr, d.2.labels_eq]
  | .list es, exp, slots => by
    rw [checkExpr]
    refine ((steady_expectSeq _).bind_mirrored fun _ =>
      (steady_unifyExact ..).bind_mirrored fun _ =>
      (mirrored_checkEach es _).bind_steady fun _ => .pure _).choose fun d =>
      ⟨⟨.list d.1, .list d.2⟩, ?_⟩
    rw [checkExpr, d.2.length_eq]
  | .select e sel, exp, slots => by
    rw [checkExpr]
    refine ((steady_freshType ..).bind_mirrored fun _ => (mirrored_checkExpr e _ []).bind_steady
      fun _ => (steady_newSelectorGoal ..).bind fun _ => .pure _).choose fun d =>
      ⟨⟨.select d.1 sel, .select d.2⟩, ?_⟩
    rw [checkExpr]
  | .update record fields, exp, slots => by
    rw [checkExpr]
    refine ((mirrored_checkExpr record exp []).bind fun _ =>
      mirrored_checkUpdates fields exp _).choose fun d =>
      ⟨⟨.update d.1.1 d.2.1, .update d.1.2 d.2.2⟩, ?_⟩
    rw [checkExpr]
  | .updater fields, exp, slots => by
    rw [checkExpr]
    refine ((steady_freshName _).bind_mirrored fun _ => mirrored_checkLambda (fun _ =>
      (steady_checkVar ..).bind_mirrored fun _ => mirrored_checkUpdates fields _ _) _ _).choose
      fun d => ⟨⟨.updater d.1, .updater d.2⟩, ?_⟩
    rw [checkExpr]
  | .comp result arms, exp, slots => by
    rw [checkExpr]
    refine ((steady_expectSeq _).bind_mirrored fun _ => (mirrored_checkArms arms []).bind fun _ =>
      (steady_unifyFrom ..).bind_mirrored fun _ =>
      (Steady.forM fun _ => steady_declareMono ..).bind_mirrored fun _ =>
      (mirrored_checkExpr result _ []).bind_steady fun _ => (steady_unstash _).bind fun _ =>
        .pure _).choose fun d => ⟨⟨.comp d.2.1 d.1.1, .comp d.2.2 d.1.2⟩, ?_⟩
    rw [checkExpr]
  | .app f a, exp, slots => by
    rw [checkExpr]
    refine ((steady_openSpine ..).bind_mirrored fun _ => (mirrored_checkExpr f _ _).bind fun _ =>
      (mirrored_checkExpr a _ []).bind_steady fun _ => .pure _).choose fun d =>
      ⟨⟨.app d.1.1 d.2.1, .app d.1.2 d.2.2⟩, ?_⟩
    rw [checkExpr, d.1.2.spineLength_eq]
  | .ifThenElse c t e, exp, slots => by
    rw [checkExpr]
    refine ((mirrored_checkExpr c _ []).bind fun _ => (mirrored_checkExpr t exp []).bind fun _ =>
      (mirrored_checkExpr e exp []).bind_steady fun _ => .pure _).choose fun d =>
      ⟨⟨.ifThenElse d.1.1 d.2.1.1 d.2.2.1, .ifThenElse d.1.2 d.2.1.2 d.2.2.2⟩, ?_⟩
    rw [checkExpr]
  | .block body ds, exp, slots => by
    -- a cancelled run goes on with the body, so the declarations it leaves out are cut off
    rw [checkExpr]
    refine ((steady_freshName _).bind_mirrored fun _ => (steady_openScope ..).bind_mirrored fun _ =>
      (mirrored_checkDecls ds false).bind fun _ => (mirrored_checkExpr body exp []).bind_steady
      fun _ => (steady_unstash _).bind fun _ => steady_closeBlock.bind fun _ =>
        .pure _).choose fun d => ⟨⟨.block d.2.1 d.1.1, .block d.2.2 d.1.2⟩, ?_⟩
    rw [checkExpr]
  | .typed e t, exp, slots => by
    rw [checkExpr]
    refine ((steady_checkType ..).bind_mirrored fun _ => (mirrored_checkExpr e _ []).bind_steady
      fun _ => (steady_unifyExact ..).bind fun _ => .pure _).choose fun d =>
      ⟨⟨.typed d.1 t, .typed d.2⟩, ?_⟩
    rw [checkExpr]
  | .lambda ps body, exp, slots => by
    rw [checkExpr]
    refine (mirrored_checkLambda (fun exp => mirrored_checkExpr body exp []) ps exp).choose fun d =>
      ⟨⟨.lambda ps d.1, .lambda d.2⟩, ?_⟩
    rw [checkExpr]

theorem mirrored_checkEach : ∀ (es : List Expr) (exps : List Expected),
    Mirrored r (checkEach es exps) (fun es' : { es' // CutEach es es' } => checkEach es'.1 exps)
  | e :: es, exp :: exps => by
    rw [checkEach]
    refine ((mirrored_checkExpr e exp []).bind fun _ => (mirrored_checkEach es exps).bind_steady
      fun _ => .pure _).choose fun d => ⟨⟨d.1.1 :: d.2.1, .cons d.1.2 d.2.2⟩, ?_⟩
    rw [checkEach]
  | [], exps => by
    have hsteady : Steady (checkEach [] exps) := by simp [checkEach]
    exact hsteady.mirrored_of_eq ⟨[], .nil⟩ rfl
  | e :: es, [] => by
    have hsteady : Steady (checkEach (e :: es) []) := by simp [checkEach]
    exact hsteady.mirrored_of_eq ⟨e :: es, .refl _⟩ rfl

theorem mirrored_checkRecordFields : ∀ (fs : List (String × Expr)) (fields : Table String Ty),
    Mirrored r (checkRecordFields fs fields)
      (fun fs' : { fs' // CutFields fs fs' } => checkRecordFields fs'.1 fields)
  | [], fields => by
    rw [checkRecordFields]
    exact (Steady.pure _).mirrored_of_eq ⟨[], .nil⟩ (by rw [checkRecordFields])
  | (l, e) :: fs, fields => by
    rw [checkRecordFields]
    refine ((mirrored_checkExpr e _ []).bind fun _ =>
      (mirrored_checkRecordFields fs fields).bind_steady fun _ => .pure _).choose fun d =>
      ⟨⟨(l, d.1.1) :: d.2.1, .cons d.1.2 d.2.2⟩, ?_⟩
    rw [checkRecordFields]

theorem mirrored_checkUpdates : ∀ (fs : List (List Selector × UpdateHow × Expr)) (exp : Expected)
    (out : Term), Mirrored r (checkUpdates fs exp out)
      (fun fs' : { fs' // CutUpdates fs fs' } => checkUpdates fs'.1 exp out)
  | [], exp, out => by
    rw [checkUpdates]
    exact (Steady.pure _).mirrored_of_eq ⟨[], .nil⟩ (by rw [checkUpdates])
  | (path, how, e) :: fs, exp, out => by
    rw [checkUpdates]
    refine ((mirrored_checkUpdate (fun exp => mirrored_checkExpr e exp []) path how exp out).bind
      fun _ => mirrored_checkUpdates fs exp _).choose fun d =>
      ⟨⟨(path, how, d.1.1) :: d.2.1, .cons d.1.2 d.2.2⟩, ?_⟩
    rw [checkUpdates]

theorem mirrored_checkArms : ∀ (arms : List (List Surface.Match)) (seen : List Int),
    Mirrored r (checkArms seen arms)
      (fun arms' : { arms' // CutArms arms arms' } => checkArms seen arms'.1)
  | [], seen => by
    rw [checkArms]
    exact (Steady.pure _).mirrored_of_eq ⟨[], .nil⟩ (by rw [checkArms])
  | ms :: arms, seen => by
    rw [checkArms]
    refine ((mirrored_checkMatches ms {}).bind fun _ => (steady_unstash _).bind_mirrored fun _ =>
      (steady_checkRepeated ..).bind_mirrored fun _ =>
      (mirrored_checkArms arms _).bind_steady fun _ => .pure _).choose fun d =>
      ⟨⟨d.1.1 :: d.2.1, .cons d.1.2 d.2.2⟩, ?_⟩
    rw [checkArms]

theorem mirrored_checkMatches : ∀ (ms : List Surface.Match) (arm : Arm),
    Mirrored r (checkMatches ms arm)
      (fun ms' : { ms' // CutMatches ms ms' } => checkMatches ms'.1 arm)
  | [], arm => by
    rw [checkMatches]
    exact (Steady.pure _).mirrored_of_eq ⟨[], .nil⟩ (by rw [checkMatches])
  | .draw p e :: ms, arm => by
    rw [checkMatches]
    refine ((steady_freshType ..).bind_mirrored fun _ =>
      (steady_freshType ..).bind_mirrored fun _ =>
      (mirrored_checkExpr e _ []).bind fun _ => (steady_checkPattern ..).bind_mirrored fun _ =>
      (steady_draw ..).bind_mirrored fun _ => mirrored_checkMatches ms _).choose fun d =>
      ⟨⟨.draw p d.1.1 :: d.2.1, .draw d.1.2 d.2.2⟩, ?_⟩
    rw [checkMatches]
  | .define b :: ms, arm => by
    rw [checkMatches]
    refine ((mirrored_checkSingle (fun exp => mirrored_checkBody b exp) b).bind fun _ =>
      (steady_define ..).bind_mirrored fun _ => mirrored_checkMatches ms _).choose fun d =>
      ⟨⟨.define d.1.1 :: d.2.1, .define d.1.2 d.2.2⟩, ?_⟩
    rw [checkMatches, checkSingle_cut d.1.2]

theorem mirrored_checkBody : ∀ (b : Bind) (exp : Expected),
    Mirrored r (checkBody b exp) (fun b' : { b' // b.Cut b' } => checkBody b'.1 exp)
  | .mk n params (some e) sig mono prim range, exp => by
    rw [checkBody]
    refine (mirrored_withExistentials (mirrored_checkLambda
      (fun exp => mirrored_checkExpr e exp []) params exp)).choose fun d =>
      ⟨⟨.mk n params (some d.1) sig mono prim range, .body d.2⟩, ?_⟩
    rw [checkBody]
  | .mk n params none sig mono prim range, exp => by
    rw [checkBody]
    exact (Steady.throw _).mirrored_of_eq ⟨.mk n params none sig mono prim range, .same⟩
      (by rw [checkBody])

theorem mirrored_checkGeneral : ∀ (bs : List Bind) (plan : Plan),
    Mirrored r (checkGeneral plan bs)
      (fun bs' : { bs' // CutBinds bs bs' } => checkGeneral plan bs'.1)
  | [], plan => by
    rw [checkGeneral]
    exact (Steady.pure _).mirrored_of_eq ⟨[], .nil⟩ (by rw [checkGeneral])
  | b :: bs, plan => by
    rw [checkGeneral]
    split
    · rename_i hb
      refine ((mirrored_checkMono (fun exp => mirrored_checkBody b exp) b _).bind fun _ =>
        (mirrored_checkGeneral bs plan).bind_steady fun _ => .pure _).choose fun d =>
        ⟨⟨d.1.1 :: d.2.1, .cons d.1.2 d.2.2⟩, ?_⟩
      rw [checkGeneral, generalizes_cut d.1.2, if_pos hb, name_cut d.1.2, checkMono_cut d.1.2]
    · rename_i hb
      refine (mirrored_checkGeneral bs plan).choose fun d => ⟨⟨b :: d.1, .cons .same d.2⟩, ?_⟩
      rw [checkGeneral, if_neg hb]

theorem mirrored_checkOthers : ∀ (bs : List Bind) (plan : Plan),
    Mirrored r (checkOthers plan bs)
      (fun bs' : { bs' // CutBinds bs bs' } => checkOthers plan bs'.1)
  | [], plan => by
    rw [checkOthers]
    exact (Steady.pure _).mirrored_of_eq ⟨[], .nil⟩ (by rw [checkOthers])
  | b :: bs, plan => by
    rw [checkOthers]
    split
    · rename_i hb
      refine (mirrored_checkOthers bs plan).choose fun d => ⟨⟨b :: d.1, .cons .same d.2⟩, ?_⟩
      rw [checkOthers, if_pos hb]
    · rename_i hb
      cases hsig : plan.signatures.find? b.name.id with
      | some sc =>
        refine ((mirrored_checkSigned (fun exp => mirrored_checkBody b exp) b sc).bind fun _ =>
          (mirrored_checkOthers bs plan).bind_steady fun _ => .pure _).choose fun d =>
          ⟨⟨d.1.1 :: d.2.1, .cons d.1.2 d.2.2⟩, ?_⟩
        rw [checkOthers, generalizes_cut d.1.2, if_neg hb, name_cut d.1.2, hsig,
          checkSigned_cut d.1.2]
      | none =>
        refine ((mirrored_checkMono (fun exp => mirrored_checkBody b exp) b _).bind fun _ =>
          (mirrored_checkOthers bs plan).bind_steady fun _ => .pure _).choose fun d =>
          ⟨⟨d.1.1 :: d.2.1, .cons d.1.2 d.2.2⟩, ?_⟩
        rw [checkOthers, generalizes_cut d.1.2, if_neg hb, name_cut d.1.2, hsig,
          checkMono_cut d.1.2]

theorem mirrored_checkDecls : ∀ (ds : List Surface.Decl) (top : Bool),
    Mirrored r (checkDecls top ds)
      (fun ds' : { ds' // CutDecls true ds ds' } => checkDecls top ds'.1)
  | [], top => by
    rw [checkDecls]
    exact (Steady.pure _).mirrored_of_eq ⟨[], .nil⟩ (by rw [checkDecls])
  | d :: ds, top => by
    rw [checkDecls]
    refine (Mirrored.unlessCancelled ((mirrored_checkDecl d top).bind fun _ =>
      (mirrored_checkDecls ds top).bind_steady fun _ => .pure _)).choose fun choice => ?_
    cases choice with
    | none => exact ⟨⟨[], .stop⟩, by rw [checkDecls]⟩
    | some d => exact ⟨⟨d.1.1 :: d.2.1, .cons d.1.2 d.2.2⟩, by rw [checkDecls]⟩

theorem mirrored_checkDecl : ∀ (d : Surface.Decl) (top : Bool),
    Mirrored r (checkDecl top d) (fun d' : { d' // CutDecl true d d' } => checkDecl top d'.1)
  | .group recursive bs, top =>
    (mirrored_group (mirrored_checkGeneral bs) (mirrored_checkOthers bs) top recursive).choose
      fun d => ⟨⟨.group recursive d.1, .group d.2⟩, rfl⟩
  | .submodule n ds range, top => by
    rw [checkDecl]
    refine (Mirrored.withRange (.get_bind (fun _ _ _ => rfl) fun _ =>
      (steady_openScope ..).bind_mirrored fun _ =>
      (mirrored_checkDecls ds true).bind_steady fun _ =>
        (Steady.modify fun _ _ _ => rfl).bind fun _ => steady_closeSubmodule.bind fun _ =>
        .pure _)).choose fun d => ⟨⟨.submodule n d.1 range, .submodule d.2⟩, ?_⟩
    rw [checkDecl]
  | .synonym .., top | .newtype .., top | .primType .., top | .paramType .., top
  | .paramProps .., top | .paramFun .., top =>
    (steady_checkDecl (by simp) (by simp) top).mirrored_of_eq ⟨_, .same⟩ rfl
end

end SizedTypes.Infer
