import SizedTypes.Proofs.Infer.Steady
import SizedTypes.Proofs.Run.Stages

/-!
# Checks apart from the solver

Solving selectors, simplifying goals, taking defaults, generalizing, using variables, checking
patterns and declaring types have nothing to do with the solver. Nor has the end of a run, once the
last goals are discharged.
-/

set_option autoImplicit false

namespace SizedTypes.Infer

open Surface (Bind Enumeration Pattern TypeArg TypeExpr TypeParam)
open SizedTypes.Core (Decl)

/-! ## Selector goals -/

theorem steady_setSolution (id : Int) (soln : Solution) : Steady (setSolution id soln) :=
  .modify fun _ _ _ => rfl

theorem steady_solveSelectorAt (g : SelectorGoal) (record : Ty) :
    Steady (solveSelectorAt g record) := by
  unfold solveSelectorAt
  split
  · exact (steady_unifyFrom ..).bind fun _ => (steady_addGoals ..).bind fun _ =>
      steady_setSolution ..
  · exact (steady_freshType ..).bind fun _ => (steady_unifyFrom ..).bind fun _ =>
      (steady_newSelectorGoal ..).bind fun _ => steady_setSolution ..
  · exact (steady_freshType ..).bind fun _ => (steady_unifyFrom ..).bind fun _ =>
      (steady_newSelectorGoal ..).bind fun _ => steady_setSolution ..
  · exact (steady_recordError _).bind fun _ => steady_setSolution ..

theorem steady_solveSelector (g : SelectorGoal) : Steady (solveSelector g) := by
  refine (steady_applied _).bind fun record => ?_
  split
  · exact .pure _
  · exact (steady_solveSelectorAt g record).withRange.bind fun _ => .pure _

theorem steady_solveSelectorsOnce (gs : List SelectorGoal) : Steady (solveSelectorsOnce gs) := by
  induction gs with
  | nil => exact .pure _
  | cons g gs ih =>
    have hrest := fun b : Bool => ih.bind fun more => Steady.pure (b || more)
    refine (steady_solveSelector g).bind fun solved => .ite ?_ (hrest _)
    exact (Steady.modify fun _ _ _ => rfl).bind fun _ => hrest _

theorem steady_solveSelectors : Steady solveSelectors := by
  refine .get_bind (fun _ _ _ => rfl) fun s => ?_
  generalize selectorRounds s = fuel
  induction fuel with
  | zero => exact .pure _
  | succ fuel ih =>
    exact .get_bind (fun _ _ _ => rfl) fun _ => (Steady.modify fun _ _ _ => rfl).bind fun _ =>
      (steady_solveSelectorsOnce _).bind fun _ => .ite ih (.pure _)

/-! ## Goals -/

theorem steady_simplifyGoal (g : Goal) : Steady (simplifyGoal g) := by
  refine .of_get fun c s S qs b => ?_
  simp only [under_subst, under_assumptions]
  split
  · exact ((steady_recordError _).withRange.bind fun _ => .pure _).exec_under c s S qs b
  · rfl

theorem steady_simplifyPass (gs : List Goal) : Steady (simplifyPass gs) := by
  induction gs with
  | nil => exact .pure _
  | cons g gs ih => exact (steady_simplifyGoal g).bind fun _ => ih.bind fun _ => .pure _

theorem steady_simplifyPasses (fuel : Nat) (gs : List Goal) : Steady (simplifyPasses fuel gs) := by
  induction fuel generalizing gs with
  | zero => exact .pure _
  | succ fuel ih => exact (steady_simplifyPass gs).bind fun _ => .ite (ih _) (.pure _)

theorem steady_simplifyGoals (gs : List Goal) : Steady (simplifyGoals gs) :=
  .get_bind (fun _ _ _ => rfl) fun _ => steady_simplifyPasses ..

theorem steady_goalFor (gs : List Goal) (p : Ty) : Steady (goalFor gs p) := by
  refine .get_bind (fun _ _ _ => rfl) fun s => ?_
  dsimp only
  split
  · exact .pure _
  · exact steady_currentRange.bind fun _ => .pure _

theorem steady_useAnswer (gs : List Goal) (ans : Answer) : Steady (useAnswer gs ans) := by
  unfold useAnswer
  refine (Steady.modify fun _ _ _ => rfl).bind fun _ => ?_
  split
  · exact .pure _
  · refine (Steady.withRange ?_).bind fun _ => .pure _
    refine (Steady.forM fun r => ?_).bind fun _ => .ite (steady_recordError _) (.pure _)
    exact (steady_goalFor gs r).bind fun _ => steady_recordError _
  · exact .mapM fun r => steady_goalFor gs r

/-! ## Generalization -/

theorem steady_defaultVar (goals : List Goal) (v : TyVar) : Steady (defaultVar goals v) := by
  refine .of_get fun c s S qs b => ?_
  simp only [under_subst, under_assumptions]
  split
  · rfl
  · rename_i θ t _
    have hrest := (steady_recordWarning (.defaulting v t)).bind fun _ =>
      steady_trace (.defaulted v.display t.text)
    exact hrest.exec_under c { s with subst := θ } S qs b

theorem steady_defaultVars (vs : List TyVar) (goals : List Goal) : Steady (defaultVars vs goals) :=
  .forM fun v => steady_defaultVar goals v

theorem steady_generalize (ds : List Decl) (goals : List Goal) (group : List (Int × Int)) :
    Steady (generalize ds goals group) :=
  steady_solveSelectors.bind fun _ => .get_bind (fun _ _ _ => rfl) fun _ =>
    (Steady.modify fun _ _ _ => rfl).bind fun _ => (steady_defaultVars ..).bind fun _ =>
    (steady_simplifyGoals _).bind fun _ => .get_bind (fun _ _ _ => rfl) fun _ =>
    (Steady.modify fun _ _ _ => rfl).bind fun _ =>
    (Steady.mapM fun _ => .getSet (fun _ _ _ => rfl) fun _ _ _ => rfl).bind fun _ =>
    (Steady.forM fun _ => steady_trace _).bind fun _ => .pure _

/-! ## Uses and literals -/

theorem steady_instantiate (sc : Schema) (given : Table Int Ty)
    (source : Nat → Param → TypeSource) : Steady (instantiate sc given source) :=
  .getSet (fun _ _ _ => rfl) fun _ _ _ => rfl

theorem steady_positionalArgs (callee : Name) (params : List Param) (i : Nat)
    (args : List TypeArg) (given : Table Int Ty) :
    Steady (positionalArgs callee params i args given) := by
  induction args generalizing i given with
  | nil => exact .pure _
  | cons a as ih =>
    unfold positionalArgs
    split
    · exact (steady_recordError _).bind fun _ => .pure _
    · exact (steady_checkType ..).bind fun _ => ih ..

theorem steady_namedArgs (callee : Name) (params : List Param) (args : List TypeArg)
    (given : Table Int Ty) : Steady (namedArgs callee params args given) := by
  induction args generalizing given with
  | nil => exact .pure _
  | cons a as ih =>
    unfold namedArgs
    dsimp only
    split
    · exact (steady_recordError _).bind fun _ => ih _
    · exact (steady_checkType ..).bind fun _ => ih ..

theorem steady_typeArgs (callee : Name) (sc : Schema) (args : List TypeArg) :
    Steady (typeArgs callee sc args) :=
  .ite (steady_positionalArgs ..) (.ite (steady_namedArgs ..)
    ((steady_recordError _).bind fun _ => .pure _))

theorem steady_checkVar (n : Name) (args : List TypeArg) (exp : Expected) :
    Steady (checkVar n args exp) := by
  refine (steady_lookupVar n).bind fun v => ?_
  split
  · have hrest : ∀ name token t, Steady (do
        unifyExact exp t
        return Core.Term.groupVar name token) := fun _ _ _ =>
      (steady_unifyExact ..).bind fun _ => .pure _
    split
    · exact hrest _ _ _
    · exact (steady_checkType ..).bind fun _ => (steady_recordError _).bind fun _ => hrest _ _ _
  · exact .get_bind (fun _ _ _ => rfl) fun _ => (steady_typeArgs ..).bind fun _ =>
      (steady_instantiate ..).bind fun _ => (steady_addGoals ..).bind fun _ =>
      (steady_unifyExact ..).bind fun _ => .pure _

theorem steady_checkPrim (src : GoalSource) (ident : String) (args : List (String × Ty))
    (exp : Expected) : Steady (checkPrim src ident args exp) := by
  refine (steady_prim ident).bind fun n => (steady_lookupVar n).bind fun v => ?_
  split
  · refine (Steady.pure _).bind fun sc => .get_bind (fun _ _ _ => rfl) fun s => ?_
    dsimp only
    split
    · exact .throw_bind ..
    · exact (steady_instantiate ..).bind fun _ => (steady_addGoals ..).bind fun _ =>
        (steady_unifyExact ..).bind fun _ => .pure _
  · exact .throw_bind ..

theorem steady_checkNum (value base digits : Int) (exp : Expected) :
    Steady (checkNum value base digits exp) := steady_checkPrim ..

theorem steady_checkString (str : String) (exp : Expected) : Steady (checkString str exp) :=
  (steady_unifyExact ..).bind fun _ => (Steady.mapM fun _ => steady_checkPrim ..).bind fun _ =>
    .pure _

theorem steady_checkBound (label : String) (t : Option TypeExpr) : Steady (checkBound label t) := by
  cases t with
  | none => exact .pure _
  | some t => exact (steady_checkType ..).bind fun _ => .pure _

theorem steady_checkEnumeration (e : Enumeration) (exp : Expected) :
    Steady (checkEnumeration e exp) := by
  unfold checkEnumeration
  cases e.elem with
  | none =>
    exact (Steady.pure _).bind fun _ => (steady_checkBound ..).bind fun _ =>
      (Steady.mapM fun _ => steady_checkBound ..).bind fun _ => steady_checkPrim ..
  | some t =>
    exact (steady_checkType ..).bind fun _ => (Steady.pure _).bind fun _ =>
      (steady_checkBound ..).bind fun _ =>
      (Steady.mapM fun _ => steady_checkBound ..).bind fun _ => steady_checkPrim ..

/-! ## Patterns -/

theorem steady_monoDecl (n : Name) (t : Ty) (e : Core.Term) : Steady (monoDecl n t e) :=
  steady_currentRange.bind fun _ => .pure _

theorem steady_part (whole : Matched) (sel : Selector) (t : Ty) (m : Matched) :
    Steady (whole.part sel t m) := (steady_monoDecl ..).bind fun _ => .pure _

theorem steady_checkSplit (exp : Expected) : Steady (checkSplit exp) :=
  (steady_freshType ..).bind fun _ => (steady_freshType ..).bind fun _ =>
    (steady_freshType ..).bind fun _ => (steady_unifyFrom ..).bind fun _ =>
    (steady_addGoals ..).bind fun _ => (steady_checkPrim ..).bind fun _ =>
    (steady_freshName _).bind fun _ => (steady_freshName _).bind fun _ =>
    (steady_monoDecl ..).bind fun _ => .pure _

mutual
theorem steady_checkPattern : ∀ (p : Pattern) (exp : Expected), Steady (checkPattern p exp)
  | .located r p, exp => by
    rw [checkPattern]
    exact (steady_checkPattern p exp).withRange
  | .var n, exp => by
    rw [checkPattern]
    exact .pure _
  | .wildcard, exp => by
    rw [checkPattern]
    exact (steady_freshName _).bind fun _ => .pure _
  | .typed p t, exp => by
    rw [checkPattern]
    exact (steady_checkType ..).bind fun _ => (steady_unifyExact ..).bind fun _ =>
      steady_checkPattern p _
  | .tuple ps, exp => by
    rw [checkPattern]
    exact (steady_expectTuple ..).bind fun _ => (steady_freshName _).bind fun _ =>
      steady_checkParts ps _ _
  | .record fs, exp => by
    rw [checkPattern]
    exact (steady_expectRecord ..).bind fun _ => (steady_freshName _).bind fun _ =>
      steady_checkFieldParts fs _ _
  | .list ps, exp => by
    rw [checkPattern]
    exact (steady_expectSeq _).bind fun _ => (steady_unifyFrom ..).bind fun _ =>
      (steady_freshName _).bind fun _ => steady_checkParts ps _ _
  | .split left right, exp => by
    rw [checkPattern]
    exact (steady_checkSplit _).bind fun _ => (steady_checkPattern left _).bind fun _ =>
      (steady_part ..).bind fun _ => (steady_checkPattern right _).bind fun _ =>
      (steady_part ..).bind fun _ => .pure _

theorem steady_checkParts : ∀ (ps : List Pattern) (slots : List (Selector × Expected))
    (whole : Matched), Steady (checkParts ps slots whole)
  | p :: ps, (sel, exp) :: slots, whole => by
    rw [checkParts]
    exact (steady_checkPattern p exp).bind fun _ => (steady_part ..).bind fun _ =>
      steady_checkParts ps slots _
  | [], _, whole => by simp [checkParts]
  | _ :: _, [], whole => by simp [checkParts]

theorem steady_checkFieldParts : ∀ (fs : List (String × Pattern)) (fields : Table String Ty)
    (whole : Matched), Steady (checkFieldParts fs fields whole)
  | [], _, whole => by
    rw [checkFieldParts]
    exact .pure _
  | (l, p) :: fs, fields, whole => by
    rw [checkFieldParts]
    exact (steady_checkPattern p _).bind fun _ => (steady_part ..).bind fun _ =>
      steady_checkFieldParts fs fields _
end

theorem steady_checkParams (i : Nat) (ps : List Pattern) (ts : List Ty) :
    Steady (checkParams i ps ts) := by
  induction ps generalizing i ts with
  | nil => simp [checkParams]
  | cons p ps ih =>
    cases ts with
    | nil => simp [checkParams]
    | cons t ts =>
      exact (steady_checkPattern ..).bind fun _ =>
        (Steady.forM fun _ => steady_declareMono ..).bind fun _ => (ih ..).bind fun _ => .pure _

/-! ## Applications, comprehensions and groups -/

theorem steady_openSpine (k : Nat) (exp : Expected) (slots : List (Ty × Nat)) :
    Steady (openSpine k exp slots) := by
  unfold openSpine
  split
  · exact .pure _
  · exact (Steady.mapM fun _ => steady_freshType ..).bind fun _ =>
      (steady_freshType ..).bind fun _ => .pure _

theorem steady_draw (arm : Arm) (n elem : Ty) (e : Core.Term) (m : Matched) :
    Steady (arm.draw n elem e m) :=
  (Steady.forM fun _ => steady_declareMono ..).bind fun _ => .pure _

theorem steady_define (arm : Arm) (d : Decl) : Steady (arm.define d) :=
  (steady_declare ..).bind fun _ => .pure _

theorem steady_checkRepeated (seen : List Int) (vs : List (Name × Ty)) :
    Steady (checkRepeated seen vs) := by
  induction vs generalizing seen with
  | nil => exact .pure _
  | cons v vs ih => exact .ite ((steady_recordError _).bind fun _ => ih _) (ih _)

theorem steady_planDeclare (plan : Plan) (recursive : Bool) (n : Name) (v : VarType) :
    Steady (plan.declare recursive n v) :=
  .ite ((steady_declare ..).bind fun _ => .pure _) (.pure _)

theorem steady_planAdd (plan : Plan) (recursive : Bool) (b : Bind) :
    Steady (plan.add recursive b) := by
  refine .withRange ?_
  split
  · exact (steady_checkSignature _).bind fun _ => steady_planDeclare ..
  · have hrest : Steady (do
        let v ← freshVar .type (.definition b.name)
        if plan.mono then
          let plan := { plan with monos := plan.monos.insert b.name.id (.free v) }
          plan.declare recursive b.name (.known (.mono (.free v)))
        else
          let plan := { plan with general := plan.general.insert b.name.id (v.id, .free v) }
          plan.declare recursive b.name (.inGroup v.id b.name (.free v))) :=
      (steady_freshVar ..).bind fun _ => .ite (steady_planDeclare ..) (steady_planDeclare ..)
    exact .ite (.throw_bind ..) hrest

theorem steady_planGroup (top recursive : Bool) (binds : List Bind) :
    Steady (planGroup top recursive binds) :=
  .read_bind (fun _ _ => rfl) fun _ => (steady_trace _).bind fun _ =>
    .foldlM (fun plan b => steady_planAdd plan recursive b) _

/-! ## Declarations of types and module parameters -/

theorem steady_checkSynonym (n : Name) (params : List TypeParam) (body : TypeExpr)
    (range : Range) : Steady (checkSynonym n params body range) := by
  refine .withRange (.get_bind (fun _ _ _ => rfl) fun s => ?_)
  have hdeclare := steady_kindInfer (fun _ => Kinding.ignores_declare params)
    { allowWildcards := false }
  split
  · exact (steady_recordWarning _).bind fun _ => hdeclare.bind fun _ =>
      (steady_kindInfer (fun _ => Kinding.ignores_infer body .unknown) _).bind fun _ =>
      steady_modifyScope _
  · exact hdeclare.bind fun _ =>
      (steady_kindInfer (fun _ => Kinding.ignores_infer body .unknown) _).bind fun _ =>
      steady_modifyScope _

theorem steady_checkNewtype (n : Name) (params : List TypeParam)
    (fields : List (String × TypeExpr)) (conName : Option Name) (range : Range) :
    Steady (checkNewtype n params fields conName range) :=
  .withRange <| (steady_kindInfer (fun _ => Kinding.ignores_declare _) _).bind fun _ =>
    (steady_kindInfer (fun _ => Kinding.ignores_checkFields _) _).bind fun _ =>
    (steady_modifyScope _).bind fun _ => steady_declare ..

theorem steady_checkPrimType (n : Name) (kind : Kind) (props : List TypeExpr) (range : Range) :
    Steady (checkPrimType n kind props range) :=
  .withRange <| (steady_kindInfer (fun _ => Kinding.ignores_checkProps _) _).bind fun _ =>
    steady_modifyScope _

theorem steady_checkParamType (n : Name) (kind : Kind) : Steady (checkParamType n kind) :=
  (steady_freshParam ..).bind fun _ => (Steady.modify fun _ _ _ => rfl).bind fun _ =>
    steady_modifyScope _

theorem steady_checkParamProps (props : List TypeExpr) (range : Range) :
    Steady (checkParamProps props range) :=
  .withRange <| (steady_kindInfer (fun _ => Kinding.ignores_checkProps _) _).bind fun _ =>
    (Steady.modify fun _ _ _ => rfl).bind fun _ => (steady_modifyScope _).bind fun _ =>
    (steady_simplifyGoals _).bind fun _ => .modify fun _ _ _ => rfl

/-! ## The end of a run -/

theorem steady_openVars : Steady openVars := .get_bind (fun _ _ _ => rfl) fun _ => .pure _

theorem steady_reportUnsolved (gs : List Goal) : Steady (reportUnsolved gs) :=
  .ite (steady_recordError _).withRange (.pure _)

theorem steady_resolving {α : Type} (act : Resolver → StateM Supply α) : Steady (resolving act) :=
  .getSet (fun _ _ _ => rfl) fun _ _ _ => rfl

theorem steady_checkResolved (ds : List Decl) : Steady (checkResolved ds) := by
  refine .get_bind (fun _ _ _ => rfl) fun _ => .ite (.forM fun d => ?_) (.pure _)
  exact .ite (steady_recordError _).withRange (.pure _)

theorem steady_resolveModule (m : Core.Module) : Steady (resolveModule m) :=
  (steady_resolving _).bind fun _ => .get_bind (fun _ _ _ => rfl) fun _ =>
    (steady_checkResolved _).bind fun _ => .pure _

theorem steady_conclude : Steady conclude := .getSet (fun _ _ _ => rfl) fun _ _ _ => rfl

theorem steady_seeds : Steady seeds :=
  .get_bind (fun _ _ _ => rfl) fun _ => .get_bind (fun _ _ _ => rfl) fun _ => .pure _

/-- The report of the goals that are left of a binding with a signature. -/
theorem steady_reportUnproved (src : GoalSource) (here : List Goal) : Steady (do
    if !here.isEmpty then
      withRange (firstRange here) (recordError (.unsolvedGoals here))
      trace (.unprovedGoals src.describe here.length) : Infer Unit) :=
  .ite ((steady_recordError _).withRange.bind fun _ => steady_trace _) (.pure _)

theorem steady_reportLeft : Steady reportLeft :=
  .get_bind (fun _ _ _ => rfl) fun _ => (steady_reportUnsolved _).bind fun _ =>
    (Steady.modify fun _ _ _ => rfl).bind fun _ => .get_bind (fun _ _ _ => rfl) fun _ =>
    (steady_reportUnsolved _).bind fun _ => .modify fun _ _ _ => rfl

theorem steady_moduleOutput (m : Surface.Module) : Steady (moduleOutput m) := by
  refine steady_closeTop.bind fun _ => (steady_resolveModule _).bind fun _ =>
    steady_conclude.bind fun res => ?_
  cases res with
  | error f => exact .pure _
  | ok ws => exact (steady_trace _).bind fun _ => steady_seeds.bind fun _ => .pure _

theorem steady_exprOutput (ds : List Decl) : Steady (exprOutput ds) := by
  refine steady_closeTop.discard.bind fun _ => (steady_resolving _).bind fun ds =>
    (steady_checkResolved _).bind fun _ => steady_conclude.bind fun res => ?_
  cases res with
  | error f => exact .pure _
  | ok ws =>
    cases ds with
    | nil => exact steady_seeds.bind fun _ => .pure _
    | cons d ds => exact steady_seeds.bind fun _ => .pure _

end SizedTypes.Infer
