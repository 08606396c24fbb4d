import SizedTypes.Proofs.Infer.Ledger.Groups

/-!
# Expressions and declarations wait for allocated goals

The recursion over the surface language: every check keeps the ledger of selector goals, and its
result waits for goals that are in it.
-/

set_option autoImplicit false

namespace SizedTypes.Infer

open Surface (Bind Expr UpdateHow)
open SizedTypes.Core (Part Term awaited partsDecls partsFields partsList)

/-- The selector goals that the arms of a comprehension wait for. -/
def awaitedArms (arms : List Arm) : List Int := arms.flatMap Arm.awaited

theorem awaited_partsArms (arms : List Arm) :
    awaited (Core.partsArms (arms.map Arm.quals)) = awaitedArms arms := by
  induction arms with
  | nil => rfl
  | cons arm arms ih => simp [Core.partsArms, awaitedArms, Arm.awaited, ih]

mutual
theorem awaits_checkExpr : ∀ (e : Expr) (exp : Expected) (slots : List (Ty × Nat))
    {known : List Int}, Awaits known (fun e => awaited e.parts) (checkExpr e exp slots)
  | .located r e, exp, slots, known => by
    rw [checkExpr]
    refine ((awaits_checkExpr e exp []).bind fun out => Respects.read.bind_awaits fun c =>
      .pure ?_).withRange
    split <;> simp [Term.parts, Part.goal?]
  | .var n, exp, slots, known => by
    rw [checkExpr]
    exact awaits_checkVar ..
  | .typeApp f args, exp, slots, known => by
    rw [checkExpr]
    split
    · exact awaits_checkVar ..
    · exact .throw _
  | .num value base digits, exp, slots, known => by
    rw [checkExpr]
    exact awaits_checkPrim ..
  | .frac num den, exp, slots, known => by
    rw [checkExpr]
    exact awaits_checkPrim ..
  | .char code, exp, slots, known => by
    rw [checkExpr]
    exact awaits_checkPrim ..
  | .string str, exp, slots, known => by
    rw [checkExpr]
    exact awaits_checkString ..
  | .typeValue t, exp, slots, known => by
    rw [checkExpr]
    exact (respects_checkType ..).bind_awaits fun _ => awaits_checkPrim ..
  | .enumeration bounds, exp, slots, known => by
    rw [checkExpr]
    exact awaits_checkEnumeration ..
  | .from first, exp, slots, known => by
    rw [checkExpr]
    refine (respects_prim _).bind_awaits fun _ => (respects_openSpine ..).bind_awaits fun _ =>
      (awaits_checkVar ..).bind fun _ => (awaits_checkExpr first _ []).bind fun _ => .pure ?_
    simp [Term.parts, Part.goal?]
  | .fromThen first next, exp, slots, known => by
    rw [checkExpr]
    refine (respects_prim _).bind_awaits fun _ => (respects_openSpine ..).bind_awaits fun _ =>
      (awaits_checkVar ..).bind fun _ => (respects_openSpine ..).bind_awaits fun _ =>
      (awaits_checkExpr first _ []).bind fun _ => (awaits_checkExpr next _ []).bind fun _ =>
      .pure ?_
    simp [Term.parts, Part.goal?]
  | .tuple es, exp, slots, known => by
    rw [checkExpr]
    refine (respects_expectTuple ..).bind_awaits fun _ => (awaits_checkEach es _).bind fun _ =>
      .pure ?_
    simp [Term.parts, Part.goal?]
  | .record fs, exp, slots, known => by
    rw [checkExpr]
    refine (respects_expectRecord ..).bind_awaits fun _ =>
      (awaits_checkRecordFields fs _).bind fun _ => .pure ?_
    simp [Term.parts, Part.goal?]
  | .list es, exp, slots, known => by
    rw [checkExpr]
    refine (respects_expectSeq _).bind_awaits fun _ => (respects_unifyExact ..).bind_awaits fun _ =>
      (awaits_checkEach es _).bind fun _ => .pure ?_
    simp [Term.parts, Part.goal?]
  | .select e sel, exp, slots, known => by
    rw [checkExpr]
    refine (respects_freshType ..).bind_awaits fun _ => (awaits_checkExpr e _ []).bind fun _ =>
      (awaits_newSelectorGoal ..).bind fun _ => .pure ?_
    simp [Term.parts, Part.goal?]
  | .update record fields, exp, slots, known => by
    rw [checkExpr]
    exact (awaits_checkExpr record exp []).bind fun _ =>
      awaits_checkUpdates fields exp _ (List.subset_append_right ..)
  | .updater fields, exp, slots, known => by
    rw [checkExpr]
    exact (respects_freshName _).bind_awaits fun _ => awaits_checkLambda (fun _ _ =>
      (awaits_checkVar ..).bind fun _ =>
        awaits_checkUpdates fields _ _ (List.subset_append_right ..)) ..
  | .comp result arms, exp, slots, known => by
    rw [checkExpr]
    refine (respects_expectSeq _).bind_awaits fun _ => (awaits_checkArms arms []).bind fun arms =>
      (respects_unifyFrom ..).bind_awaits fun _ => (conserved_declareMonos _).bind_awaits fun _ =>
      (awaits_checkExpr result _ []).bind fun _ => (conserved_unstash _).bind_awaits fun _ =>
      .pure ?_
    simp [Term.parts, Part.goal?, awaited_partsArms]
  | .app f a, exp, slots, known => by
    rw [checkExpr]
    refine (respects_openSpine ..).bind_awaits fun _ => (awaits_checkExpr f _ _).bind fun _ =>
      (awaits_checkExpr a _ []).bind fun _ => .pure ?_
    simp [Term.parts, Part.goal?]
  | .ifThenElse c t e, exp, slots, known => by
    rw [checkExpr]
    refine (awaits_checkExpr c _ []).bind fun _ => (awaits_checkExpr t exp []).bind fun _ =>
      (awaits_checkExpr e exp []).bind fun _ => .pure ?_
    simp [Term.parts, Part.goal?]
  | .block body ds, exp, slots, known => by
    rw [checkExpr]
    refine (respects_freshName _).bind_awaits fun _ => (awaits_openScope ..).bind fun _ =>
      (awaits_checkDecls ds).bind fun _ => (awaits_checkExpr body exp []).bind fun _ =>
      (conserved_unstash _).bind_awaits fun _ => awaits_closeBlock.bind fun _ => .pure ?_
    simp [Term.parts, Part.goal?]
  | .typed e t, exp, slots, known => by
    rw [checkExpr]
    exact (respects_checkType ..).bind_awaits fun _ => (awaits_checkExpr e _ []).bind fun _ =>
      (respects_unifyExact ..).bind_awaits fun _ => .pure (List.subset_append_right ..)
  | .lambda ps body, exp, slots, known => by
    rw [checkExpr]
    exact awaits_checkLambda (fun exp _ => awaits_checkExpr body exp []) ..

theorem awaits_checkEach : ∀ (es : List Expr) (exps : List Expected) {known : List Int},
    Awaits known (fun es => awaited (partsList es)) (checkEach es exps)
  | e :: es, exp :: exps, known => by
    rw [checkEach]
    refine (awaits_checkExpr e exp []).bind fun _ => (awaits_checkEach es exps).bind fun _ =>
      .pure ?_
    simp [partsList]
  | [], _, known => by
    rw [checkEach]
    · exact .pure (List.nil_subset known)
    · simp
  | _ :: _, [], known => by
    rw [checkEach]
    · exact .pure (List.nil_subset known)
    · simp

theorem awaits_checkRecordFields : ∀ (fs : List (String × Expr)) (fields : Table String Ty)
    {known : List Int},
    Awaits known (fun fs => awaited (partsFields fs)) (checkRecordFields fs fields)
  | [], _, known => by
    rw [checkRecordFields]
    exact .pure (List.nil_subset known)
  | (l, e) :: fs, fields, known => by
    rw [checkRecordFields]
    refine (awaits_checkExpr e _ []).bind fun _ =>
      (awaits_checkRecordFields fs fields).bind fun _ => .pure ?_
    simp [partsFields]

theorem awaits_checkUpdates : ∀ (fs : List (List Selector × UpdateHow × Expr)) (exp : Expected)
    (out : Term) {known : List Int}, awaited out.parts ⊆ known →
    Awaits known (fun e => awaited e.parts) (checkUpdates fs exp out)
  | [], _, _, known, hout => by
    rw [checkUpdates]
    exact .pure hout
  | (path, how, e) :: fs, exp, out, known, hout => by
    rw [checkUpdates]
    exact (awaits_checkUpdate (fun exp _ => awaits_checkExpr e exp []) _ _ _ _ hout).bind fun _ =>
      awaits_checkUpdates fs exp _ (List.subset_append_right ..)

theorem awaits_checkArms : ∀ (arms : List (List Surface.Match)) (seen : List Int)
    {known : List Int}, Awaits known awaitedArms (checkArms seen arms)
  | [], _, known => by
    rw [checkArms]
    exact .pure (List.nil_subset known)
  | ms :: arms, seen, known => by
    rw [checkArms]
    refine (awaits_checkMatches ms (List.nil_subset known)).bind fun _ =>
      (conserved_unstash _).bind_awaits fun _ => (respects_checkRepeated ..).bind_awaits fun _ =>
      (awaits_checkArms arms _).bind fun _ => .pure ?_
    simp [awaitedArms]

theorem awaits_checkMatches : ∀ (ms : List Surface.Match) {arm : Arm} {known : List Int},
    arm.awaited ⊆ known → Awaits known Arm.awaited (checkMatches ms arm)
  | [], arm, known, harm => by
    rw [checkMatches]
    exact .pure harm
  | .draw p e :: ms, arm, known, harm => by
    rw [checkMatches]
    refine (respects_freshType ..).bind_awaits fun _ => (respects_freshType ..).bind_awaits fun _ =>
      (awaits_checkExpr e _ []).bind fun _ => (awaits_checkPattern ..).bind fun _ =>
      (awaits_draw _ _ ?_ ?_ ?_).bind fun _ =>
      awaits_checkMatches ms (List.subset_append_right ..)
    all_goals grind
  | .define b :: ms, arm, known, harm => by
    rw [checkMatches]
    refine (awaits_checkSingle (fun exp _ => awaits_checkBody b exp) b).bind fun _ =>
      (awaits_define ?_ ?_).bind fun _ => awaits_checkMatches ms (List.subset_append_right ..)
    all_goals grind

theorem awaits_checkBody : ∀ (b : Bind) (exp : Expected) {known : List Int},
    Awaits known (fun e => awaited e.parts) (checkBody b exp)
  | .mk _ params (some e) _ _ _ _, exp, known => by
    rw [checkBody]
    exact awaits_withExistentials
      (awaits_checkLambda (fun exp _ => awaits_checkExpr e exp []) ..)
  | .mk _ _ none _ _ _ _, _, known => by
    rw [checkBody]
    exact .throw _

theorem awaits_checkGeneral : ∀ (bs : List Bind) (plan : Plan) {known : List Int},
    Awaits known (fun ds => awaited (partsDecls ds)) (checkGeneral plan bs)
  | [], _, known => by
    rw [checkGeneral]
    exact .pure (List.nil_subset known)
  | b :: bs, plan, known => by
    rw [checkGeneral]
    refine .ite ?_ (awaits_checkGeneral bs plan)
    refine (awaits_checkMono (fun exp _ => awaits_checkBody b exp) ..).bind fun _ =>
      (awaits_checkGeneral bs plan).bind fun _ => .pure ?_
    simp [partsDecls]

theorem awaits_checkOthers : ∀ (bs : List Bind) (plan : Plan) {known : List Int},
    Awaits known (fun ds => awaited (partsDecls ds)) (checkOthers plan bs)
  | [], _, known => by
    rw [checkOthers]
    exact .pure (List.nil_subset known)
  | b :: bs, plan, known => by
    rw [checkOthers]
    refine .ite (awaits_checkOthers bs plan) ?_
    split
    · refine (awaits_checkSigned (fun exp _ => awaits_checkBody b exp) ..).bind fun _ =>
        (awaits_checkOthers bs plan).bind fun _ => .pure ?_
      simp [partsDecls]
    · refine (awaits_checkMono (fun exp _ => awaits_checkBody b exp) ..).bind fun _ =>
        (awaits_checkOthers bs plan).bind fun _ => .pure ?_
      simp [partsDecls]

theorem awaits_checkDecls : ∀ (ds : List Surface.Decl) {top : Bool} {known : List Int},
    Awaits known (fun _ => []) (checkDecls top ds)
  | [], top, known => by
    rw [checkDecls]
    exact .pure (List.nil_subset known)
  | d :: ds, top, known => by
    rw [checkDecls]
    exact Respects.get.bind_awaits fun _ => .ite (.pure (List.nil_subset known))
      ((awaits_checkDecl d).bind fun _ => (awaits_checkDecls ds).bind fun _ =>
        .pure (List.nil_subset _))

theorem awaits_checkDecl : ∀ (d : Surface.Decl) {top : Bool} {known : List Int},
    Awaits known (fun _ => []) (checkDecl top d)
  | .synonym n params body range, top, known => by
    rw [checkDecl]
    exact (awaits_checkSynonym ..).bind fun _ => .pure (List.nil_subset _)
  | .newtype n params fields conName range, top, known => by
    rw [checkDecl]
    exact (awaits_checkNewtype ..).bind fun _ => .pure (List.nil_subset _)
  | .primType n kind props range, top, known => by
    rw [checkDecl]
    exact (awaits_checkPrimType ..).bind fun _ => .pure (List.nil_subset _)
  | .paramType n kind range, top, known => by
    rw [checkDecl]
    exact (awaits_checkParamType ..).bind fun _ => .pure (List.nil_subset _)
  | .paramProps props range, top, known => by
    rw [checkDecl]
    exact (awaits_checkParamProps ..).bind fun _ => .pure (List.nil_subset _)
  | .paramFun n sig range, top, known => by
    rw [checkDecl]
    have hadd : ∀ sc, Awaits known (fun _ => []) (addParamFun n sc) := fun _ =>
      awaits_modifyScope_of_groups fun _ => rfl
    exact ((respects_checkSignature _).bind_awaits fun _ => (hadd _).bind fun _ =>
      (conserved_declare ..).bind_awaits fun _ => .pure (List.nil_subset _)).withRange
  | .group recursive binds, top, known => by
    rw [checkDecl]
    exact (conserved_planGroup ..).bind_awaits fun plan =>
      (awaits_checkGroup plan recursive binds (fun _ => awaits_checkGeneral binds plan)
        fun _ => awaits_checkOthers binds plan).bind fun _ =>
      (Respects.forM fun _ _ => conserved_declare ..).bind_awaits fun _ =>
      (awaits_addGroup (List.subset_append_right ..)).bind fun _ => .pure (List.nil_subset _)
  | .submodule n ds range, top, known => by
    rw [checkDecl]
    refine .withRange (Respects.get.bind_awaits fun outer => (awaits_openScope ..).bind fun _ =>
      (awaits_checkDecls ds).bind fun _ => ?_)
    have hrestore : Respects Conserved (modify fun s =>
        { s with params := outer.params, assumptions := outer.assumptions } : Infer PUnit) :=
      .modify fun _ => .of_books rfl rfl
    exact hrestore.bind_awaits fun _ => awaits_closeSubmodule.bind fun _ =>
      .pure (List.nil_subset _)
end

end SizedTypes.Infer
