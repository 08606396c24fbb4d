import SizedTypes.Proofs.Infer.Params.Groups

/-!
# The parameters of expressions and declarations

The check of the whole surface language brings in no parameters but those that it draws.
-/

set_option autoImplicit false

namespace SizedTypes.Infer

open Surface (Bind Expr Match UpdateHow)
open SizedTypes.Core (Decl Group Term)

variable {K K' : Set Int}

theorem mem_genericTypes {plan : Plan} (hplan : plan.ParamsIn K) (b : Bind) :
    (((plan.general.find? b.name.id).map Prod.snd).getD default).ParamsIn K := by
  cases hfind : plan.general.find? b.name.id with
  | none => exact .free
  | some e => exact hplan.general _ (Table.mem_of_find? hfind)

theorem mem_monoTypes {plan : Plan} (hplan : plan.ParamsIn K) (b : Bind) :
    ((plan.monos.find? b.name.id).getD default).ParamsIn K := by
  cases hfind : plan.monos.find? b.name.id with
  | none => exact .free
  | some t => exact hplan.monos _ (Table.mem_of_find? hfind)

/-- A definition that is not generalized has the schema of its signature, or no parameters. -/
def Plan.Other (plan : Plan) (d : Decl) : Prop :=
  (d.name.id, d.schema) ∈ plan.signatures ∨ d.schema.params = []

mutual
theorem draws_checkExpr {K : Set Int} : ∀ (e : Expr) {exp : Expected} {slots : List (Ty × Nat)},
    exp.type.ParamsIn K → (∀ sl ∈ slots, sl.1.ParamsIn K) →
    Draws K (checkExpr e exp slots) fun _ _ => True
  | .located r e, exp, slots, hexp, _ => by
    rw [checkExpr]
    refine Draws.withRange ((draws_checkExpr e hexp (List.forall_mem_nil _)).bind
      fun _ _ _ => .read_bind fun _ _ => ?_)
    exact .pure trivial
  | .var n, exp, slots, hexp, _ => by
    rw [checkExpr]
    exact draws_checkVar n [] hexp
  | .typeApp f args, exp, slots, hexp, _ => by
    rw [checkExpr]
    split
    · exact draws_checkVar _ args hexp
    · exact .throw
  | .num value base digits, exp, slots, hexp, _ => by
    rw [checkExpr]
    exact draws_checkNum value base digits hexp
  | .frac num den, exp, slots, hexp, _ => by
    rw [checkExpr]
    exact draws_checkFrac num den hexp
  | .char code, exp, slots, hexp, _ => by
    rw [checkExpr]
    exact draws_checkChar code hexp
  | .string str, exp, slots, hexp, _ => by
    rw [checkExpr]
    exact draws_checkString str hexp
  | .typeValue t, exp, slots, hexp, _ => by
    rw [checkExpr]
    exact (draws_checkType t .num).bind fun hK _ ht =>
      draws_checkNumber ht (hexp.mono hK) (hexp.mono hK)
  | .enumeration bounds, exp, slots, hexp, _ => by
    rw [checkExpr]
    exact draws_checkEnumeration bounds hexp
  | .from first, exp, slots, hexp, _ => by
    rw [checkExpr]
    refine (draws_prim _).bind fun hK n _ => ?_
    refine (draws_openSpine 0 (hexp.mono hK) (by simp)).bind fun _ r hr => ?_
    refine (draws_checkVar n [] hr.1).bind fun hK' _ _ => ?_
    exact (draws_checkExpr first (hr.2.1.mono hK') (List.forall_mem_nil _)).bind
      fun _ _ _ => .pure trivial
  | .fromThen first next, exp, slots, hexp, _ => by
    rw [checkExpr]
    refine (draws_prim _).bind fun hK n _ => ?_
    refine (draws_openSpine 1 (hexp.mono hK) (by simp)).bind fun _ r hr => ?_
    refine (draws_checkVar n [] hr.1).bind fun hK₁ _ _ => ?_
    refine (draws_openSpine 0 (hr.1.mono hK₁) fun sl hsl => (hr.2.2 sl hsl).mono hK₁).bind
      fun hK₂ q hq => ?_
    refine (draws_checkExpr first hq.2.1 (List.forall_mem_nil _)).bind fun hK₃ _ _ => ?_
    exact (draws_checkExpr next (hr.2.1.mono ((hK₁.trans hK₂).trans hK₃))
      (List.forall_mem_nil _)).bind fun _ _ _ => .pure trivial
  | .tuple es, exp, slots, hexp, _ => by
    rw [checkExpr]
    refine (draws_expectTuple _ hexp).bind fun _ ts hts => ?_
    refine (draws_checkEach es fun e he => ?_).bind fun _ _ _ => .pure trivial
    obtain ⟨t, ht, rfl⟩ := List.mem_map.mp he
    exact hts _ (List.fst_mem_of_mem_zipIdx ht)
  | .record fs, exp, slots, hexp, _ => by
    rw [checkExpr]
    exact (draws_expectRecord _ hexp).bind fun _ fields hfields =>
      (draws_checkRecordFields fs hfields).bind fun _ _ _ => .pure trivial
  | .list es, exp, slots, hexp, _ => by
    rw [checkExpr]
    refine (draws_expectSeq hexp).bind fun _ r hr => ?_
    refine (draws_unifyExact ⟨_, _⟩ hr.1 (Ty.paramsIn_num _)).bind fun hK _ _ => ?_
    refine (draws_checkEach es fun e he => ?_).bind fun _ _ _ => .pure trivial
    rw [List.eq_of_mem_replicate he]
    exact hr.2.mono hK
  | .select e sel, exp, slots, hexp, _ => by
    rw [checkExpr]
    refine (draws_freshType ..).bind fun hK₁ t ht => ?_
    refine (draws_checkExpr e ht (List.forall_mem_nil _)).bind fun hK₂ _ _ => ?_
    exact (draws_newSelectorGoal _ (ht.mono hK₂) (hexp.mono (hK₁.trans hK₂))).bind
      fun _ _ _ => .pure trivial
  | .update record fields, exp, slots, hexp, _ => by
    rw [checkExpr]
    exact (draws_checkExpr record hexp (List.forall_mem_nil _)).bind fun hK out _ =>
      draws_checkUpdates fields (hexp.mono hK) out
  | .updater fields, exp, slots, hexp, _ => by
    rw [checkExpr]
    refine (draws_freshName _).bind fun hK x _ => draws_checkLambda _ (hexp.mono hK)
      fun _ exp hexp => ?_
    exact (draws_checkVar x [] hexp).bind fun hK out _ =>
      draws_checkUpdates fields (hexp.mono hK) out
  | .comp result arms, exp, slots, hexp, _ => by
    rw [checkExpr]
    refine (draws_expectSeq hexp).bind fun _ r hr => ?_
    refine (draws_checkArms arms []).bind fun hK₁ arms harms => ?_
    refine (draws_unifyFrom _ ⟨_, _⟩ (hr.1.mono hK₁) (paramsIn_compLength harms)).bind
      fun hK₂ _ _ => ?_
    have hvars : ∀ v ∈ arms.flatMap Arm.vars, v.2.ParamsIn _ := fun v hv => by
      obtain ⟨arm, harm, hv⟩ := List.mem_flatMap.mp hv
      exact ((harms arm harm).vars v hv).mono hK₂
    refine (draws_declareMonos hvars).bind fun hK₃ _ _ => ?_
    refine (draws_checkExpr result (hr.2.mono ((hK₁.trans hK₂).trans hK₃))
      (List.forall_mem_nil _)).bind fun _ _ _ => ?_
    exact (draws_unstash _).bind fun _ _ _ => .pure trivial
  | .app f a, exp, slots, hexp, hslots => by
    rw [checkExpr]
    refine (draws_openSpine _ hexp hslots).bind fun _ r hr => ?_
    refine (draws_checkExpr f hr.1 hr.2.2).bind fun hK _ _ => ?_
    exact (draws_checkExpr a (hr.2.1.mono hK) (List.forall_mem_nil _)).bind
      fun _ _ _ => .pure trivial
  | .ifThenElse c t e, exp, slots, hexp, _ => by
    rw [checkExpr]
    refine (draws_checkExpr c Ty.paramsIn_bit (List.forall_mem_nil _)).bind fun hK₁ _ _ => ?_
    refine (draws_checkExpr t (hexp.mono hK₁) (List.forall_mem_nil _)).bind fun hK₂ _ _ => ?_
    exact (draws_checkExpr e (hexp.mono (hK₁.trans hK₂)) (List.forall_mem_nil _)).bind
      fun _ _ _ => .pure trivial
  | .block body ds, exp, slots, hexp, _ => by
    rw [checkExpr]
    refine (draws_freshName _).bind fun hK₁ x _ => (draws_openScope ..).bind fun hK₂ _ _ => ?_
    refine (draws_checkDecls false ds).bind fun hK₃ n _ => ?_
    have hK := (hK₁.trans hK₂).trans hK₃
    refine (draws_checkExpr body (hexp.mono hK) (List.forall_mem_nil _)).bind fun _ _ _ => ?_
    refine (draws_unstash n).bind fun _ _ _ => ?_
    exact Draws.bind (P := fun _ _ => True) ((draws_popScope _).bind fun _ _ _ => .pure trivial)
      fun _ _ _ => .pure trivial
  | .typed e t, exp, slots, hexp, _ => by
    rw [checkExpr]
    refine (draws_checkType t .type).bind fun hK u hu => ?_
    refine (draws_checkExpr e hu (List.forall_mem_nil _)).bind fun hK' _ _ => ?_
    exact (draws_unifyExact _ (hexp.mono (hK.trans hK')) (hu.mono hK')).bind
      fun _ _ _ => .pure trivial
  | .lambda ps body, exp, slots, hexp, _ => by
    rw [checkExpr]
    exact draws_checkLambda ps hexp fun _ _ hexp =>
      draws_checkExpr body hexp (List.forall_mem_nil _)

theorem draws_checkEach {K : Set Int} : ∀ (es : List Expr) {exps : List Expected},
    (∀ e ∈ exps, e.type.ParamsIn K) → Draws K (checkEach es exps) fun _ _ => True
  | e :: es, exp :: exps, h => by
    obtain ⟨hexp, hexps⟩ := List.forall_mem_cons.mp h
    rw [checkEach]
    exact (draws_checkExpr e hexp (List.forall_mem_nil _)).bind fun hK _ _ =>
      (draws_checkEach es fun e he => (hexps e he).mono hK).bind fun _ _ _ => .pure trivial
  | [], _, _ => by
    rw [checkEach]
    · exact .pure trivial
    · simp
  | _ :: _, [], _ => by
    rw [checkEach]
    · exact .pure trivial
    · simp

theorem draws_checkRecordFields {K : Set Int} : ∀ (fs : List (String × Expr))
    {fields : Table String Ty}, (∀ f ∈ fields, f.2.ParamsIn K) →
    Draws K (checkRecordFields fs fields) fun _ _ => True
  | [], _, _ => by
    rw [checkRecordFields]
    exact .pure trivial
  | (l, e) :: fs, fields, h => by
    rw [checkRecordFields]
    refine (draws_checkExpr e ?_ (List.forall_mem_nil _)).bind fun hK _ _ =>
      (draws_checkRecordFields fs fun f hf => (h f hf).mono hK).bind fun _ _ _ => .pure trivial
    exact paramsIn_getField h l

theorem draws_checkUpdates {K : Set Int} : ∀ (fs : List (List Selector × UpdateHow × Expr))
    {exp : Expected}, exp.type.ParamsIn K → ∀ out : Term,
    Draws K (checkUpdates fs exp out) fun _ _ => True
  | [], _, _, _ => by
    rw [checkUpdates]
    exact .pure trivial
  | (path, how, e) :: fs, exp, hexp, out => by
    rw [checkUpdates]
    exact (draws_checkUpdate path how hexp out fun _ _ hexp =>
      draws_checkExpr e hexp (List.forall_mem_nil _)).bind fun hK out _ =>
        draws_checkUpdates fs (hexp.mono hK) out

theorem draws_checkArms {K : Set Int} : ∀ (arms : List (List Match)) (seen : List Int),
    Draws K (checkArms seen arms) fun K' arms => ∀ arm ∈ arms, arm.ParamsIn K'
  | [], _ => by
    rw [checkArms]
    exact .pure (List.forall_mem_nil _)
  | ms :: arms, seen => by
    rw [checkArms]
    refine (draws_checkMatches ms ⟨by simp, List.forall_mem_nil _⟩).bind fun _ arm harm => ?_
    refine (draws_unstash _).bind fun hK₁ _ _ => (draws_checkRepeated ..).bind fun hK₂ seen _ => ?_
    refine (draws_checkArms arms seen).bind fun hK₃ rest hrest => .pure ?_
    exact List.forall_mem_cons.mpr ⟨harm.mono ((hK₁.trans hK₂).trans hK₃), hrest⟩

theorem draws_checkMatches {K : Set Int} : ∀ (ms : List Match) {arm : Arm}, arm.ParamsIn K →
    Draws K (checkMatches ms arm) Arm.ParamsIn
  | [], arm, harm => by
    rw [checkMatches]
    exact .pure harm
  | .draw p e :: ms, arm, harm => by
    rw [checkMatches]
    refine (draws_freshType ..).bind fun hK₁ n hn => (draws_freshType ..).bind
      fun hK₂ elem helem => ?_
    refine (draws_checkExpr e (Ty.paramsIn_seq.mpr ⟨hn.mono hK₂, helem⟩)
      (List.forall_mem_nil _)).bind fun hK₃ out _ => ?_
    refine (draws_checkPattern p (helem.mono hK₃)).bind fun hK₄ m hm => ?_
    have hK := (hK₂.trans hK₃).trans hK₄
    exact (draws_armDraw (harm.mono (hK₁.trans hK)) (hn.mono hK) elem out hm).bind
      fun _ arm harm => draws_checkMatches ms harm
  | .define b :: ms, arm, harm => by
    rw [checkMatches]
    refine (draws_checkSingle b fun _ _ hexp => draws_checkBody b hexp).bind fun hK d hd => ?_
    exact (draws_armDefine (harm.mono hK) hd).bind fun _ arm harm => draws_checkMatches ms harm

theorem draws_checkBody {K : Set Int} : ∀ (b : Bind) {exp : Expected}, exp.type.ParamsIn K →
    Draws K (checkBody b exp) fun _ _ => True
  | .mk _ params (some e) _ _ _ _, exp, hexp => by
    rw [checkBody]
    exact draws_withExistentials (fun _ _ _ => trivial) fun hK =>
      draws_checkLambda params (hexp.mono hK) fun _ _ hexp =>
        draws_checkExpr e hexp (List.forall_mem_nil _)
  | .mk _ _ none _ _ _ _, _, _ => by
    rw [checkBody]
    exact .throw

theorem draws_checkGeneral {K : Set Int} : ∀ (bs : List Bind) {plan : Plan}, plan.ParamsIn K →
    Draws K (checkGeneral plan bs) fun K' ds => ∀ d ∈ ds, d.schema.ParamsIn K'
  | [], plan, _ => by
    rw [checkGeneral]
    exact .pure (List.forall_mem_nil _)
  | b :: bs, plan, hplan => by
    rw [checkGeneral]
    refine .ite ?_ (draws_checkGeneral bs hplan)
    refine (draws_checkMono b (mem_genericTypes hplan b) fun _ _ hexp =>
      draws_checkBody b hexp).bind fun hK d hd => ?_
    refine (draws_checkGeneral bs (hplan.mono hK)).bind fun hK' ds hds => .pure ?_
    exact List.forall_mem_cons.mpr ⟨hd.2.2.mono hK', hds⟩

theorem draws_checkOthers {K : Set Int} : ∀ (bs : List Bind) {plan : Plan}, plan.ParamsIn K →
    Draws K (checkOthers plan bs) fun K' ds =>
      ∀ d ∈ ds, d.schema.ParamsIn K' ∧ plan.Other d
  | [], plan, _ => by
    rw [checkOthers]
    exact .pure (List.forall_mem_nil _)
  | b :: bs, plan, hplan => by
    rw [checkOthers]
    have hrest : ∀ {K' : Set Int} {d : Decl}, K ⊆ K' → d.schema.ParamsIn K' → plan.Other d →
        Draws K' (do return d :: (← checkOthers plan bs)) fun K' ds =>
          ∀ d ∈ ds, d.schema.ParamsIn K' ∧ plan.Other d := fun hK hd hother =>
      (draws_checkOthers bs (hplan.mono hK)).bind fun hK' ds hds =>
        .pure (List.forall_mem_cons.mpr ⟨⟨hd.mono hK', hother⟩, hds⟩)
    refine .ite (draws_checkOthers bs hplan) ?_
    split
    · rename_i sc hfind
      have hmem := Table.mem_of_find? hfind
      refine (draws_checkSigned b (hplan.signatures _ hmem) fun _ _ hexp =>
        draws_checkBody b hexp).bind fun hK d hd => hrest hK hd.2.2 (Or.inl ?_)
      rw [hd.1, hd.2.1]
      exact hmem
    · exact (draws_checkMono b (mem_monoTypes hplan b) fun _ _ hexp =>
        draws_checkBody b hexp).bind fun hK d hd => hrest hK hd.2.2 (Or.inr hd.2.1)

theorem draws_checkDecls {K : Set Int} (top : Bool) : ∀ ds : List Surface.Decl,
    Draws K (checkDecls top ds) fun _ _ => True
  | [] => by
    rw [checkDecls]
    exact .pure trivial
  | d :: ds => by
    rw [checkDecls]
    refine .get_bind fun _ _ => .ite (.pure trivial) ?_
    exact (draws_checkDecl top d).bind fun _ _ _ => (draws_checkDecls top ds).bind
      fun _ _ _ => .pure trivial

theorem draws_checkDecl {K : Set Int} (top : Bool) : ∀ d : Surface.Decl,
    Draws K (checkDecl top d) fun _ _ => True
  | .synonym n params body range => by
    rw [checkDecl]
    exact (draws_checkSynonym n params body range).bind fun _ _ _ => .pure trivial
  | .newtype n params fields conName range => by
    rw [checkDecl]
    exact (draws_checkNewtype n params fields conName range).bind fun _ _ _ => .pure trivial
  | .primType n kind props range => by
    rw [checkDecl]
    exact (draws_checkPrimType n kind props range).bind fun _ _ _ => .pure trivial
  | .paramType n kind range => by
    rw [checkDecl]
    exact (draws_checkParamType n kind).bind fun _ _ _ => .pure trivial
  | .paramProps props range => by
    rw [checkDecl]
    exact (draws_checkParamProps props range).bind fun _ _ _ => .pure trivial
  | .paramFun n sig range => by
    rw [checkDecl]
    refine Draws.withRange ((draws_checkSignature sig).bind fun _ sc hsc => ?_)
    exact (draws_addParamFun n sc).bind fun hK _ _ =>
      (draws_declare n (v := .known sc) (hsc.mono hK)).bind fun _ _ _ => .pure trivial
  | .group recursive binds => by
    rw [checkDecl]
    refine (draws_planGroup top recursive binds).bind fun _ plan hplan => ?_
    refine (draws_checkGroup plan recursive binds
      (fun hK => draws_checkGeneral binds (hplan.mono hK))
      (fun hK => (draws_checkOthers binds (hplan.mono hK)).weaken fun _ _ h d hd => (h d hd).1)
      le_rfl).bind fun _ out hout => ?_
    refine (Draws.forM (I := fun K' (d : Decl) => d.schema.ParamsIn K')
      (fun hK _ h => Schema.ParamsIn.mono h hK) hout
      fun {_ d} _ hd => draws_declare d.name (v := .known d.schema) hd).bind fun hK _ _ => ?_
    exact (draws_addGroup recursive fun d hd => (hout d hd).mono hK).bind fun _ _ _ => .pure trivial
  | .submodule n ds range => by
    rw [checkDecl]
    refine Draws.withRange (.get_bind fun outer houter => ?_)
    refine (draws_openScope ..).bind fun hK₁ _ _ => ?_
    refine (draws_checkDecls true ds).bind fun hK₂ n _ => ?_
    have houter := houter.mono (hK₁.trans hK₂)
    refine .bind (.modify (fun s hs => { hs with
      params := houter.params, assumptions := houter.assumptions }) fun _ => ⟨rfl, rfl⟩)
      fun hK₃ _ _ => ?_
    have hclose : ∀ {K' : Set Int}, Draws K' closeSubmodule fun _ _ => True :=
      (draws_popScope _).bind fun _ child hchild => draws_modifyScope fun m hm => hm.absorb hchild
    exact hclose.bind fun _ _ _ => .pure trivial
end

end SizedTypes.Infer
