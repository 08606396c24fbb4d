import Mathlib
import SizedTypes.Proofs.Infer.Frame.Recursion
import SizedTypes.Proofs.Infer.InForce

/-!
# Expressions restore what is in force

The recursion over the surface language. What a signature brings into force is taken back at the
end of its binding, and what the parameters of a submodule bring at its end; a block must not have
parameters of its own.
-/

set_option autoImplicit false

namespace SizedTypes.Infer

open Surface (Bind Expr Pattern Signature TypeExpr TypeParam UpdateHow apartArms apartBinds apartDecls apartEach
  apartFields apartMatches apartUpdates paramIdsOf)
open SizedTypes.Core (Decl Term)

variable {c : Context} {s s₁ s' : State} {ids own : List Int}

/-! ## Signatures -/

theorem names_declare {ps : List Surface.TypeParam} {k k' : Kinding} {out : List Param}
    (h : KindReturns (Kinding.declare ps) c k s out k' s') :
    out.map Param.name = ps.map fun p => some p.name := by
  induction ps generalizing k s out with
  | nil =>
    unfold Kinding.declare at h
    rw [List.mapM_nil, kindReturns_pure] at h
    rw [h.1]
    rfl
  | cons p ps ih =>
    obtain ⟨q, rest, ws, rfl, rfl, hrest⟩ := kindReturns_declare_cons h
    rw [List.map_cons, List.map_cons, ih hrest]

/-- The parameters of a schema are named as those of its signature. -/
theorem names_checkSignature {sig : Signature} {sc : Schema}
    (h : Returns (checkSignature sig) c s sc s') :
    sc.params.map Param.name = sig.params.map fun p => some p.name := by
  unfold checkSignature at h
  replace h := returns_withReader.mp h
  simp only [returns_bind, returns_pure] at h
  obtain ⟨⟨ps, k⟩, s₁, hdeclare, -, -, -, ⟨body, k'⟩, -, -, rfl, -⟩ := h
  rw [← names_declare hdeclare, Kinding.settle, List.map_map]
  rfl

theorem namedIn_checkSignature {sig : Signature} {sc : Schema}
    (h : Returns (checkSignature sig) c s sc s') :
    NamedIn (sig.params.map fun p => p.name.id) sc.params := by
  intro p hp n hn
  have hmem : some n ∈ sc.params.map Param.name := List.mem_map.mpr ⟨p, hp, hn⟩
  rw [names_checkSignature h] at hmem
  obtain ⟨tp, htp, heq⟩ := List.mem_map.mp hmem
  obtain rfl := Option.some.inj heq
  exact List.mem_map.mpr ⟨tp, htp, rfl⟩

/-- A signature of the group for the name of a binding. -/
def Plan.Signed (group : List Bind) (plan : Plan) : Prop :=
  ∀ id sc, plan.signatures.find? id = some sc → NamedIn (paramIdsOf group id) sc.params

theorem signed_planDeclare {plan plan' : Plan} {recursive : Bool} {n : Name} {v : VarType}
    (h : Returns (plan.declare recursive n v) c s plan' s') :
    plan'.signatures = plan.signatures := by
  unfold Plan.declare at h
  split at h
  · simp only [declare, returns_modify_bind, returns_pure] at h
    rw [h.1]
  · rw [(returns_pure.mp h).1]

theorem mem_paramIdsOf {group : List Bind} {b : Bind} (hb : b ∈ group) {id : Int}
    (hid : id ∈ b.paramIds) : id ∈ paramIdsOf group b.name.id :=
  List.mem_flatMap.mpr ⟨b, hb, by rwa [if_pos rfl]⟩

theorem Plan.Signed.add {group : List Bind} {plan plan' : Plan} (hplan : plan.Signed group)
    {recursive : Bool} {b : Bind} (hb : b ∈ group)
    (h : Returns (plan.add recursive b) c s plan' s') : plan'.Signed group := by
  unfold Plan.add at h
  replace h := returns_withReader.mp h
  split at h
  · rename_i sig hsig
    obtain ⟨sc, s₁, hsc, h⟩ := returns_bind.mp h
    intro id sc' hfind
    rw [signed_planDeclare h, Table.find?_insert] at hfind
    split at hfind
    · rename_i hid
      obtain rfl := Option.some.inj hfind
      intro p hp n hn
      have hmem := namedIn_checkSignature hsc p hp n hn
      rw [hid]
      exact mem_paramIdsOf hb (by rwa [Bind.paramIds, hsig])
    · exact hplan id sc' hfind
  · dsimp only at h
    split at h
    · obtain ⟨_, _, h, -⟩ := returns_bind.mp h
      exact absurd h not_returns_throw
    · obtain ⟨v, s₁, hv, h⟩ := returns_bind.mp h
      split at h <;> (intro id sc hfind; rw [signed_planDeclare h] at hfind; exact hplan id sc hfind)

theorem signed_planAll {group binds : List Bind} {plan plan' : Plan} (hplan : plan.Signed group)
    {recursive : Bool} (hbinds : binds ⊆ group)
    (h : Returns (binds.foldlM (fun plan b => plan.add recursive b) plan) c s plan' s') :
    plan'.Signed group := by
  induction binds generalizing plan s with
  | nil =>
    rw [List.foldlM_nil, returns_pure] at h
    exact h.1 ▸ hplan
  | cons b bs ih =>
    rw [List.foldlM_cons, returns_bind] at h
    obtain ⟨plan₁, s₁, hb, h⟩ := h
    obtain ⟨hmem, hbs⟩ := List.cons_subset.mp hbinds
    exact ih (hplan.add hmem hb) hbs h

theorem signed_planGroup {top recursive : Bool} {binds : List Bind} {plan : Plan}
    (h : Returns (planGroup top recursive binds) c s plan s') : plan.Signed binds := by
  unfold planGroup at h
  rw [returns_read_bind] at h
  dsimp only at h
  obtain ⟨⟨⟩, s₁, -, h⟩ := returns_bind.mp h
  refine signed_planAll (fun id sc hfind => ?_) (List.Subset.refl _) h
  simp [Table.find?] at hfind

theorem inForce_planGroup (top recursive : Bool) (binds : List Bind) :
    Respects InForce (planGroup top recursive binds) := by
  have hdeclare : ∀ (plan : Plan) n v, Respects InForce (plan.declare recursive n v) := fun plan n v =>
    .ite ((inForce_declare n v).bind fun _ => .pure _) (.pure _)
  have hadd : ∀ (plan : Plan) b, Respects InForce (plan.add recursive b) := by
    intro plan b
    refine Respects.withRange ?_
    split
    · exact (respects_checkSignature _).bind fun _ => hdeclare ..
    · refine .ite ((Respects.throw _).bind fun _ => ?_) ?_
      all_goals exact (respects_freshVar ..).bind fun _ => .ite (hdeclare ..) (hdeclare ..)
  refine Respects.read.bind fun c => (respects_trace _).bind fun _ => ?_
  generalize ({ mono := _ } : Plan) = plan
  induction binds generalizing plan with
  | nil => exact .pure _
  | cons b bs ih =>
    rw [List.foldlM_cons]
    exact (hadd plan b).bind fun plan => ih plan

/-! ## Functions and bindings -/

theorem inForce_checkParams (i : Nat) (ps : List Pattern) (ts : List Ty) :
    Respects InForce (checkParams i ps ts) := by
  induction ps generalizing i ts with
  | nil =>
    rw [checkParams]
    · exact .pure _
    · simp
  | cons p ps ih =>
    cases ts with
    | nil =>
      rw [checkParams]
      · exact .pure _
      · simp
    | cons t ts =>
      rw [checkParams]
      exact (respects_checkPattern ..).bind fun _ => (inForce_declareAll ..).bind fun _ =>
        (ih ..).bind fun _ => .pure _

theorem restores_checkLambda {params : List Pattern} {exp : Expected} {body : Checker}
    (hbody : ∀ exp, Restores ids (body exp)) : Restores ids (checkLambda params exp body) :=
  .ite (hbody exp) <| (respects_expectArrow ..).restores.bind fun _ =>
    (inForce_checkParams ..).restores.bind fun _ => (hbody _).bind fun _ =>
    (inForce_unstash _).restores.bind fun _ => .pure _

theorem restores_collectGoals {α : Type} {act : Infer α} (h : Restores ids act) :
    Restores ids (collectGoals act) :=
  Respects.get.restores.bind fun _ => (respects_modifyGoals _).restores.bind fun _ =>
    h.bind fun _ => Respects.get.restores.bind fun _ =>
    (respects_modifyGoals _).restores.bind fun _ => .pure _

/-- The scope that is opened is the one that is closed. -/
theorem restores_withExistentials {α : Type} {act : Infer α} (h : Restores ids act) :
    Restores ids (withExistentials act) where
  step {c s s' a} ha hs := by
    simp only [withExistentials, returns_bind, returns_modify, returns_pure] at ha
    obtain ⟨⟨⟩, _, rfl, b, s₁, hact, ⟨⟩, _, rfl, -, rfl⟩ := ha
    have hforce := h.step hact ⟨hs.sorted, hs.known⟩
    obtain ⟨gained, hgained, -⟩ := hforce.existentials
    have htail : s₁.existentials.tail = s.existentials := by rw [hgained]; rfl
    exact .of_fields hforce.typeVars htail hforce.params hforce.assumptions

theorem restores_checkMono {b : Bind} {t : Ty} {body : Checker}
    (h : ∀ exp, Restores ids (body exp)) : Restores ids (checkMono b t body) :=
  ((h _).bind fun _ => .pure _).withRange

theorem restores_checkSigned {b : Bind} {sc : Schema} {body : Checker}
    (hnamed : NamedIn own sc.params) (hnew : ∀ id ∈ own, id ∉ ids)
    (h : ∀ exp, Restores (ids ++ own) (body exp)) : Restores ids (checkSigned b sc body) := by
  refine (Restores.ite (.pure _) ?_).withRange
  refine (restores_withParams hnamed hnew ?_).bind fun _ => .pure _
  refine (restores_collectGoals ?_).bind fun _ =>
    (respects_proveSignature ..).restores.bind fun _ => .pure _
  exact (h _).bind fun _ => (respects_simplifyStore _).restores.bind fun _ => .pure _

theorem restores_checkSingle {b : Bind} {body : Checker} (hnew : ∀ id ∈ b.paramIds, id ∉ ids)
    (h : ∀ exp, Restores (ids ++ b.paramIds) (body exp)) : Restores ids (checkSingle b body) := by
  unfold checkSingle
  split
  · rename_i sig hsig
    have hids : b.paramIds = sig.params.map fun p => p.name.id := by rw [Bind.paramIds, hsig]
    exact (respects_checkSignature _).restores.andThen fun hsc =>
      restores_checkSigned (hids ▸ namedIn_checkSignature hsc) hnew h
  · exact (respects_freshType ..).restores.bind fun _ =>
      restores_checkMono fun exp => (h exp).mono (List.subset_append_left ..)

/-! ## Groups -/

theorem restores_generalizeGroup {plan : Plan} {general : Infer (List Decl)}
    (h : Restores ids general) : Restores ids (generalizeGroup plan general) := by
  refine .ite (.pure _) ((restores_collectGoals ?_).bind fun _ => (respects_generalize ..).restores)
  exact h.bind fun _ => (respects_simplifyStore _).restores.bind fun _ => .pure _

theorem restores_checkGroup {plan : Plan} {recursive : Bool} {binds : List Bind}
    {general others : Infer (List Decl)} (hgeneral : Restores ids general)
    (hothers : Restores ids others) :
    Restores ids (checkGroup plan recursive binds general others) := by
  have hfinish : ∀ (n : Nat) (ds : List Decl), Restores ids (do
      unstash n
      simplifyStore true
      let done : Table Int Decl := Table.ofList (ds.map fun d => (d.name.id, d))
      return binds.filterMap fun b => done.find? b.name.id) := fun n ds =>
    (inForce_unstash n).restores.bind fun _ => (respects_simplifyStore _).restores.bind fun _ =>
      .pure _
  have hgroup : Restores ids (generalizeGroup plan general) := restores_generalizeGroup hgeneral
  refine .ite ?_ ?_
  · exact hgroup.bind fun gs => (inForce_declareAll ..).restores.bind fun _ =>
      hothers.bind fun os => hfinish ..
  · exact hothers.bind fun os => hgroup.bind fun gs => hfinish ..

/-! ## Declarations of types and module parameters -/

theorem inForce_checkSynonym (n : Name) (params : List TypeParam) (body : TypeExpr)
    (range : Range) : Respects InForce (checkSynonym n params body range) := by
  refine Respects.withRange (Respects.get.bind fun s => ?_)
  split
  all_goals try refine (respects_recordWarning _).bind fun _ => ?_
  all_goals exact ((Kinding.respects_declare _).run _).bind fun _ =>
    ((Kinding.respects_infer ..).run _).bind fun _ => inForce_modifyScope _

theorem inForce_checkNewtype (n : Name) (params : List TypeParam)
    (fields : List (String × TypeExpr)) (conName : Option Name) (range : Range) :
    Respects InForce (checkNewtype n params fields conName range) :=
  Respects.withRange <| ((Kinding.respects_declare _).run _).bind fun _ =>
    ((Kinding.respects_checkFields _).run _).bind fun _ => (inForce_modifyScope _).bind fun _ =>
    inForce_declare ..

theorem inForce_checkPrimType (n : Name) (kind : Kind) (props : List TypeExpr) (range : Range) :
    Respects InForce (checkPrimType n kind props range) :=
  Respects.withRange <| ((Kinding.respects_checkProps _).run _).bind fun _ => inForce_modifyScope _

/-- The names of type variables in scope stay the same: a parameter of a module is not one. -/
theorem sameNames_checkParamType {n : Name} {kind : Kind} {a : Unit}
    (h : Returns (checkParamType n kind) c s a s') : SameNames s s' := by
  simp only [checkParamType, returns_bind, returns_modify] at h
  obtain ⟨p, s₁, hp, ⟨⟩, _, rfl, hadd⟩ := h
  have hfresh : InForce s s₁ := (respects_freshParam ..).step hp
  have hadded := (inForce_modifyScope _).step hadd
  exact hfresh.toSameNames.trans ⟨hadded.typeVars, hadded.existentials⟩

theorem sameNames_checkParamProps {props : List TypeExpr} {range : Range} {a : Unit}
    (h : Returns (checkParamProps props range) c s a s') : SameNames s s' := by
  unfold checkParamProps at h
  replace h := returns_withReader.mp h
  simp only [returns_bind, returns_modify] at h
  obtain ⟨⟨ps, k⟩, s₁, hprops, ⟨⟩, _, rfl, ⟨⟩, s₃, hadd, left, s₄, hsimplify, rfl⟩ := h
  have hchecked : InForce s s₁ := ((Kinding.respects_checkProps _).run _).step hprops
  have hadded := (inForce_modifyScope _).step hadd
  have hsimplified : InForce s₃ s₄ := (respects_simplifyGoals _).step hsimplify
  have hafter := hadded.toSameNames.trans hsimplified.toSameNames
  exact hchecked.toSameNames.trans ⟨hafter.typeVars, hafter.existentials⟩

/-! ## The recursion -/

theorem restores_checkUpdate {path : List Selector} {how : UpdateHow} {exp : Expected} {out : Term}
    {value : Checker} (h : ∀ exp, Restores ids (value exp)) :
    Restores ids (checkUpdate path how exp out value) := by
  unfold checkUpdate
  split
  · refine (respects_freshType ..).restores.bind fun _ =>
      (respects_newSelectorGoal ..).restores.bind fun _ => ?_
    split
    · exact (h _).bind fun _ => .pure _
    · exact (h _).bind fun _ => (respects_freshName _).restores.bind fun _ =>
        (respects_monoDecl ..).restores.bind fun _ => .pure _
  · exact (Respects.throw _).restores

mutual
theorem restores_checkExpr : ∀ (e : Expr) (exp : Expected) (slots : List (Ty × Nat))
    {ids : List Int}, e.apart ids = true → Restores ids (checkExpr e exp slots)
  | .located r e, exp, slots, ids, h => by
    rw [checkExpr]
    exact ((restores_checkExpr e exp [] h).bind fun _ => Respects.read.restores.bind fun _ =>
      .pure _).withRange
  | .var n, exp, slots, ids, _ => by
    rw [checkExpr]
    exact (respects_checkVar ..).restores
  | .typeApp f args, exp, slots, ids, _ => by
    rw [checkExpr]
    split
    · exact (respects_checkVar ..).restores
    · exact (Respects.throw _).restores
  | .num value base digits, exp, slots, ids, _ => by
    rw [checkExpr]
    exact (respects_checkNum ..).restores
  | .frac num den, exp, slots, ids, _ => by
    rw [checkExpr]
    exact (respects_checkPrim ..).restores
  | .char code, exp, slots, ids, _ => by
    rw [checkExpr]
    exact (respects_checkPrim ..).restores
  | .string str, exp, slots, ids, _ => by
    rw [checkExpr]
    exact (respects_checkString ..).restores
  | .typeValue t, exp, slots, ids, _ => by
    rw [checkExpr]
    exact ((respects_checkType ..).bind fun _ => respects_checkPrim ..).restores
  | .enumeration bounds, exp, slots, ids, _ => by
    rw [checkExpr]
    exact (respects_checkEnumeration ..).restores
  | .from first, exp, slots, ids, h => by
    rw [checkExpr]
    exact (respects_prim _).restores.bind fun _ => (respects_openSpine ..).restores.bind fun _ =>
      (respects_checkVar ..).restores.bind fun _ => (restores_checkExpr first _ [] h).bind fun _ =>
      .pure _
  | .fromThen first next, exp, slots, ids, h => by
    obtain ⟨hfirst, hnext⟩ := Bool.and_eq_true_iff.mp h
    rw [checkExpr]
    exact (respects_prim _).restores.bind fun _ => (respects_openSpine ..).restores.bind fun _ =>
      (respects_checkVar ..).restores.bind fun _ => (respects_openSpine ..).restores.bind fun _ =>
      (restores_checkExpr first _ [] hfirst).bind fun _ =>
      (restores_checkExpr next _ [] hnext).bind fun _ => .pure _
  | .tuple es, exp, slots, ids, h => by
    rw [checkExpr]
    exact (respects_expectTuple ..).restores.bind fun _ => (restores_checkEach es _ h).bind fun _ =>
      .pure _
  | .record fs, exp, slots, ids, h => by
    rw [checkExpr]
    exact (respects_expectRecord ..).restores.bind fun _ =>
      (restores_checkRecordFields fs _ h).bind fun _ => .pure _
  | .list es, exp, slots, ids, h => by
    rw [checkExpr]
    exact (respects_expectSeq _).restores.bind fun _ => (respects_unifyExact ..).restores.bind fun _ =>
      (restores_checkEach es _ h).bind fun _ => .pure _
  | .select e sel, exp, slots, ids, h => by
    rw [checkExpr]
    exact (respects_freshType ..).restores.bind fun _ => (restores_checkExpr e _ [] h).bind fun _ =>
      (respects_newSelectorGoal ..).restores.bind fun _ => .pure _
  | .update record fields, exp, slots, ids, h => by
    obtain ⟨hrecord, hfields⟩ := Bool.and_eq_true_iff.mp h
    rw [checkExpr]
    exact (restores_checkExpr record exp [] hrecord).bind fun _ =>
      restores_checkUpdates fields exp _ hfields
  | .updater fields, exp, slots, ids, h => by
    rw [checkExpr]
    exact (respects_freshName _).restores.bind fun _ => restores_checkLambda fun _ =>
      (respects_checkVar ..).restores.bind fun _ => restores_checkUpdates fields _ _ h
  | .comp result arms, exp, slots, ids, h => by
    obtain ⟨hresult, harms⟩ := Bool.and_eq_true_iff.mp h
    rw [checkExpr]
    exact (respects_expectSeq _).restores.bind fun _ =>
      (restores_checkArms arms [] harms).bind fun _ => (respects_unifyFrom ..).restores.bind fun _ =>
      (inForce_declareAll ..).restores.bind fun _ =>
      (restores_checkExpr result _ [] hresult).bind fun _ => (inForce_unstash _).restores.bind fun _ =>
      .pure _
  | .app f a, exp, slots, ids, h => by
    obtain ⟨hf, ha⟩ := Bool.and_eq_true_iff.mp h
    rw [checkExpr]
    exact (respects_openSpine ..).restores.bind fun _ => (restores_checkExpr f _ _ hf).bind fun _ =>
      (restores_checkExpr a _ [] ha).bind fun _ => .pure _
  | .ifThenElse c t e, exp, slots, ids, h => by
    obtain ⟨hct, he⟩ := Bool.and_eq_true_iff.mp h
    obtain ⟨hc, ht⟩ := Bool.and_eq_true_iff.mp hct
    rw [checkExpr]
    exact (restores_checkExpr c _ [] hc).bind fun _ => (restores_checkExpr t exp [] ht).bind fun _ =>
      (restores_checkExpr e exp [] he).bind fun _ => .pure _
  | .block body ds, exp, slots, ids, h => by
    obtain ⟨h, hds⟩ := Bool.and_eq_true_iff.mp h
    obtain ⟨hbody, hparams⟩ := Bool.and_eq_true_iff.mp h
    have hdecls : Restores ids (checkDecls false ds) :=
      ⟨fun hr hs => (restores_checkDecls ds hds hr hs).2 hparams⟩
    rw [checkExpr]
    exact (respects_freshName _).restores.bind fun _ => (inForce_openScope ..).restores.bind fun _ =>
      hdecls.bind fun _ => (restores_checkExpr body exp [] hbody).bind fun _ =>
      (inForce_unstash _).restores.bind fun _ =>
      ((inForce_popScope _).bind fun _ => .pure _).restores.bind fun _ => .pure _
  | .typed e t, exp, slots, ids, h => by
    rw [checkExpr]
    exact (respects_checkType ..).restores.bind fun _ => (restores_checkExpr e _ [] h).bind fun _ =>
      (respects_unifyExact ..).restores.bind fun _ => .pure _
  | .lambda ps body, exp, slots, ids, h => by
    rw [checkExpr]
    exact restores_checkLambda fun exp => restores_checkExpr body exp [] h

theorem restores_checkEach : ∀ (es : List Expr) (exps : List Expected) {ids : List Int},
    apartEach ids es = true → Restores ids (checkEach es exps)
  | e :: es, exp :: exps, ids, h => by
    obtain ⟨he, hes⟩ := Bool.and_eq_true_iff.mp h
    rw [checkEach]
    exact (restores_checkExpr e exp [] he).bind fun _ => (restores_checkEach es exps hes).bind fun _ =>
      .pure _
  | [], _, ids, _ => by
    rw [checkEach]
    · exact .pure _
    · simp
  | _ :: _, [], ids, _ => by
    rw [checkEach]
    · exact .pure _
    · simp

theorem restores_checkRecordFields : ∀ (fs : List (String × Expr)) (fields : Table String Ty)
    {ids : List Int}, apartFields ids fs = true → Restores ids (checkRecordFields fs fields)
  | [], _, ids, _ => by
    rw [checkRecordFields]
    exact .pure _
  | (l, e) :: fs, fields, ids, h => by
    obtain ⟨he, hfs⟩ := Bool.and_eq_true_iff.mp h
    rw [checkRecordFields]
    exact (restores_checkExpr e _ [] he).bind fun _ =>
      (restores_checkRecordFields fs fields hfs).bind fun _ => .pure _

theorem restores_checkUpdates : ∀ (fs : List (List Selector × UpdateHow × Expr)) (exp : Expected)
    (out : Term) {ids : List Int}, apartUpdates ids fs = true →
    Restores ids (checkUpdates fs exp out)
  | [], _, _, ids, _ => by
    rw [checkUpdates]
    exact .pure _
  | (path, how, e) :: fs, exp, out, ids, h => by
    obtain ⟨he, hfs⟩ := Bool.and_eq_true_iff.mp h
    rw [checkUpdates]
    exact (restores_checkUpdate fun exp => restores_checkExpr e exp [] he).bind fun _ =>
      restores_checkUpdates fs exp _ hfs

theorem restores_checkArms : ∀ (arms : List (List Surface.Match)) (seen : List Int) {ids : List Int},
    apartArms ids arms = true → Restores ids (checkArms seen arms)
  | [], _, ids, _ => by
    rw [checkArms]
    exact .pure _
  | ms :: arms, seen, ids, h => by
    obtain ⟨hms, harms⟩ := Bool.and_eq_true_iff.mp h
    rw [checkArms]
    exact (restores_checkMatches ms _ hms).bind fun _ => (inForce_unstash _).restores.bind fun _ =>
      (respects_checkRepeated ..).restores.bind fun _ => (restores_checkArms arms _ harms).bind fun _ =>
      .pure _

theorem restores_checkMatches : ∀ (ms : List Surface.Match) (arm : Arm) {ids : List Int},
    apartMatches ids ms = true → Restores ids (checkMatches ms arm)
  | [], _, ids, _ => by
    rw [checkMatches]
    exact .pure _
  | .draw p e :: ms, arm, ids, h => by
    obtain ⟨he, hms⟩ := Bool.and_eq_true_iff.mp h
    rw [checkMatches]
    exact (respects_freshType ..).restores.bind fun _ => (respects_freshType ..).restores.bind fun _ =>
      (restores_checkExpr e _ [] he).bind fun _ => (respects_checkPattern ..).restores.bind fun _ =>
      ((inForce_declareAll ..).bind fun _ => .pure _).restores.bind fun _ =>
      restores_checkMatches ms _ hms
  | .define b :: ms, arm, ids, h => by
    obtain ⟨hb, hms⟩ := Bool.and_eq_true_iff.mp h
    obtain ⟨hnew, hbody⟩ := restores_checkBody b hb
    rw [checkMatches]
    exact (restores_checkSingle hnew hbody).bind fun _ =>
      ((inForce_declare ..).bind fun _ => .pure _).restores.bind fun _ =>
      restores_checkMatches ms _ hms

theorem restores_checkBody : ∀ (b : Bind) {ids own : List Int}, b.apart ids own = true →
    (∀ id ∈ own, id ∉ ids) ∧ ∀ exp, Restores (ids ++ own) (checkBody b exp)
  | .mk _ params (some e) _ _ _ _, ids, own, h => by
    obtain ⟨hnew, he⟩ := Bool.and_eq_true_iff.mp h
    refine ⟨by simpa using hnew, fun exp => ?_⟩
    rw [checkBody]
    exact restores_withExistentials
      (restores_checkLambda fun exp => restores_checkExpr e exp [] he)
  | .mk _ _ none _ _ _ _, ids, own, h => by
    have hnew : own.all (fun id => !ids.contains id) = true := h
    refine ⟨by simpa using hnew, fun exp => ?_⟩
    rw [checkBody]
    exact (Respects.throw _).restores

theorem restores_checkGeneral : ∀ (bs : List Bind) (plan : Plan) {ids : List Int}
    {group : List Bind}, apartBinds ids group bs = true → Restores ids (checkGeneral plan bs)
  | [], _, ids, group, _ => by
    rw [checkGeneral]
    exact .pure _
  | b :: bs, plan, ids, group, h => by
    obtain ⟨hb, hbs⟩ := Bool.and_eq_true_iff.mp h
    obtain ⟨-, hbody⟩ := restores_checkBody b hb
    rw [checkGeneral]
    refine .ite ?_ (restores_checkGeneral bs plan hbs)
    exact (restores_checkMono fun exp => (hbody exp).mono (List.subset_append_left ..)).bind fun _ =>
      (restores_checkGeneral bs plan hbs).bind fun _ => .pure _

theorem restores_checkOthers : ∀ (bs : List Bind) (plan : Plan) {ids : List Int}
    {group : List Bind}, apartBinds ids group bs = true → plan.Signed group →
    Restores ids (checkOthers plan bs)
  | [], _, ids, group, _, _ => by
    rw [checkOthers]
    exact .pure _
  | b :: bs, plan, ids, group, h, hplan => by
    obtain ⟨hb, hbs⟩ := Bool.and_eq_true_iff.mp h
    obtain ⟨hnew, hbody⟩ := restores_checkBody b hb
    have hrest := restores_checkOthers bs plan hbs hplan
    rw [checkOthers]
    refine .ite hrest ?_
    split
    · rename_i sc hsc
      exact (restores_checkSigned (hplan _ _ hsc) hnew hbody).bind fun _ => hrest.bind fun _ => .pure _
    · exact (restores_checkMono fun exp => (hbody exp).mono (List.subset_append_left ..)).bind fun _ =>
        hrest.bind fun _ => .pure _

/-- Declarations that bring no parameters restore what is in force; the names of type variables are
the same in any case. -/
theorem restores_checkDecls : ∀ (ds : List Surface.Decl) {top : Bool} {ids : List Int} {c : Context}
    {s s' : State} {k : Nat}, apartDecls ids ds = true → Returns (checkDecls top ds) c s k s' →
    Knows ids s → SameNames s s' ∧ (ds.all (fun d => !d.changesParams) = true → InForce s s')
  | [], top, ids, c, s, s', k, _, h, _ => by
    rw [checkDecls, returns_pure] at h
    rw [h.2]
    exact ⟨.refl s, fun _ => .refl s⟩
  | d :: ds, top, ids, c, s, s', k, hapart, h, hs => by
    rw [checkDecls, returns_get_bind] at h
    split at h
    · rw [(returns_pure.mp h).2]
      exact ⟨.refl s, fun _ => .refl s⟩
    · simp only [returns_bind, returns_pure] at h
      obtain ⟨m, s₁, hd, n, _, hds, rfl, rfl⟩ := h
      obtain ⟨hapartd, hapartds⟩ : apartDecls ids [d] = true ∧ apartDecls ids ds = true := by
        cases d <;> simp_all [apartDecls]
      obtain ⟨hsame, hforce⟩ := restores_checkDecl d hapartd hd hs
      obtain ⟨hsame', hforce'⟩ := restores_checkDecls ds hapartds hds (hs.of_sameNames hsame)
      refine ⟨hsame.trans hsame', fun hparams => ?_⟩
      obtain ⟨hd, hds⟩ := Bool.and_eq_true_iff.mp hparams
      exact (hforce (by simpa using hd)).trans (hforce' hds)

theorem restores_checkDecl : ∀ (d : Surface.Decl) {top : Bool} {ids : List Int} {c : Context}
    {s s' : State} {k : Nat}, apartDecls ids [d] = true → Returns (checkDecl top d) c s k s' →
    Knows ids s → SameNames s s' ∧ (d.changesParams = false → InForce s s')
  | .synonym n params body range, top, ids, c, s, s', k, _, h, _ => by
    simp only [checkDecl, returns_bind, returns_pure] at h
    obtain ⟨⟨⟩, _, h, rfl, rfl⟩ := h
    have hforce := (inForce_checkSynonym ..).step h
    exact ⟨hforce.toSameNames, fun _ => hforce⟩
  | .newtype n params fields conName range, top, ids, c, s, s', k, _, h, _ => by
    simp only [checkDecl, returns_bind, returns_pure] at h
    obtain ⟨⟨⟩, _, h, rfl, rfl⟩ := h
    have hforce := (inForce_checkNewtype ..).step h
    exact ⟨hforce.toSameNames, fun _ => hforce⟩
  | .primType n kind props range, top, ids, c, s, s', k, _, h, _ => by
    simp only [checkDecl, returns_bind, returns_pure] at h
    obtain ⟨⟨⟩, _, h, rfl, rfl⟩ := h
    have hforce := (inForce_checkPrimType ..).step h
    exact ⟨hforce.toSameNames, fun _ => hforce⟩
  | .paramType n kind range, top, ids, c, s, s', k, _, h, _ => by
    simp only [checkDecl, returns_bind, returns_pure] at h
    obtain ⟨⟨⟩, _, h, rfl, rfl⟩ := h
    exact ⟨sameNames_checkParamType h, nofun⟩
  | .paramProps props range, top, ids, c, s, s', k, _, h, _ => by
    simp only [checkDecl, returns_bind, returns_pure] at h
    obtain ⟨⟨⟩, _, h, rfl, rfl⟩ := h
    exact ⟨sameNames_checkParamProps h, nofun⟩
  | .paramFun n sig range, top, ids, c, s, s', k, _, h, _ => by
    obtain ⟨sc, s₁, s₂, hsig, hadd, rfl, rfl⟩ := returns_checkDecl_paramFun h
    have hsigned : InForce s s₁ := (respects_checkSignature _).step hsig
    have hforce : InForce s (s₂.push (n, .known sc)) :=
      (hsigned.trans ((inForce_modifyScope _).step hadd)).trans (.of_fields rfl rfl rfl rfl)
    exact ⟨hforce.toSameNames, fun _ => hforce⟩
  | .group recursive binds, top, ids, c, s, s', k, hapart, h, hs => by
    have hapart : apartBinds ids binds binds = true := (Bool.and_eq_true_iff.mp hapart).1
    have hgroup : Restores ids (checkDecl top (.group recursive binds)) := by
      rw [checkDecl]
      refine (inForce_planGroup ..).restores.andThen fun hplan => ?_
      have hsigned := signed_planGroup hplan
      exact (restores_checkGroup (restores_checkGeneral binds _ hapart)
        (restores_checkOthers binds _ hapart hsigned)).bind fun _ =>
        (inForce_declareAll ..).restores.bind fun _ => (inForce_modifyScope _).restores.bind fun _ =>
        .pure _
    have hforce := hgroup.step h hs
    exact ⟨hforce.toSameNames, fun _ => hforce⟩
  | .submodule n ds range, top, ids, c, s, s', k, hapart, h, hs => by
    obtain ⟨s₁, hds, hclose⟩ := returns_checkDecl_submodule h
    have hapart : apartDecls ids ds = true := (Bool.and_eq_true_iff.mp hapart).1
    obtain ⟨hsame, -⟩ := restores_checkDecls ds hapart hds ⟨hs.sorted, hs.known⟩
    obtain ⟨child, parent, rest, -, -, rfl⟩ := returns_closeSubmodule hclose
    have hforce : InForce s { s₁ with
        params := s.params, assumptions := s.assumptions
        scopes := { parent with content := Scope.absorb parent.content child.content } :: rest } :=
      ⟨⟨hsame.typeVars, hsame.existentials⟩, rfl, rfl⟩
    exact ⟨hforce.toSameNames, fun _ => hforce⟩
end

/-- Checking an expression leaves the context as it was, except for the innermost scope of existential
variables. Tables are in order, as all tables of a run are. The open scopes are the same ones, with
what they held: these variables are shared by all annotations of a body, so the innermost scope also
holds those that the expression is the first to name. -/
theorem context_of_checkExpr {e : Expr} {exp : Expected} {slots : List (Ty × Nat)} {out : Term}
    (hvars : s.vars.Sorted) (htypeVars : s.typeVars.Sorted) (hapart : e.apart s.typeVars.keys = true)
    (h : Returns (checkExpr e exp slots) c s out s') :
    s'.vars = s.vars ∧ s'.stash = s.stash ∧ SameScopes s.existentials s'.existentials ∧
    (∀ ident t, s.existential ident = some t → s'.existential ident = some t) ∧
    s'.scopes = s.scopes ∧ currentRange.exec c s' = (.ok c.range, s') ∧ s'.params = s.params ∧
    s'.typeVars = s.typeVars ∧ s'.assumptions = s.assumptions := by
  have hframe := (scoped_checkExpr e exp slots).step h hvars
  have hforce := (restores_checkExpr e exp slots hapart).step h ⟨htypeVars, fun _ hid => hid⟩
  exact ⟨hframe.vars, hframe.stash, hforce.existentials, hframe.kept, hframe.scopes, rfl,
    hforce.params, hforce.typeVars, hforce.assumptions⟩

/-! A local function with a signature, in a body that has a type variable in scope. -/

def outerParam : Param := { id := 1, kind := .type, name := some { id := 1, ident := "a" } }

def bodyState : State :=
  { supply := .default, nextTypeVar := 2, nextGoal := 0, params := [outerParam]
    typeVars := [(1, outerParam)], existentials := [[]] }

def bodyContext : Context :=
  { options := {}, solver := Solver.localRules, range := .empty, prims := [], external := {} }

/-- `f where f : {b} b -> b; f = \(y : 'u) -> y`. -/
def localIdentity : Expr :=
  let f : Name := { id := 2, ident := "f" }
  let b : Name := { id := 3, ident := "b" }
  let y : Name := { id := 4, ident := "y" }
  .block (.var f) [.group false [.mk f [.typed (.var y) (.existential "u")] (some (.var y))
    (some { params := [{ name := b }], body := .arrow (.named b []) (.named b []) })
    false false .empty]]

def localIdentityChecks : Bool :=
  match (checkExpr localIdentity ⟨.free ⟨0, .type, [], none⟩, .wildcard⟩ []).exec bodyContext
      bodyState with
  | (.ok _, s') => s'.errors.isEmpty
  | _ => false

theorem context_of_checkExpr_localIdentity : ∃ out s',
    Returns (checkExpr localIdentity ⟨.free ⟨0, .type, [], none⟩, .wildcard⟩ []) bodyContext
      bodyState out s' ∧
    s'.vars = bodyState.vars ∧ s'.stash = bodyState.stash ∧
    SameScopes bodyState.existentials s'.existentials ∧
    (∀ ident t, bodyState.existential ident = some t → s'.existential ident = some t) ∧
    s'.scopes = bodyState.scopes ∧
    currentRange.exec bodyContext s' = (.ok bodyContext.range, s') ∧
    s'.params = bodyState.params ∧ s'.typeVars = bodyState.typeVars ∧
    s'.assumptions = bodyState.assumptions := by
  have h : localIdentityChecks = true := by cbv
  unfold localIdentityChecks at h
  split at h
  · rename_i out s' heq
    have htypeVars : bodyState.typeVars.Sorted := List.pairwise_singleton ..
    have hapart : localIdentity.apart bodyState.typeVars.keys = true := by decide
    exact ⟨out, s', heq, context_of_checkExpr .nil htypeVars hapart heq⟩
  · cases h

/-! The function alone is the first to name `'u` in the scope that is open. -/

/-- `\(y : 'u) -> y`. -/
def namesExistential : Expr :=
  let y : Name := { id := 4, ident := "y" }
  .lambda [.typed (.var y) (.existential "u")] (.var y)

/-- The names of the existential variables in the open scopes afterwards. -/
def existentialsNamed : Option (List (List String)) :=
  match (checkExpr namesExistential ⟨.free ⟨0, .type, [], none⟩, .wildcard⟩ []).exec bodyContext
      bodyState with
  | (.ok _, s') => some (s'.existentials.map fun scope => scope.map Prod.fst)
  | _ => none

/-- The scopes of existential variables are not left exactly as they were. -/
theorem existentials_changed_by_checkExpr :
    bodyState.vars.Sorted ∧ bodyState.typeVars.Sorted ∧
    namesExistential.apart bodyState.typeVars.keys = true ∧
    ∃ out s', Returns (checkExpr namesExistential ⟨.free ⟨0, .type, [], none⟩, .wildcard⟩ [])
        bodyContext bodyState out s' ∧
      s'.existentials ≠ bodyState.existentials := by
  refine ⟨.nil, List.pairwise_singleton .., by decide, ?_⟩
  have h : existentialsNamed = some [["u"]] := by cbv
  unfold existentialsNamed at h
  split at h
  · rename_i out s' heq
    refine ⟨out, s', heq, fun hsame => ?_⟩
    rw [hsame] at h
    exact absurd h (by decide)
  · cases h

end SizedTypes.Infer
