import SizedTypes.Proofs.Infer.Provides.Groups

/-!
# Expressions and declarations find their names

The recursion over the surface language: checking what is in scope finds every name. Declarations
make visible what they declare; an expression takes back what it declares.
-/

set_option autoImplicit false

namespace SizedTypes.Infer

open Surface (Bind Expr Match UpdateHow Visible armsInScope bindIds bindsInScope declsInScope
  eachInScope fieldsInScope le_declareAll matchesInScope nil_mem_ownParams paramIds_mem_ownParams
  updatesInScope updatesInScope_of_le)
open SizedTypes.Core (Decl Term)

variable {c : Context} {s s₁ s' : State}

/-! ## The variables of comprehensions -/

/-- The ids of the variables of an arm. -/
def Arm.ids (arm : Arm) : List Int := arm.vars.map fun v => v.1.id

theorem ids_checkMatches {ms : List Match} {arm arm' : Arm}
    (h : Returns (checkMatches ms arm) c s arm' s') :
    arm'.ids = arm.ids ++ ms.flatMap Match.binds := by
  induction ms generalizing arm s with
  | nil =>
    rw [checkMatches, returns_pure] at h
    rw [h.1, List.flatMap_nil, List.append_nil]
  | cons m ms ih =>
    cases m with
    | draw p e =>
      simp only [checkMatches, Arm.draw, returns_bind, returns_pure] at h
      obtain ⟨n, _, -, elem, _, -, out, _, -, m, _, hm, _, _, ⟨⟨⟩, _, -, rfl, rfl⟩, h⟩ := h
      have hnames := names_checkPattern p hm
      rw [ih h, List.flatMap_cons, ← List.append_assoc, Match.binds, ← hnames, Matched.names,
        List.map_map, Arm.ids, List.map_append]
      rfl
    | define b =>
      simp only [checkMatches, Arm.define, returns_bind, returns_pure] at h
      obtain ⟨d, _, hd, _, _, ⟨⟨⟩, _, -, rfl, rfl⟩, h⟩ := h
      have hname := name_checkSingle hd
      rw [ih h, List.flatMap_cons, ← List.append_assoc, Match.binds, ← hname, Arm.ids,
        List.map_append]
      rfl

theorem ids_checkArms {seen : List Int} {mss : List (List Match)} {arms : List Arm}
    (h : Returns (checkArms seen mss) c s arms s') :
    (arms.flatMap Arm.vars).map (fun v => v.1.id) = mss.flatten.flatMap Match.binds := by
  induction mss generalizing seen arms s s' with
  | nil =>
    rw [checkArms, returns_pure] at h
    rw [h.1]
    rfl
  | cons ms mss ih =>
    rw [checkArms] at h
    obtain ⟨arm, _, harm, h⟩ := returns_bind.mp h
    iterate 2 obtain ⟨_, _, -, h⟩ := returns_bind.mp h
    obtain ⟨arms, _, harms, h⟩ := returns_bind.mp h
    obtain ⟨rfl, -⟩ := returns_pure.mp h
    have hids : arm.vars.map (fun v => v.1.id) = ms.flatMap Match.binds := ids_checkMatches harm
    rw [List.flatMap_cons, List.map_append, hids, ih harms, List.flatten_cons, List.flatMap_append]

theorem inScope_unlocated {v : Visible} (e : Expr) : e.unlocated.inScope v = e.inScope v := by
  cases e with
  | located r e => exact inScope_unlocated e
  | _ => rfl

/-! ## The recursion -/

mutual
theorem resolves_checkExpr : ∀ (e : Expr) (exp : Expected) (slots : List (Ty × Nat)) {v : Visible},
    e.inScope v = true → Resolves v (checkExpr e exp slots) v
  | .located r e, exp, slots, v, h => by
    rw [checkExpr]
    exact .withRange ((resolves_checkExpr e exp [] h).bind fun _ => .read_bind fun _ => .pure _)
  | .var n, exp, slots, v, h => by
    rw [checkExpr]
    exact resolves_checkVar exp h (List.forall_mem_nil _)
  | .typeApp f args, exp, slots, v, h => by
    obtain ⟨hf, hargs⟩ := Bool.and_eq_true_iff.mp h
    rw [← inScope_unlocated] at hf
    rw [checkExpr]
    split
    · rename_i n hn
      rw [hn] at hf
      exact resolves_checkVar exp hf (List.all_eq_true.mp hargs)
    · exact .throw rfl
  | .num value base digits, exp, slots, v, h => by
    rw [checkExpr]
    exact resolves_checkPrim _ _ _ h
  | .frac num den, exp, slots, v, h => by
    rw [checkExpr]
    exact resolves_checkPrim _ _ _ h
  | .char code, exp, slots, v, h => by
    rw [checkExpr]
    exact resolves_checkPrim _ _ _ h
  | .string str, exp, slots, v, h => by
    rw [checkExpr]
    exact resolves_checkString _ _ h
  | .typeValue t, exp, slots, v, h => by
    obtain ⟨hprim, ht⟩ := Bool.and_eq_true_iff.mp h
    rw [checkExpr]
    exact (resolves_checkType _ ht).bind fun _ => resolves_checkPrim _ _ _ hprim
  | .enumeration bounds, exp, slots, v, h => by
    rw [checkExpr]
    exact resolves_checkEnumeration _ h
  | .from first, exp, slots, v, h => by
    obtain ⟨hprim, hfirst⟩ := Bool.and_eq_true_iff.mp h
    rw [checkExpr]
    exact (resolves_prim _).andThen fun hs hn => (resolves_openSpine ..).bind fun _ =>
      (resolves_checkVar _ (value_of_prim hs hprim hn) (List.forall_mem_nil _)).bind fun _ =>
      (resolves_checkExpr first _ [] hfirst).bind fun _ => .pure _
  | .fromThen first next, exp, slots, v, h => by
    obtain ⟨h, hnext⟩ := Bool.and_eq_true_iff.mp h
    obtain ⟨hprim, hfirst⟩ := Bool.and_eq_true_iff.mp h
    rw [checkExpr]
    exact (resolves_prim _).andThen fun hs hn => (resolves_openSpine ..).bind fun _ =>
      (resolves_checkVar _ (value_of_prim hs hprim hn) (List.forall_mem_nil _)).bind fun _ =>
      (resolves_openSpine ..).bind fun _ => (resolves_checkExpr first _ [] hfirst).bind fun _ =>
      (resolves_checkExpr next _ [] hnext).bind fun _ => .pure _
  | .tuple es, exp, slots, v, h => by
    rw [checkExpr]
    exact (resolves_expectTuple ..).bind fun _ => (resolves_checkEach es _ h).bind fun _ => .pure _
  | .record fs, exp, slots, v, h => by
    rw [checkExpr]
    exact (resolves_expectRecord ..).bind fun _ => (resolves_checkRecordFields fs _ h).bind fun _ =>
      .pure _
  | .list es, exp, slots, v, h => by
    rw [checkExpr]
    exact (resolves_expectSeq _).bind fun _ => (resolves_unifyExact ..).bind fun _ =>
      (resolves_checkEach es _ h).bind fun _ => .pure _
  | .select e sel, exp, slots, v, h => by
    rw [checkExpr]
    exact (resolves_freshType ..).bind fun _ => (resolves_checkExpr e _ [] h).bind fun _ =>
      (resolves_newSelectorGoal ..).bind fun _ => .pure _
  | .update record fields, exp, slots, v, h => by
    obtain ⟨hrecord, hfields⟩ := Bool.and_eq_true_iff.mp h
    rw [checkExpr]
    exact (resolves_checkExpr record exp [] hrecord).bind fun _ =>
      resolves_checkUpdates fields exp _ hfields
  | .updater fields, exp, slots, v, h => by
    rw [checkExpr]
    refine (resolves_freshName _).bind fun x => resolves_checkLambda rfl (fun _ =>
      (framed_checkVar ..).scoped.bind fun _ => scoped_checkUpdates fields _ _) fun exp => ?_
    have hx : (v.withValues [x.id]).value x.id = true :=
      Visible.value_withValues.mpr (Or.inr (List.mem_singleton_self _))
    have hfields : updatesInScope (v.withValues [x.id]) fields = true :=
      updatesInScope_of_le fields (Visible.le_withValues v _) (List.Subset.refl _) h
    exact (resolves_checkVar _ hx (List.forall_mem_nil _)).bind fun _ =>
      resolves_checkUpdates fields exp _ hfields
  | .comp result arms, exp, slots, v, h => by
    obtain ⟨harms, hresult⟩ := Bool.and_eq_true_iff.mp h
    refine Resolves.restored (w := v.outer) ?_ (scoped_checkExpr ..) (List.Subset.refl _)
    rw [checkExpr]
    refine (resolves_expectSeq _).bind fun _ => (resolves_checkArms arms [] harms).andThen
      fun _ hchecked => (resolves_unifyFrom ..).bind fun _ => ?_
    rw [← ids_checkArms hchecked] at hresult
    exact (resolves_declareEach _ Prod.fst fun x => .known (.mono x.2)).bind fun _ =>
      (resolves_checkExpr result _ [] hresult).bind fun _ => (resolves_unstash _).bind fun _ =>
      .pure _
  | .app f a, exp, slots, v, h => by
    obtain ⟨hf, ha⟩ := Bool.and_eq_true_iff.mp h
    rw [checkExpr]
    exact (resolves_openSpine ..).bind fun _ => (resolves_checkExpr f _ _ hf).bind fun _ =>
      (resolves_checkExpr a _ [] ha).bind fun _ => .pure _
  | .ifThenElse c t e, exp, slots, v, h => by
    obtain ⟨hct, he⟩ := Bool.and_eq_true_iff.mp h
    obtain ⟨hc, ht⟩ := Bool.and_eq_true_iff.mp hct
    rw [checkExpr]
    exact (resolves_checkExpr c _ [] hc).bind fun _ => (resolves_checkExpr t exp [] ht).bind fun _ =>
      (resolves_checkExpr e exp [] he).bind fun _ => .pure _
  | .block body ds, exp, slots, v, h => by
    obtain ⟨hds, hbody⟩ := Bool.and_eq_true_iff.mp h
    have hle : v.Le [] (v.declareAll ds) := le_declareAll ds v
    refine Resolves.restored (w := (v.declareAll ds).outer) ?_ (scoped_checkExpr ..)
      (hle.typeVars ▸ List.Subset.refl v.typeVars)
    rw [checkExpr]
    exact (resolves_freshName _).bind fun _ => (resolves_openScope ..).bind fun _ =>
      (resolves_checkDecls ds hds).bind fun _ => (resolves_checkExpr body exp [] hbody).bind fun _ =>
      (resolves_unstash _).bind fun _ => resolves_closeBlock.bind fun _ => .pure _
  | .typed e t, exp, slots, v, h => by
    obtain ⟨he, ht⟩ := Bool.and_eq_true_iff.mp h
    rw [checkExpr]
    exact (resolves_checkType _ ht).bind fun _ => (resolves_checkExpr e _ [] he).bind fun _ =>
      (resolves_unifyExact ..).bind fun _ => .pure _
  | .lambda ps body, exp, slots, v, h => by
    obtain ⟨hps, hbody⟩ := Bool.and_eq_true_iff.mp h
    rw [checkExpr]
    exact resolves_checkLambda hps (fun exp => scoped_checkExpr body exp []) fun exp =>
      resolves_checkExpr body exp [] hbody

theorem resolves_checkEach : ∀ (es : List Expr) (exps : List Expected) {v : Visible},
    eachInScope v es = true → Resolves v (checkEach es exps) v
  | e :: es, exp :: exps, v, h => by
    obtain ⟨he, hes⟩ := Bool.and_eq_true_iff.mp h
    rw [checkEach]
    exact (resolves_checkExpr e exp [] he).bind fun _ => (resolves_checkEach es exps hes).bind fun _ =>
      .pure _
  | [], _, v, _ => by
    rw [checkEach]
    · exact .pure _
    · simp
  | _ :: _, [], v, _ => by
    rw [checkEach]
    · exact .pure _
    · simp

theorem resolves_checkRecordFields : ∀ (fs : List (String × Expr)) (fields : Table String Ty)
    {v : Visible}, fieldsInScope v fs = true → Resolves v (checkRecordFields fs fields) v
  | [], _, v, _ => by
    rw [checkRecordFields]
    exact .pure _
  | (l, e) :: fs, fields, v, h => by
    obtain ⟨he, hfs⟩ := Bool.and_eq_true_iff.mp h
    rw [checkRecordFields]
    exact (resolves_checkExpr e _ [] he).bind fun _ =>
      (resolves_checkRecordFields fs fields hfs).bind fun _ => .pure _

theorem resolves_checkUpdates : ∀ (fs : List (List Selector × UpdateHow × Expr)) (exp : Expected)
    (out : Term) {v : Visible}, updatesInScope v fs = true →
    Resolves v (checkUpdates fs exp out) v
  | [], _, _, v, _ => by
    rw [checkUpdates]
    exact .pure _
  | (path, how, e) :: fs, exp, out, v, h => by
    obtain ⟨he, hfs⟩ := Bool.and_eq_true_iff.mp h
    rw [checkUpdates]
    exact (resolves_checkUpdate fun exp => resolves_checkExpr e exp [] he).bind fun _ =>
      resolves_checkUpdates fs exp _ hfs

theorem resolves_checkArms : ∀ (arms : List (List Match)) (seen : List Int) {v : Visible},
    armsInScope v arms = true → Resolves v (checkArms seen arms) v
  | [], _, v, _ => by
    rw [checkArms]
    exact .pure _
  | ms :: arms, seen, v, h => by
    obtain ⟨hms, harms⟩ := Bool.and_eq_true_iff.mp h
    have harm : Resolves v (do
        let arm ← checkMatches ms {}
        unstash arm.vars.length
        return arm) v := by
      refine Resolves.restored (w := v.outer) ((resolves_checkMatches ms {} hms).bind fun _ =>
        (resolves_unstash _).bind fun _ => .pure _) ⟨fun h hs => ?_⟩ (List.Subset.refl _)
      simp only [returns_bind, unstash, returns_modify, returns_pure] at h
      obtain ⟨arm, s₁, harm, ⟨⟩, _, rfl, -, rfl⟩ := h
      obtain ⟨vs, hlen, hdeclared, hscopes⟩ := declared_checkMatches ms harm hs
      exact frame_unstashArm (hlen.trans (Nat.zero_add _)) hdeclared hscopes hs
    have hall := harm.bind fun arm => (resolves_checkRepeated seen arm.vars).bind fun seen =>
      (resolves_checkArms arms seen harms).bind fun rest => .pure (arm :: rest)
    rw [checkArms]
    simpa only [bind_assoc, pure_bind] using hall

theorem resolves_checkMatches : ∀ (ms : List Match) (arm : Arm) {v : Visible},
    matchesInScope v ms = true →
    Resolves v (checkMatches ms arm) (v.withValues (ms.flatMap Match.binds))
  | [], arm, v, _ => by
    rw [checkMatches, List.flatMap_nil, Visible.withValues_nil]
    exact .pure _
  | .draw p e :: ms, arm, v, h => by
    obtain ⟨h, hms⟩ := Bool.and_eq_true_iff.mp h
    obtain ⟨he, hp⟩ := Bool.and_eq_true_iff.mp h
    rw [checkMatches, List.flatMap_cons, ← Visible.withValues_withValues]
    exact (resolves_freshType ..).bind fun _ => (resolves_freshType ..).bind fun _ =>
      (resolves_checkExpr e _ [] he).bind fun _ => (resolves_checkPattern p _ hp).andThen fun _ hm =>
      ((resolves_declarePattern hm).bind fun _ => .pure _).bind fun _ =>
      resolves_checkMatches ms _ hms
  | .define b :: ms, arm, v, h => by
    obtain ⟨h, hms⟩ := Bool.and_eq_true_iff.mp h
    obtain ⟨hsig, hb⟩ := Bool.and_eq_true_iff.mp h
    obtain ⟨hnew, hbody⟩ := resolves_checkBody b hb
    rw [checkMatches, List.flatMap_cons, ← Visible.withValues_withValues]
    refine (resolves_checkSingle hsig hnew hbody).andThen fun _ hd => ?_
    refine (Resolves.bind (w := v.withValues [b.name.id]) ?_ fun _ => .pure _).bind fun _ =>
      resolves_checkMatches ms _ hms
    rw [← name_checkSingle hd]
    exact resolves_declare ..

theorem resolves_checkBody : ∀ (b : Bind) {v : Visible} {own : List Int}, b.inScope v own = true →
    (∀ id ∈ own, id ∉ v.typeVars) ∧
      ∀ exp, Resolves (v.withTypeVars own) (checkBody b exp) (v.withTypeVars own)
  | .mk _ params (some e) _ _ _ _, v, own, h => by
    obtain ⟨h, he⟩ := Bool.and_eq_true_iff.mp h
    obtain ⟨hnew, hps⟩ := Bool.and_eq_true_iff.mp h
    refine ⟨by simpa using hnew, fun exp => ?_⟩
    rw [checkBody]
    exact resolves_withExistentials (resolves_checkLambda hps (fun exp => scoped_checkExpr e exp [])
      fun exp => resolves_checkExpr e exp [] he)
  | .mk _ _ none _ _ _ _, v, own, h => by
    have hnew : own.all (fun id => !v.typeVars.contains id) = true := h
    refine ⟨by simpa using hnew, fun exp => ?_⟩
    rw [checkBody]
    exact .throw rfl

theorem resolves_checkGeneral : ∀ (bs : List Bind) (plan : Plan) {v : Visible} {group : List Bind},
    bindsInScope v group bs = true → Resolves v (checkGeneral plan bs) v
  | [], _, v, group, _ => by
    rw [checkGeneral]
    exact .pure _
  | b :: bs, plan, v, group, h => by
    obtain ⟨hb, hbs⟩ := Bool.and_eq_true_iff.mp h
    have hrest := resolves_checkGeneral bs plan hbs
    have hbody : ∀ own ∈ b.ownParams group, (∀ id ∈ own, id ∉ v.typeVars) ∧
        ∀ exp, Resolves (v.withTypeVars own) (checkBody b exp) (v.withTypeVars own) :=
      fun own hown => resolves_checkBody b (List.all_eq_true.mp hb own hown)
    rw [checkGeneral]
    split
    · rename_i hgen
      obtain ⟨hunsigned, -⟩ := Bool.and_eq_true_iff.mp hgen
      obtain ⟨-, hbody⟩ := hbody [] (nil_mem_ownParams (Option.isNone_iff_eq_none.mp hunsigned))
      rw [Visible.withTypeVars_nil] at hbody
      exact (resolves_checkMono hbody).bind fun _ => hrest.bind fun _ => .pure _
    · exact hrest

theorem resolves_checkOthers : ∀ (bs : List Bind) (plan : Plan) {v : Visible} {group : List Bind},
    bindsInScope v group bs = true → bs ⊆ group → plan.Describes group →
    Resolves v (checkOthers plan bs) v
  | [], _, v, group, _, _, _ => by
    rw [checkOthers]
    exact .pure _
  | b :: bs, plan, v, group, h, hgroup, hplan => by
    obtain ⟨hb, hbs⟩ := Bool.and_eq_true_iff.mp h
    obtain ⟨hmem, hsub⟩ := List.cons_subset.mp hgroup
    have hrest := resolves_checkOthers bs plan hbs hsub hplan
    have hbody : ∀ own ∈ b.ownParams group, (∀ id ∈ own, id ∉ v.typeVars) ∧
        ∀ exp, Resolves (v.withTypeVars own) (checkBody b exp) (v.withTypeVars own) :=
      fun own hown => resolves_checkBody b (List.all_eq_true.mp hb own hown)
    rw [checkOthers]
    refine .ite hrest ?_
    split
    · rename_i sc hsc
      obtain ⟨b', hb', hname, hsig, hnamed⟩ := hplan.signed _ _ hsc
      obtain ⟨hnew, hbody⟩ := hbody _ (paramIds_mem_ownParams hb' hname hsig)
      exact (resolves_checkSigned hnamed hnew hbody).bind fun _ => hrest.bind fun _ => .pure _
    · rename_i hnone
      -- without an entry in the plan the binding has no signature
      have hunsigned : b.signature = none := by
        by_contra hsome
        have hfind := hplan.signatures b hmem (Option.isSome_iff_ne_none.mpr hsome)
        rw [hnone] at hfind
        cases hfind
      obtain ⟨-, hbody⟩ := hbody [] (nil_mem_ownParams hunsigned)
      rw [Visible.withTypeVars_nil] at hbody
      exact (resolves_checkMono hbody).bind fun _ => hrest.bind fun _ => .pure _

theorem resolves_checkDecls : ∀ (ds : List Surface.Decl) {top : Bool} {v : Visible},
    declsInScope v ds = true → Resolves v (checkDecls top ds) (v.declareAll ds)
  | [], top, v, _ => by
    rw [checkDecls]
    exact .pure _
  | d :: ds, top, v, h => by
    obtain ⟨hd, hds⟩ := Bool.and_eq_true_iff.mp h
    rw [checkDecls]
    refine .get_bind fun hs => ?_
    rw [hs.uncancelled]
    exact (resolves_checkDecl d hd).bind fun _ => (resolves_checkDecls ds hds).bind fun _ => .pure _

theorem resolves_checkDecl : ∀ (d : Surface.Decl) {top : Bool} {v : Visible},
    d.inScope v = true → Resolves v (checkDecl top d) (v.declare d)
  | .synonym n params body range, top, v, h => by
    rw [checkDecl]
    exact (resolves_checkSynonym n range h).bind fun _ => .pure _
  | .newtype n params fields conName range, top, v, h => by
    rw [checkDecl]
    exact (resolves_checkNewtype n conName range h).bind fun _ => .pure _
  | .primType n kind props range, top, v, h => by
    rw [checkDecl]
    exact (resolves_checkPrimType n kind range h).bind fun _ => .pure _
  | .paramType n kind range, top, v, _ => by
    rw [checkDecl]
    exact (resolves_checkParamType n kind).bind fun _ => .pure _
  | .paramProps props range, top, v, h => by
    rw [checkDecl]
    exact (resolves_checkParamProps range h).bind fun _ => .pure _
  | .paramFun n sig range, top, v, h => by
    rw [checkDecl]
    exact .withRange <| (resolves_checkSignature h).bind fun _ => (resolves_addParamFun ..).bind
      fun _ => (resolves_declare ..).bind fun _ => .pure _
  | .group recursive binds, top, v, h => by
    obtain ⟨hsigs, hbinds⟩ := Bool.and_eq_true_iff.mp h
    exact resolves_group (List.all_eq_true.mp hsigs)
      (fun plan _ => resolves_checkGeneral binds plan hbinds)
      fun plan hplan => resolves_checkOthers binds plan hbinds (List.Subset.refl _) hplan
  | .submodule n ds range, top, v, h => resolves_submodule (resolves_checkDecls ds h)
end

end SizedTypes.Infer
