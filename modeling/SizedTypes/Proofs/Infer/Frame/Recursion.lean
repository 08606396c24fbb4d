import SizedTypes.Proofs.Infer.Frame.Scoped

/-!
# Expressions and declarations leave the rest of a run alone

The recursion over the surface language. Expressions take back whatever they declare; declarations
leave their variables declared and add to the innermost scope.
-/

set_option autoImplicit false

namespace SizedTypes.Infer

open Surface (Bind Expr Pattern TypeExpr TypeParam UpdateHow)
open SizedTypes.Core (Decl Term)

variable {c : Context} {s s₁ s' : State} {vs ws : List (Name × VarType)}

/-! ## Declarations of types and module parameters -/

/-- The context at a place. -/
def Context.located (c : Context) (r : Range) : Context := { c with range := r.orElse c.range }

theorem returns_freshParam {kind : Kind} {n : Option Name} {p : Param}
    (h : Returns (freshParam kind n) c s p s') :
    p = { id := s.nextTypeVar, kind, name := n } ∧
      s' = { s with nextTypeVar := Word.next s.nextTypeVar, draws := s.draws + 1 } := by
  simpa only [freshParam, returns_get_bind, returns_set_bind, returns_pure] using h

theorem frame_warnings (s : State) (ws : List WarningAt) : Frame s { s with warnings := ws } :=
  .of_fields rfl rfl rfl List.prefix_rfl rfl rfl

/-- Each parameter is declared under its name, with the next id. -/
theorem kindReturns_declare_cons {p : TypeParam} {ps : List TypeParam} {k k' : Kinding}
    {out : List Param} (h : KindReturns (Kinding.declare (p :: ps)) c k s out k' s') :
    ∃ q rest ws, q = { id := s.nextTypeVar, kind := p.kind, name := some p.name } ∧
      out = q :: rest ∧
      KindReturns (Kinding.declare ps) c { k with params := k.params.insert p.name.id q } { s with
        nextTypeVar := Word.next s.nextTypeVar, draws := s.draws + 1, warnings := ws } rest k' s' := by
  unfold Kinding.declare at h
  rw [List.mapM_cons] at h
  obtain ⟨q, k₁, s₁, hq, h⟩ := kindReturns_bind.mp h
  obtain ⟨rest, k₂, s₂, hrest, h⟩ := kindReturns_bind.mp h
  obtain ⟨rfl, rfl, rfl⟩ := kindReturns_pure.mp h
  have hone : ∃ ws, q = { id := s.nextTypeVar, kind := p.kind, name := some p.name } ∧
      k₁ = { k with params := k.params.insert p.name.id q } ∧ s₁ = { s with
        nextTypeVar := Word.next s.nextTypeVar, draws := s.draws + 1, warnings := ws } := by
    rw [kindReturns_getState_bind] at hq
    have hfresh : ∀ {s₀ : State} {ws : List WarningAt}, s₀ = { s with warnings := ws } →
        KindReturns (do
          let tp ← freshParam p.kind (some p.name)
          modify fun k => { k with params := k.params.insert p.name.id tp }
          return tp) c k s₀ q k₁ s₁ →
        ∃ ws, q = { id := s.nextTypeVar, kind := p.kind, name := some p.name } ∧
          k₁ = { k with params := k.params.insert p.name.id q } ∧ s₁ = { s with
            nextTypeVar := Word.next s.nextTypeVar, draws := s.draws + 1, warnings := ws } := by
      rintro _ ws rfl h
      simp only [kindReturns_bind, kindReturns_lift, kindReturns_modify, kindReturns_pure] at h
      obtain ⟨tp, _, _, ⟨rfl, htp⟩, ⟨⟩, _, _, ⟨rfl, rfl⟩, rfl, rfl, rfl⟩ := h
      obtain ⟨rfl, rfl⟩ := returns_freshParam htp
      exact ⟨ws, rfl, rfl, rfl⟩
    dsimp only at hq
    split at hq
    · split at hq
      · rw [kindReturns_lift_bind] at hq
        obtain ⟨_, s₂, hwarn, hq⟩ := hq
        obtain ⟨ws, hs₂⟩ := eq_of_recordWarning hwarn
        exact hfresh hs₂ hq
      · exact hfresh rfl hq
    · exact hfresh rfl hq
  obtain ⟨ws, hdrawn, rfl, rfl⟩ := hone
  exact ⟨q, rest, ws, hdrawn, rfl, hrest⟩

/-- A synonym is the type that is written, with its parameters at their last kinds. -/
theorem returns_checkSynonym {n : Name} {params : List TypeParam} {body : TypeExpr} {range : Range}
    {a : Unit} (h : Returns (checkSynonym n params body range) c s a s') :
    ∃ ws ps k s₁ t k' s₂ ts,
      KindReturns (Kinding.declare params) (c.located range) { allowWildcards := false }
        { s with warnings := ws } ps k s₁ ∧
      KindReturns (Kinding.infer body .unknown) (c.located range) k s₁ t k' s₂ ∧
      ts.params = k'.settle ps ∧
      ts.props = k'.goals.map (fun g => Kinding.settleTy (k'.settle ps) g.prop) ∧
      ts.body = Kinding.settleTy (k'.settle ps) t.1 ∧
      Returns (addSynonym ts) (c.located range) s₂ a s' := by
  unfold checkSynonym at h
  replace h := returns_withReader.mp h
  rw [returns_get_bind] at h
  split at h
  · simp only [returns_bind] at h
    obtain ⟨⟨⟩, s₀, hwarn, ⟨ps, k⟩, s₁, hdeclare, ⟨t, k'⟩, s₂, hinfer, hadd⟩ := h
    obtain ⟨ws, rfl⟩ := eq_of_recordWarning hwarn
    exact ⟨ws, ps, k, s₁, t, k', s₂, _, hdeclare, hinfer, rfl, rfl, rfl, hadd⟩
  · simp only [returns_bind] at h
    obtain ⟨⟨ps, k⟩, s₁, hdeclare, ⟨t, k'⟩, s₂, hinfer, hadd⟩ := h
    exact ⟨s.warnings, ps, k, s₁, t, k', s₂, _, hdeclare, hinfer, rfl, rfl, rfl, hadd⟩

/-- A newtype has the fields that are written, and its constructor is declared. -/
theorem returns_checkNewtype {n : Name} {params : List TypeParam} {fields : List (String × TypeExpr)}
    {conName : Option Name} {range : Range} {a : Unit}
    (h : Returns (checkNewtype n params fields conName range) c s a s') :
    ∃ ps k s₁ fs k' s₂ nt s₃, KindReturns (Kinding.declare params) (c.located range)
        { allowWildcards := false } s ps k s₁ ∧
      KindReturns (Kinding.checkFields fields) (c.located range) k s₁ fs k' s₂ ∧
      nt.props = k'.goals.map (fun g => Kinding.settleTy (k'.settle ps) g.prop) ∧
      nt.fields = (Table.ofList fs).mapValues (Kinding.settleTy (k'.settle ps)) ∧
      nt.conName = (conName.filter fun c => c.ident != "").getD n ∧ nt.name = n ∧
      Returns (addNewtype nt) (c.located range) s₂ ⟨⟩ s₃ ∧
      s' = s₃.push (nt.conName, .known nt.conSchema) := by
  unfold checkNewtype at h
  replace h := returns_withReader.mp h
  simp only [returns_bind, declare, returns_modify] at h
  obtain ⟨⟨ps, k⟩, s₁, hdeclare, ⟨fs, k'⟩, s₂, hfields, ⟨⟩, s₃, hadd, rfl⟩ := h
  exact ⟨ps, k, s₁, fs, k', s₂, _, s₃, hdeclare, hfields, rfl, rfl, rfl, rfl, hadd, rfl⟩

theorem returns_checkPrimType {n : Name} {kind : Kind} {props : List TypeExpr} {range : Range}
    {a : Unit} (h : Returns (checkPrimType n kind props range) c s a s') :
    ∃ ps k s₁, KindReturns (Kinding.checkProps props) (c.located range) { allowWildcards := false } s
        ps k s₁ ∧
      Returns (addPrimType { name := n, kind, props := ps ++ k.goals.map Goal.prop })
        (c.located range) s₁ a s' := by
  unfold checkPrimType at h
  replace h := returns_withReader.mp h
  simp only [returns_bind] at h
  obtain ⟨⟨ps, k⟩, s₁, hprops, hadd⟩ := h
  exact ⟨ps, k, s₁, hprops, hadd⟩

theorem returns_checkParamType {n : Name} {kind : Kind} {a : Unit}
    (h : Returns (checkParamType n kind) c s a s') :
    ∃ p s₁, Frame s s₁ ∧ Returns (addParamType { name := n, param := p }) c s₁ a s' := by
  unfold checkParamType at h
  simp only [returns_bind, returns_modify] at h
  obtain ⟨p, s₁, hp, ⟨⟩, _, rfl, hadd⟩ := h
  refine ⟨p, _, ((framed_freshParam ..).step hp).trans ?_, hadd⟩
  exact .of_fields rfl rfl rfl List.prefix_rfl rfl rfl

theorem returns_checkParamProps {props : List TypeExpr} {range : Range} {a : Unit}
    (h : Returns (checkParamProps props range) c s a s') :
    ∃ ps k s₁ s₂ s₃, KindReturns (Kinding.checkProps props) (c.located range)
        { allowWildcards := false } s ps k s₁ ∧
      Frame s₁ s₂ ∧ Returns (addParamProps ps) (c.located range) s₂ ⟨⟩ s₃ ∧ Frame s₃ s' := by
  unfold checkParamProps at h
  replace h := returns_withReader.mp h
  simp only [returns_bind, returns_modify] at h
  obtain ⟨⟨ps, k⟩, s₁, hprops, ⟨⟩, _, rfl, ⟨⟩, s₃, hadd, left, s₄, hsimplify, rfl⟩ := h
  refine ⟨ps, k, s₁, _, s₃, hprops, ?_, hadd, ?_⟩
  · exact .of_fields rfl rfl rfl List.prefix_rfl rfl rfl
  · exact ((framed_simplifyGoals _).step hsimplify).trans
      (.of_fields rfl rfl rfl List.prefix_rfl rfl rfl)

theorem filled_checkSynonym {n : Name} {params : List TypeParam} {body : TypeExpr} {range : Range}
    {a : Unit} (h : Returns (checkSynonym n params body range) c s a s') : Filled [] s s' := by
  obtain ⟨ws, ps, k, s₁, t, k', s₂, ts, hdeclare, hinfer, -, -, -, hadd⟩ :=
    returns_checkSynonym h
  have hbefore := ((frame_warnings s ws).trans ((Kinding.framed_declare _).step hdeclare)).trans
    ((Kinding.framed_infer ..).step hinfer)
  exact hbefore.filled.trans (filled_modifyScope hadd)

theorem filled_checkNewtype {n : Name} {params : List TypeParam} {fields : List (String × TypeExpr)}
    {conName : Option Name} {range : Range} {a : Unit}
    (h : Returns (checkNewtype n params fields conName range) c s a s') :
    ∃ v, Filled [v] s s' := by
  obtain ⟨ps, k, s₁, fs, k', s₂, nt, s₃, hdeclare, hfields, -, -, -, -, hadd, rfl⟩ :=
    returns_checkNewtype h
  have hbefore := ((Kinding.framed_declare _).step hdeclare).trans
    ((Kinding.framed_checkFields _).step hfields)
  refine ⟨(nt.conName, .known nt.conSchema), ?_⟩
  exact (hbefore.filled.trans (filled_modifyScope hadd)).trans ((Declared.push s₃ _).filled rfl)

theorem filled_checkPrimType {n : Name} {kind : Kind} {props : List TypeExpr} {range : Range}
    {a : Unit} (h : Returns (checkPrimType n kind props range) c s a s') : Filled [] s s' := by
  obtain ⟨ps, k, s₁, hprops, hadd⟩ := returns_checkPrimType h
  exact ((Kinding.framed_checkProps _).step hprops).filled.trans (filled_modifyScope hadd)

theorem filled_checkParamType {n : Name} {kind : Kind} {a : Unit}
    (h : Returns (checkParamType n kind) c s a s') : Filled [] s s' := by
  obtain ⟨p, s₁, hframe, hadd⟩ := returns_checkParamType h
  exact hframe.filled.trans (filled_modifyScope hadd)

theorem filled_checkParamProps {props : List TypeExpr} {range : Range} {a : Unit}
    (h : Returns (checkParamProps props range) c s a s') : Filled [] s s' := by
  obtain ⟨ps, k, s₁, s₂, s₃, hprops, hframe, hadd, hframe'⟩ := returns_checkParamProps h
  have hbefore := ((Kinding.framed_checkProps _).step hprops).trans hframe
  exact (hbefore.filled.trans (filled_modifyScope hadd)).trans hframe'.filled

/-! ## Declarations that hold expressions -/

theorem returns_checkDecl_paramFun {top : Bool} {n : Name} {sig : Surface.Signature} {range : Range}
    {k : Nat} (h : Returns (checkDecl top (.paramFun n sig range)) c s k s') :
    ∃ sc s₁ s₂, Returns (checkSignature sig) (c.located range) s sc s₁ ∧
      Returns (addParamFun n sc) (c.located range) s₁ ⟨⟩ s₂ ∧ s' = s₂.push (n, .known sc) ∧
      k = 1 := by
  rw [checkDecl] at h
  replace h := returns_withReader.mp h
  simp only [returns_bind, declare, returns_modify, returns_pure] at h
  obtain ⟨sc, s₁, hsig, ⟨⟩, s₂, hadd, ⟨⟩, _, rfl, rfl, rfl⟩ := h
  exact ⟨sc, s₁, s₂, hsig, hadd, rfl, rfl⟩

theorem returns_checkDecl_group {top recursive : Bool} {binds : List Bind} {k : Nat}
    (h : Returns (checkDecl top (.group recursive binds)) c s k s') :
    ∃ plan s₁ out s₂, Returns (planGroup top recursive binds) c s plan s₁ ∧
      Returns (checkGroup plan recursive binds (checkGeneral plan binds) (checkOthers plan binds)) c
        s₁ out s₂ ∧
      Returns (addGroup (.mk recursive out)) c (s₂.pushAll (out.map declVar)) ⟨⟩ s' ∧
      k = out.length := by
  rw [checkDecl] at h
  simp only [returns_bind, returns_pure] at h
  obtain ⟨plan, s₁, hplan, out, s₂, hgroup, ⟨⟩, s₃, hdeclare, ⟨⟩, _, hadd, rfl, rfl⟩ := h
  obtain rfl := returns_declareEach (f := declVar) hdeclare
  exact ⟨plan, s₁, out, s₂, hplan, hgroup, hadd, rfl⟩

theorem returns_checkDecl_submodule {top : Bool} {n : Name} {ds : List Surface.Decl} {range : Range}
    {k : Nat} (h : Returns (checkDecl top (.submodule n ds range)) c s k s') :
    ∃ s₁, Returns (checkDecls true ds) (c.located range)
        { s with scopes := ⟨.submodule, .empty n⟩ :: s.scopes } k s₁ ∧
      Returns closeSubmodule (c.located range)
        { s₁ with params := s.params, assumptions := s.assumptions } ⟨⟩ s' := by
  rw [checkDecl] at h
  replace h := returns_withReader.mp h
  rw [returns_get_bind] at h
  simp only [openScope, returns_bind, returns_modify, returns_pure] at h
  obtain ⟨⟨⟩, _, rfl, declared, s₁, hds, ⟨⟩, _, rfl, ⟨⟩, _, hclose, rfl, rfl⟩ := h
  exact ⟨s₁, hds, hclose⟩

theorem returns_closeSubmodule {a : Unit} (h : Returns closeSubmodule c s a s') :
    ∃ child parent rest, s.scopes = child :: parent :: rest ∧ child.kind = .submodule ∧
      s' = { s with scopes :=
        { parent with content := Scope.absorb parent.content child.content } :: rest } := by
  unfold closeSubmodule at h
  obtain ⟨m, s₁, hpop, h⟩ := returns_bind.mp h
  obtain ⟨child, rest, hscopes, hkind, rfl, rfl⟩ := returns_popScope hpop
  obtain ⟨parent, rest', hrest, rfl⟩ := returns_modifyScope h
  obtain rfl : rest = parent :: rest' := hrest
  exact ⟨child, parent, rest', hscopes, hkind, rfl⟩

theorem returns_checkExpr_block {body : Expr} {ds : List Surface.Decl} {exp : Expected}
    {slots : List (Ty × Nat)} {out : Term}
    (h : Returns (checkExpr (.block body ds) exp slots) c s out s') :
    ∃ s₀ x k s₁ e s₂ sc rest, Frame s s₀ ∧
      Returns (checkDecls false ds) c { s₀ with scopes := ⟨.block, .empty x⟩ :: s₀.scopes } k s₁ ∧
      Returns (checkExpr body exp []) c s₁ e s₂ ∧ s₂.scopes = sc :: rest ∧
      out = .block e sc.content.groups ∧
      s' = { k.repeat State.unstash1 s₂ with scopes := rest } := by
  rw [checkExpr] at h
  simp only [openScope, closeBlock, unstash, returns_bind, returns_modify, returns_pure] at h
  obtain ⟨x, s₀, hx, ⟨⟩, _, rfl, k, s₁, hds, e, s₂, hbody, ⟨⟩, _, rfl, gs, s₃, ⟨m, s₄, hpop, rfl,
    rfl⟩, rfl, rfl⟩ := h
  obtain ⟨sc, rest, hscopes, -, rfl, rfl⟩ := returns_popScope hpop
  rw [scopes_unstash] at hscopes
  exact ⟨s₀, x, k, s₁, e, s₂, sc, rest, (framed_freshName _).step hx, hds, hbody, hscopes, rfl, rfl⟩

/-! ## The recursion -/

theorem framed_openSpine (k : Nat) (exp : Expected) (slots : List (Ty × Nat)) :
    Framed (openSpine k exp slots) := (respects_openSpine ..).framed

theorem scoped_checkUpdate {path : List Selector} {how : UpdateHow} {exp : Expected} {out : Term}
    {value : Checker} (h : ∀ exp, Scoped (value exp)) :
    Scoped (checkUpdate path how exp out value) := by
  unfold checkUpdate
  split
  · refine (framed_freshType ..).scoped.bind fun _ => (framed_newSelectorGoal ..).scoped.bind fun _ => ?_
    split
    · exact (h _).bind fun _ => .pure _
    · exact (h _).bind fun _ => (framed_freshName _).scoped.bind fun _ =>
        (framed_monoDecl ..).scoped.bind fun _ => .pure _
  · exact (Framed.throw _).scoped

theorem framed_checkRepeated (vs : List (Name × Ty)) (seen : List Int) :
    Framed (checkRepeated seen vs) := (respects_checkRepeated ..).framed

/-- The variables of an arm are taken back once it is checked. -/
theorem frame_unstashArm {arm : Arm} {vs : List (Name × VarType)} (hlen : arm.vars.length = vs.length)
    (hdeclared : Declared vs s s₁) (hscopes : s₁.scopes = s.scopes) (hs : s.vars.Sorted) :
    Frame s (arm.vars.length.repeat State.unstash1 s₁) := by
  have hall := hdeclared.unstashed hs
  rw [← hlen] at hall
  exact hall.frame ((scopes_unstash ..).trans hscopes)

mutual
theorem scoped_checkExpr : ∀ (e : Expr) (exp : Expected) (slots : List (Ty × Nat)),
    Scoped (checkExpr e exp slots)
  | .located r e, exp, slots => by
    rw [checkExpr]
    exact ((scoped_checkExpr e exp []).bind fun _ => Framed.read.scoped.bind fun _ => .pure _).withRange
  | .var n, exp, slots => by
    rw [checkExpr]
    exact (framed_checkVar ..).scoped
  | .typeApp f args, exp, slots => by
    rw [checkExpr]
    split
    · exact (framed_checkVar ..).scoped
    · exact (Framed.throw _).scoped
  | .num value base digits, exp, slots => by
    rw [checkExpr]
    exact (framed_checkNum ..).scoped
  | .frac num den, exp, slots => by
    rw [checkExpr]
    exact (framed_checkPrim ..).scoped
  | .char code, exp, slots => by
    rw [checkExpr]
    exact (framed_checkPrim ..).scoped
  | .string str, exp, slots => by
    rw [checkExpr]
    exact (framed_checkString ..).scoped
  | .typeValue t, exp, slots => by
    rw [checkExpr]
    exact ((framed_checkType ..).bind fun _ => framed_checkPrim ..).scoped
  | .enumeration bounds, exp, slots => by
    rw [checkExpr]
    exact (framed_checkEnumeration ..).scoped
  | .from first, exp, slots => by
    rw [checkExpr]
    exact (framed_prim _).scoped.bind fun _ => (framed_openSpine ..).scoped.bind fun _ =>
      (framed_checkVar ..).scoped.bind fun _ => (scoped_checkExpr first _ []).bind fun _ => .pure _
  | .fromThen first next, exp, slots => by
    rw [checkExpr]
    exact (framed_prim _).scoped.bind fun _ => (framed_openSpine ..).scoped.bind fun _ =>
      (framed_checkVar ..).scoped.bind fun _ => (framed_openSpine ..).scoped.bind fun _ =>
      (scoped_checkExpr first _ []).bind fun _ => (scoped_checkExpr next _ []).bind fun _ => .pure _
  | .tuple es, exp, slots => by
    rw [checkExpr]
    exact (framed_expectTuple ..).scoped.bind fun _ => (scoped_checkEach es _).bind fun _ => .pure _
  | .record fs, exp, slots => by
    rw [checkExpr]
    exact (framed_expectRecord ..).scoped.bind fun _ =>
      (scoped_checkRecordFields fs _).bind fun _ => .pure _
  | .list es, exp, slots => by
    rw [checkExpr]
    exact (framed_expectSeq _).scoped.bind fun _ => (framed_unifyExact ..).scoped.bind fun _ =>
      (scoped_checkEach es _).bind fun _ => .pure _
  | .select e sel, exp, slots => by
    rw [checkExpr]
    exact (framed_freshType ..).scoped.bind fun _ => (scoped_checkExpr e _ []).bind fun _ =>
      (framed_newSelectorGoal ..).scoped.bind fun _ => .pure _
  | .update record fields, exp, slots => by
    rw [checkExpr]
    exact (scoped_checkExpr record exp []).bind fun _ => scoped_checkUpdates fields exp _
  | .updater fields, exp, slots => by
    rw [checkExpr]
    exact (framed_freshName _).scoped.bind fun _ => scoped_checkLambda fun _ =>
      (framed_checkVar ..).scoped.bind fun _ => scoped_checkUpdates fields _ _
  | .comp result arms, exp, slots => by
    rw [checkExpr]
    refine (framed_expectSeq _).scoped.bind fun _ => (scoped_checkArms arms []).bind fun arms =>
      (framed_unifyFrom ..).scoped.bind fun _ => ⟨fun {c s s' a} h hs => ?_⟩
    simp only [returns_bind, unstash, returns_modify, returns_pure] at h
    obtain ⟨⟨⟩, s₁, hdeclare, out, s₂, hout, ⟨⟩, _, rfl, -, rfl⟩ := h
    obtain rfl := returns_declareEach (f := monoVar) hdeclare
    have hdeclared := Declared.pushAll s ((arms.flatMap Arm.vars).map monoVar)
    have hframe := (scoped_checkExpr result _ []).step hout (hdeclared.sorted hs)
    have hall := (hdeclared.trans hframe.declared).unstashed hs
    rw [List.append_nil, List.length_map] at hall
    refine hall.frame ?_
    rw [scopes_unstash, hframe.scopes, scopes_pushAll]
  | .app f a, exp, slots => by
    rw [checkExpr]
    exact (framed_openSpine ..).scoped.bind fun _ => (scoped_checkExpr f _ _).bind fun _ =>
      (scoped_checkExpr a _ []).bind fun _ => .pure _
  | .ifThenElse c t e, exp, slots => by
    rw [checkExpr]
    exact (scoped_checkExpr c _ []).bind fun _ => (scoped_checkExpr t exp []).bind fun _ =>
      (scoped_checkExpr e exp []).bind fun _ => .pure _
  | .block body ds, exp, slots => by
    refine ⟨fun h hs => ?_⟩
    obtain ⟨s₀, x, k, s₁, e, s₂, sc, rest, hframe, hds, hbody, hscopes, -, rfl⟩ :=
      returns_checkExpr_block h
    obtain ⟨vs, rfl, hfilled⟩ := filled_checkDecls ds hds (hframe.vars ▸ hs)
    have hbody := (scoped_checkExpr body exp []).step hbody (hfilled.sorted (hframe.vars ▸ hs))
    have hall := (hfilled.toDeclared.trans hbody.declared).unstashed (hframe.vars ▸ hs)
    rw [List.append_nil] at hall
    -- the scope of the block is the one that is closed
    have hrest : rest = s₀.scopes := by
      have htail := hfilled.outerScopes
      rw [← hbody.scopes, hscopes] at htail
      exact htail
    exact hframe.trans (hall.of_opened.closed_scopes.frame hrest)
  | .typed e t, exp, slots => by
    rw [checkExpr]
    exact (framed_checkType ..).scoped.bind fun _ => (scoped_checkExpr e _ []).bind fun _ =>
      (framed_unifyExact ..).scoped.bind fun _ => .pure _
  | .lambda ps body, exp, slots => by
    rw [checkExpr]
    exact scoped_checkLambda fun exp => scoped_checkExpr body exp []

theorem scoped_checkEach : ∀ (es : List Expr) (exps : List Expected), Scoped (checkEach es exps)
  | e :: es, exp :: exps => by
    rw [checkEach]
    exact (scoped_checkExpr e exp []).bind fun _ => (scoped_checkEach es exps).bind fun _ => .pure _
  | [], _ => by
    rw [checkEach]
    · exact .pure _
    · simp
  | _ :: _, [] => by
    rw [checkEach]
    · exact .pure _
    · simp

theorem scoped_checkRecordFields : ∀ (fs : List (String × Expr)) (fields : Table String Ty),
    Scoped (checkRecordFields fs fields)
  | [], _ => by
    rw [checkRecordFields]
    exact .pure _
  | (l, e) :: fs, fields => by
    rw [checkRecordFields]
    exact (scoped_checkExpr e _ []).bind fun _ =>
      (scoped_checkRecordFields fs fields).bind fun _ => .pure _

theorem scoped_checkUpdates : ∀ (fs : List (List Selector × UpdateHow × Expr)) (exp : Expected)
    (out : Term), Scoped (checkUpdates fs exp out)
  | [], _, _ => by
    rw [checkUpdates]
    exact .pure _
  | (path, how, e) :: fs, exp, out => by
    rw [checkUpdates]
    exact (scoped_checkUpdate fun exp => scoped_checkExpr e exp []).bind fun _ =>
      scoped_checkUpdates fs exp _

theorem scoped_checkArms : ∀ (arms : List (List Surface.Match)) (seen : List Int),
    Scoped (checkArms seen arms)
  | [], _ => by
    rw [checkArms]
    exact .pure _
  | ms :: arms, seen => by
    rw [checkArms]
    refine ⟨fun h hs => ?_⟩
    simp only [returns_bind, unstash, returns_modify, returns_pure] at h
    obtain ⟨arm, s₁, harm, ⟨⟩, _, rfl, seen', s₂, hrepeated, rest, _, hrest, -, rfl⟩ := h
    obtain ⟨vs, hlen, hdeclared, hscopes⟩ := declared_checkMatches ms harm hs
    have hframe := (frame_unstashArm (hlen.trans (Nat.zero_add _)) hdeclared hscopes hs).trans
      ((framed_checkRepeated ..).step hrepeated)
    exact hframe.trans ((scoped_checkArms arms _).step hrest (hframe.vars ▸ hs))

theorem declared_checkMatches : ∀ (ms : List Surface.Match) {arm arm' : Arm} {c : Context}
    {s s' : State}, Returns (checkMatches ms arm) c s arm' s' → s.vars.Sorted →
    ∃ vs, arm'.vars.length = arm.vars.length + vs.length ∧ Declared vs s s' ∧ s'.scopes = s.scopes
  | [], arm, arm', c, s, s', h, _ => by
    rw [checkMatches, returns_pure] at h
    obtain ⟨rfl, rfl⟩ := h
    exact ⟨[], rfl, (Frame.refl _).declared, rfl⟩
  | .draw p e :: ms, arm, arm', c, s, s', h, hs => by
    simp only [checkMatches, Arm.draw, returns_bind, returns_pure] at h
    obtain ⟨n, s₁, hn, elem, s₂, helem, out, s₃, hout, m, s₄, hm, _, _, ⟨⟨⟩, _, hdeclare, rfl, rfl⟩,
      hrest⟩ := h
    obtain rfl := returns_declareEach (f := monoVar) hdeclare
    have hfresh := ((framed_freshType ..).step hn).trans ((framed_freshType ..).step helem)
    have hframe := (hfresh.trans ((scoped_checkExpr e _ []).step hout (hfresh.vars ▸ hs))).trans
      ((framed_checkPattern ..).step hm)
    have hbefore := hframe.declared.trans (.pushAll s₄ (m.vars.map monoVar))
    obtain ⟨vs, hlen, hdeclared, hscopes⟩ := declared_checkMatches ms hrest (hbefore.sorted hs)
    refine ⟨_, ?_, hbefore.trans hdeclared, ?_⟩
    · simp only [hlen, List.length_append, List.length_map, List.length_nil]
      omega
    · rw [hscopes, scopes_pushAll, hframe.scopes]
  | .define b :: ms, arm, arm', c, s, s', h, hs => by
    simp only [checkMatches, Arm.define, declare, returns_bind, returns_modify, returns_pure] at h
    obtain ⟨d, s₁, hd, _, _, ⟨⟨⟩, _, rfl, rfl, rfl⟩, hrest⟩ := h
    have hframe := (scoped_checkSingle fun exp => scoped_checkBody b exp).step hd hs
    have hbefore := hframe.declared.trans (.push s₁ (declVar d))
    obtain ⟨vs, hlen, hdeclared, hscopes⟩ := declared_checkMatches ms hrest (hbefore.sorted hs)
    refine ⟨_, ?_, hbefore.trans hdeclared, hscopes.trans hframe.scopes⟩
    simp only [hlen, List.length_append, List.length_cons, List.length_nil]
    omega

theorem scoped_checkBody : ∀ (b : Bind) (exp : Expected), Scoped (checkBody b exp)
  | .mk _ params (some e) _ _ _ _, exp => by
    rw [checkBody]
    exact scoped_withExistentials (scoped_checkLambda fun exp => scoped_checkExpr e exp [])
  | .mk _ _ none _ _ _ _, _ => by
    rw [checkBody]
    exact (Framed.throw _).scoped

theorem scoped_checkGeneral : ∀ (bs : List Bind) (plan : Plan), Scoped (checkGeneral plan bs)
  | [], _ => by
    rw [checkGeneral]
    exact .pure _
  | b :: bs, plan => by
    rw [checkGeneral]
    refine .ite ?_ (scoped_checkGeneral bs plan)
    exact (scoped_checkMono fun exp => scoped_checkBody b exp).bind fun _ =>
      (scoped_checkGeneral bs plan).bind fun _ => .pure _

theorem scoped_checkOthers : ∀ (bs : List Bind) (plan : Plan), Scoped (checkOthers plan bs)
  | [], _ => by
    rw [checkOthers]
    exact .pure _
  | b :: bs, plan => by
    rw [checkOthers]
    refine .ite (scoped_checkOthers bs plan) ?_
    split
    · exact (scoped_checkSigned fun exp => scoped_checkBody b exp).bind fun _ =>
        (scoped_checkOthers bs plan).bind fun _ => .pure _
    · exact (scoped_checkMono fun exp => scoped_checkBody b exp).bind fun _ =>
        (scoped_checkOthers bs plan).bind fun _ => .pure _

theorem filled_checkDecls : ∀ (ds : List Surface.Decl) {top : Bool} {k : Nat} {c : Context}
    {s s' : State}, Returns (checkDecls top ds) c s k s' → s.vars.Sorted →
    ∃ vs, vs.length = k ∧ Filled vs s s'
  | [], top, k, c, s, s', h, _ => by
    rw [checkDecls, returns_pure] at h
    obtain ⟨rfl, rfl⟩ := h
    exact ⟨[], rfl, (Frame.refl _).filled⟩
  | d :: ds, top, k, c, s, s', h, hs => by
    rw [checkDecls, returns_get_bind] at h
    split at h
    · obtain ⟨rfl, rfl⟩ := returns_pure.mp h
      exact ⟨[], rfl, (Frame.refl _).filled⟩
    · simp only [returns_bind, returns_pure] at h
      obtain ⟨m, s₁, hd, n, _, hds, rfl, rfl⟩ := h
      obtain ⟨vs, rfl, hfilled⟩ := filled_checkDecl d hd hs
      obtain ⟨ws, rfl, hfilled'⟩ := filled_checkDecls ds hds (hfilled.sorted hs)
      exact ⟨vs ++ ws, List.length_append, hfilled.trans hfilled'⟩

theorem filled_checkDecl : ∀ (d : Surface.Decl) {top : Bool} {k : Nat} {c : Context} {s s' : State},
    Returns (checkDecl top d) c s k s' → s.vars.Sorted → ∃ vs, vs.length = k ∧ Filled vs s s'
  | .synonym n params body range, top, k, c, s, s', h, _ => by
    simp only [checkDecl, returns_bind, returns_pure] at h
    obtain ⟨⟨⟩, _, h, rfl, rfl⟩ := h
    exact ⟨[], rfl, filled_checkSynonym h⟩
  | .newtype n params fields conName range, top, k, c, s, s', h, _ => by
    simp only [checkDecl, returns_bind, returns_pure] at h
    obtain ⟨⟨⟩, _, h, rfl, rfl⟩ := h
    obtain ⟨v, hfilled⟩ := filled_checkNewtype h
    exact ⟨[v], rfl, hfilled⟩
  | .primType n kind props range, top, k, c, s, s', h, _ => by
    simp only [checkDecl, returns_bind, returns_pure] at h
    obtain ⟨⟨⟩, _, h, rfl, rfl⟩ := h
    exact ⟨[], rfl, filled_checkPrimType h⟩
  | .paramType n kind range, top, k, c, s, s', h, _ => by
    simp only [checkDecl, returns_bind, returns_pure] at h
    obtain ⟨⟨⟩, _, h, rfl, rfl⟩ := h
    exact ⟨[], rfl, filled_checkParamType h⟩
  | .paramProps props range, top, k, c, s, s', h, _ => by
    simp only [checkDecl, returns_bind, returns_pure] at h
    obtain ⟨⟨⟩, _, h, rfl, rfl⟩ := h
    exact ⟨[], rfl, filled_checkParamProps h⟩
  | .paramFun n sig range, top, k, c, s, s', h, _ => by
    obtain ⟨sc, s₁, s₂, hsig, hadd, rfl, rfl⟩ := returns_checkDecl_paramFun h
    refine ⟨[(n, .known sc)], rfl, ?_⟩
    exact (((framed_checkSignature _).step hsig).filled.trans (filled_modifyScope hadd)).trans
      ((Declared.push s₂ _).filled rfl)
  | .group recursive binds, top, k, c, s, s', h, hs => by
    obtain ⟨plan, s₁, out, s₂, hplan, hgroup, hadd, rfl⟩ := returns_checkDecl_group h
    obtain ⟨vs, hlen, hdeclared, hscopes⟩ := declared_planGroup hplan
    have hframe := frame_checkGroup hdeclared hscopes hlen hs (scoped_checkGeneral binds plan)
      (scoped_checkOthers binds plan) hgroup
    refine ⟨out.map declVar, List.length_map .., ?_⟩
    have hall := (hframe.filled.trans ((Declared.pushAll s₂ _).filled (scopes_pushAll ..))).trans
      (filled_modifyScope hadd)
    rwa [List.append_nil] at hall
  | .submodule n ds range, top, k, c, s, s', h, hs => by
    obtain ⟨s₁, hds, hclose⟩ := returns_checkDecl_submodule h
    obtain ⟨vs, hlen, hfilled⟩ := filled_checkDecls ds hds hs
    obtain ⟨child, parent, rest, hscopes, -, rfl⟩ := returns_closeSubmodule hclose
    have hparent : parent :: rest = s.scopes := by
      have htail := hfilled.outerScopes
      rw [show s₁.scopes = child :: parent :: rest from hscopes] at htail
      exact htail
    refine ⟨vs, hlen, hfilled.toDeclared.of_opened.closed_scopes, ?_, ?_⟩
    · rw [← hparent]
      rfl
    · rw [← hparent]
      rfl
end

end SizedTypes.Infer
