import SizedTypes.Proofs.Infer.Uses.Plans
import SizedTypes.Proofs.Surface.Conditions

/-!
# Uses in expressions and declarations

The recursion over the surface language: a checked expression accounts for its uses of a variable,
and so do the groups of every scope. The variable has to be one that definitions, functions and
generators bind, and in each group at most one definition.
-/

set_option autoImplicit false

namespace SizedTypes.Infer

open Surface (Bind Expr UpdateHow)
open SizedTypes.Core

variable {x : Int} {U : Uses} {E : External} {c : Context} {s s₁ s' : State}

/-! ## Comprehensions -/

/-- An arm accounts for its uses. It binds its variables without parameters, except for its
definitions that have some. -/
structure Arm.Accounts (x : Int) (U : Uses) (arm : Arm) : Prop where
  accounted : Accounted x U (mentionsMatches arm.quals)
  vars : ∀ v ∈ arm.vars, v.1.id = x →
    x ∈ polymorphicLets arm.quals ∨ Mention.binder x 0 0 ∈ mentionsMatches arm.quals

theorem mentionsMatches_define (ds : List Decl) :
    mentionsMatches (ds.map .define) = mentionsDecls ds := by
  induction ds with
  | nil => rfl
  | cons d ds ih => rw [List.map_cons, mentionsMatches, ih, mentionsDecls]

/-- What is in scope in an arm: its own variables and those before it. -/
def InArm (x : Int) (E : External) (U : Uses) (arm : Arm) (s : State) : Prop :=
  ∀ token passed, s.uses E x token passed →
    boundUses x (mentionsMatches arm.quals) token passed ∨ U token passed

theorem InArm.of_vars {arm : Arm} (h : InArm x E U arm s) (hvars : s'.vars = s.vars) :
    InArm x E U arm s' := fun token passed hu => by
  rw [uses_of_vars hvars] at hu
  exact h token passed hu

/-- More qualifiers for an arm, and the variables that they declare. -/
theorem Arm.Accounts.extend {arm arm' : Arm} {quals : List Match} {vs : List (Name × Ty)}
    {ws : List (Name × VarType)} (h : arm.Accounts x U) (hin : InArm x E U arm s)
    (hquals : arm'.quals = arm.quals ++ quals) (hvars : arm'.vars = arm.vars ++ vs)
    (hmore : Accounted x (s.uses E x) (mentionsMatches quals))
    (hvs : ∀ v ∈ vs, v.1.id = x →
      x ∈ polymorphicLets quals ∨ Mention.binder x 0 0 ∈ mentionsMatches quals)
    (hws : ∀ w ∈ ws, w.1.id = x → ∃ sc, w.2 = .known sc ∧ Mention.head w.1 sc ∈ mentionsMatches quals) :
    arm'.Accounts x U ∧ InArm x E U arm' (s.pushAll ws) := by
  have hmentions : mentionsMatches arm'.quals = mentionsMatches arm.quals ++ mentionsMatches quals := by
    rw [hquals, mentionsMatches_append]
  have hlets : polymorphicLets arm'.quals = polymorphicLets arm.quals ++ polymorphicLets quals := by
    rw [hquals, polymorphicLets, List.filterMap_append]
    rfl
  refine ⟨⟨?_, ?_⟩, fun token passed hu => ?_⟩
  · rw [hmentions]
    exact h.accounted.under hmore hin
  · rw [hvars, hmentions, hlets]
    refine List.forall_mem_append.mpr ⟨fun v hv hx => ?_, fun v hv hx => ?_⟩
    · exact (h.vars v hv hx).imp (List.mem_append_left _) (List.mem_append_left _)
    · exact (hvs v hv hx).imp (List.mem_append_right _) (List.mem_append_right _)
  · rw [hmentions]
    rcases boundUses_or_of_pushAll hws hu with hbound | hu
    · exact Or.inl (boundUses_mono (List.subset_append_right ..) hbound)
    · exact (hin token passed hu).imp_left (boundUses_mono (List.subset_append_left ..))

theorem Arm.Accounts.draw {arm arm' : Arm} {n elem : Ty} {e : Term} {m : Matched}
    (h : arm.Accounts x U) (hin : InArm x c.external U arm s) (hs : Tidy s)
    (he : termUses x (s.uses c.external x) e) (hm : m.Accounts x (s.uses c.external x))
    (hr : Returns (arm.draw n elem e m) c s arm' s') :
    arm'.Accounts x U ∧ InArm x c.external U arm' s' ∧ Tidy s' := by
  unfold Arm.draw at hr
  simp only [returns_bind, returns_pure] at hr
  obtain ⟨⟨⟩, _, hdeclare, rfl, rfl⟩ := hr
  obtain rfl := returns_declareEach (f := monoVar) hdeclare
  have hmentions : mentionsMatches (.draw m.name n elem e :: m.decls.map .define) =
      .binder m.name.id 0 0 :: (e.mentions [] ++ mentionsDecls m.decls) := by
    rw [mentionsMatches, mentionsMatches_define]
  have hvars : ∀ v ∈ m.vars, v.1.id = x → Mention.binder v.1.id 0 0 ∈
      mentionsMatches (.draw m.name n elem e :: m.decls.map .define) := by
    intro v hv _
    rw [hmentions]
    exact List.cons_subset_cons _ (List.subset_append_right ..) (hm.vars v hv)
  have hmore : Accounted x (s.uses c.external x)
      (mentionsMatches (.draw m.name n elem e :: m.decls.map .define)) := by
    rw [hmentions]
    refine (he.append hm.accounted).congr fun {e'} => ?_
    simp only [Matched.mentions, List.mem_append, List.mem_cons]
    grind
  refine and_assoc.mp ⟨h.extend hin rfl rfl hmore ?_ (exists_head_of_monoVar hvars), hs.pushMonos _⟩
  exact fun v hv hx => Or.inr (hx ▸ hvars v hv hx)

theorem Arm.Accounts.define {arm arm' : Arm} {d : Decl} (h : arm.Accounts x U)
    (hin : InArm x c.external U arm s) (hs : Tidy s)
    (hd : Accounted x (s.uses c.external x) d.mentions)
    (hr : Returns (arm.define d) c s arm' s') :
    arm'.Accounts x U ∧ InArm x c.external U arm' s' ∧ Tidy s' := by
  unfold Arm.define at hr
  simp only [declare, returns_modify_bind, returns_pure] at hr
  obtain ⟨rfl, rfl⟩ := hr
  have hmentions : mentionsMatches [.define d] = d.mentions := List.append_nil _
  have hhead : ∀ w ∈ [declVar d], w.1.id = x → ∃ sc, w.2 = .known sc ∧
      Mention.head w.1 sc ∈ mentionsMatches [.define d] := by
    intro w hw _
    rw [List.mem_singleton.mp hw, hmentions]
    exact ⟨_, rfl, head_mem_mentions d⟩
  have hvars : ∀ v ∈ [(d.name, d.schema.body)], v.1.id = x →
      x ∈ polymorphicLets [.define d] ∨ Mention.binder x 0 0 ∈ mentionsMatches [.define d] := by
    intro v hv hx
    rw [List.mem_singleton.mp hv] at hx
    rw [hmentions]
    by_cases hmono : d.schema.isMono = true
    · have hhead := head_mem_mentions d
      simp only [Schema.isMono, Bool.and_eq_true, List.isEmpty_iff] at hmono
      rw [Mention.head, hmono.1, hmono.2, show d.name.id = x from hx] at hhead
      exact Or.inr hhead
    · refine Or.inl (List.mem_filterMap.mpr ⟨_, List.mem_singleton_self _, ?_⟩)
      rw [Match.polymorphic, if_neg hmono]
      exact congrArg some hx
  refine and_assoc.mp ⟨h.extend hin rfl rfl (hmentions ▸ hd) hvars hhead, ?_⟩
  show Tidy (s.pushAll [declVar d])
  refine hs.pushAll (List.forall_mem_singleton.mpr fun token n t heq => ?_)
  cases heq

/-- The result of a comprehension sees the variables of all arms, without parameters. -/
theorem termUses_comp {len elem : Ty} {result : Term} {arms : List Arm}
    (harms : ∀ arm ∈ arms, arm.Accounts x (s.uses E x))
    (hresult : termUses x ((s.pushAll ((arms.flatMap Arm.vars).map monoVar)).uses E x) result) :
    termUses x (s.uses E x) (.comp len elem result (arms.map Arm.quals)) := by
  rw [termUses, Term.mentions, mentionsArms_eq, List.flatMap_map, List.flatMap_map]
  have hquals : Accounted x (s.uses E x) (arms.flatMap fun arm => mentionsMatches arm.quals) :=
    .flatMap fun arm harm => (harms arm harm).accounted
  by_cases hx : x ∈ arms.flatMap fun arm => polymorphicLets arm.quals
  · -- the uses in the result are left out
    refine (hquals.mono (List.subset_append_left ..)).append fun n token passed hm hn => ?_
    have hout := (List.mem_filter.mp hm).2
    simp [Mention.outside, hn, hx] at hout
  · refine hquals.under (Accounted.filter hresult _) fun token passed hu => ?_
    refine boundUses_or_of_pushAll (exists_head_of_monoVar fun v hv hvx => ?_) hu
    obtain ⟨arm, harm, hv⟩ := List.mem_flatMap.mp hv
    rw [hvx]
    refine List.mem_flatMap.mpr ⟨arm, harm, ((harms arm harm).vars v hv hvx).resolve_left ?_⟩
    exact fun hlet => hx (List.mem_flatMap.mpr ⟨arm, harm, hlet⟩)

/-! ## Scopes -/

/-- The groups of the innermost scope. -/
def State.groups (s : State) : List Group := (s.scopes.head?.map fun sc => sc.content.groups).getD []

/-- The groups of the innermost scope account for their uses, and so they do for what is in
scope. -/
structure ScopeUses (x : Int) (E : External) (U : Uses) (s : State) : Prop where
  tidy : Tidy s
  accounted : Accounted x U (mentionsGroups s.groups)
  inScope : ∀ token passed, s.uses E x token passed →
    boundUses x (mentionsGroups s.groups) token passed ∨ U token passed

namespace ScopeUses

theorem of_eq (h : ScopeUses x E U s) (hs' : Tidy s') (hgroups : s'.groups = s.groups)
    (htype : s'.typeOf E x = s.typeOf E x) : ScopeUses x E U s' where
  tidy := hs'
  accounted := by rw [hgroups]; exact h.accounted
  inScope := by
    rw [hgroups]
    unfold State.uses
    rw [htype]
    exact h.inScope

theorem frame (h : ScopeUses x E U s) (hframe : Frame s s') : ScopeUses x E U s' :=
  h.of_eq (h.tidy.of_vars hframe.vars) (by rw [State.groups, hframe.scopes]; rfl)
    (typeOf_of_vars hframe.vars)

/-- A scope that has just been opened. -/
theorem opened (hs : Tidy s) (sc : ScopeKind) (n : Name) :
    ScopeUses x E (s.uses E x) { s with scopes := ⟨sc, .empty n⟩ :: s.scopes } where
  tidy := hs.of_vars rfl
  accounted := .nil
  inScope _ _ hu := Or.inr hu

theorem modifyScope {f : Module → Module} {a : Unit} (h : ScopeUses x E U s)
    (hr : Returns (Infer.modifyScope f) c s a s') (hf : ∀ m, (f m).groups = m.groups) :
    ScopeUses x E U s' := by
  obtain ⟨sc, rest, hscopes, rfl⟩ := returns_modifyScope hr
  refine h.of_eq (h.tidy.of_vars rfl) ?_ rfl
  rw [State.groups, State.groups, hscopes]
  exact hf sc.content

/-- A variable other than `x` is declared. -/
theorem push (h : ScopeUses x E U s) (n : Name) (sc : Schema) (hx : n.id ≠ x) :
    ScopeUses x E U (s.push (n, .known sc)) := by
  refine h.of_eq ?_ rfl ((typeOf_push ..).trans (if_neg (Ne.symm hx)))
  show Tidy (s.pushAll [(n, .known sc)])
  refine h.tidy.pushAll (List.forall_mem_singleton.mpr fun token n t heq => ?_)
  cases heq

/-- More groups, which account for what is declared with them. -/
theorem extend (h : ScopeUses x E U s) {gs : List Group} (hs' : Tidy s')
    (hgroups : s'.groups = s.groups ++ gs) (hgs : Accounted x (s.uses E x) (mentionsGroups gs))
    (hin : ∀ token passed, s'.uses E x token passed →
      boundUses x (mentionsGroups gs) token passed ∨ s.uses E x token passed) :
    ScopeUses x E U s' := by
  have hmentions : mentionsGroups s'.groups = mentionsGroups s.groups ++ mentionsGroups gs := by
    rw [hgroups, mentionsGroups_append]
  refine ⟨hs', ?_, fun token passed hu => ?_⟩
  · rw [hmentions]
    exact h.accounted.under hgs h.inScope
  · rw [hmentions]
    rcases hin token passed hu with hbound | hu
    · exact Or.inl (boundUses_mono (List.subset_append_right ..) hbound)
    · exact (h.inScope token passed hu).imp_left (boundUses_mono (List.subset_append_left ..))

/-- A group whose definitions stay declared. -/
theorem addGroup (h : ScopeUses x E U s) {recursive : Bool} {out : List Decl} {a : Unit}
    (hout : Accounted x (s.uses E x) (mentionsDecls out))
    (hr : Returns (Infer.addGroup (.mk recursive out)) c (s.pushAll (out.map declVar)) a s') :
    ScopeUses x E U s' := by
  obtain ⟨sc, rest, hscopes, rfl⟩ := returns_modifyScope hr
  rw [scopes_pushAll] at hscopes
  have hmentions : mentionsGroups [.mk recursive out] = mentionsDecls out := List.append_nil _
  have hs' : Tidy (s.pushAll (out.map declVar)) := h.tidy.pushAll fun v hv token n t heq => by
    obtain ⟨d, -, rfl⟩ := List.mem_map.mp hv
    cases heq
  refine h.extend (hs'.of_vars rfl) ?_ (hmentions ▸ hout) fun token passed hu => ?_
  · rw [State.groups, State.groups, hscopes]
    rfl
  · rw [hmentions]
    refine boundUses_or_of_pushAll (fun v hv _ => ?_) hu
    obtain ⟨d, hd, rfl⟩ := List.mem_map.mp hv
    exact ⟨d.schema, rfl, head_mem_mentionsDecls hd⟩

end ScopeUses

/-! ## Bindings of a group -/

theorem OtherUses.cons {plan : Plan} {b : Bind} {bs : List Bind} {d : Decl} {ds : List Decl}
    (h : OtherUses x plan bs U ds) (hgen : ¬plan.generalizes b = true) (hname : d.name = b.name)
    (hschema : plan.signatures.find? d.name.id = some d.schema ∨
      plan.signatures.find? d.name.id = none ∧ ∃ t, d.schema = .mono t)
    (hd : Accounted x U d.mentions) : OtherUses x plan (b :: bs) U (d :: ds) where
  names := by
    rw [List.filter_cons_of_pos (by rw [Bool.eq_false_of_not_eq_true hgen]; rfl), List.map_cons,
      List.map_cons, hname, h.names]
  schemas := List.forall_mem_cons.mpr ⟨hschema, h.schemas⟩
  accounted := List.forall_mem_cons.mpr ⟨hd, h.accounted⟩

/-! ## Updates -/

theorem covered_checkUpdate {path : List Selector} {how : UpdateHow} {exp : Expected} {out : Term}
    {value : Checker} (h : ∀ exp, Covered x (value exp) (termUses x)) :
    Covered x (checkUpdate path how exp out value) fun U e => termUses x U out → termUses x U e := by
  unfold checkUpdate
  split
  · refine .andThen (framed_freshType ..).scoped fun _ =>
      .andThen (framed_newSelectorGoal ..).scoped fun _ => ?_
    split
    · exact (h _).bind fun v => .pure fun U hv hout => Accounted.append hout hv
    · refine (h _).bind fun f => .andThen (framed_freshName _).scoped fun y =>
        (covered_monoDecl ..).bind fun d => .pure fun U hd hf hout => ?_
      rw [termUses, Term.mentions, mentionsGroups_singles, mentionsDecls, hd]
      refine (((Covers.mono hf ?_).append (Covers.mono hout ?_)).append
        (.bare (n := y) ?_)).of_uses fun hm => ?_
      · intro m hm
        simp only [Term.mentions, List.mem_append]
        grind
      · intro m hm
        simp only [List.mem_append, List.mem_cons]
        grind
      · simp
      · simp only [Term.mentions, mentionsDecls, List.append_nil, List.mem_append, List.mem_cons,
          reduceCtorEq, false_or] at hm ⊢
        grind
  · exact .throw

/-! ## The recursion -/

mutual
theorem covered_checkExpr : ∀ (e : Expr) (exp : Expected) (slots : List (Ty × Nat)),
    (∀ d ∈ e.nested, d.OnlyBinds x) → Covered x (checkExpr e exp slots) (termUses x)
  | .located r e, exp, slots, hx => by
    rw [checkExpr]
    refine (Covered.bind (covered_checkExpr e exp [] hx) fun out =>
      .andThen Framed.read.scoped fun _ => .pure fun U hout => ?_).withRange
    split
    · exact hout
    · exact hout
  | .var n, exp, slots, _ => by
    rw [checkExpr]
    exact covered_checkVar ..
  | .typeApp f args, exp, slots, _ => by
    rw [checkExpr]
    split
    · exact covered_checkVar ..
    · exact .throw
  | .num value base digits, exp, slots, _ => by
    rw [checkExpr]
    exact covered_checkNum ..
  | .frac num den, exp, slots, _ => by
    rw [checkExpr]
    exact covered_checkPrim ..
  | .char code, exp, slots, _ => by
    rw [checkExpr]
    exact covered_checkPrim ..
  | .string str, exp, slots, _ => by
    rw [checkExpr]
    exact covered_checkString ..
  | .typeValue t, exp, slots, _ => by
    rw [checkExpr]
    exact .andThen (framed_checkType ..).scoped fun _ => covered_checkPrim ..
  | .enumeration bounds, exp, slots, _ => by
    rw [checkExpr]
    exact covered_checkEnumeration ..
  | .from first, exp, slots, hx => by
    rw [checkExpr]
    exact .andThen (framed_prim _).scoped fun _ => .andThen (framed_openSpine ..).scoped fun _ =>
      (covered_checkVar ..).bind fun _ => (covered_checkExpr first _ [] hx).bind fun _ =>
      .pure fun _ ha hfn => Accounted.append hfn ha
  | .fromThen first next, exp, slots, hx => by
    rw [checkExpr]
    rw [Expr.nested, List.forall_mem_append] at hx
    exact .andThen (framed_prim _).scoped fun _ => .andThen (framed_openSpine ..).scoped fun _ =>
      (covered_checkVar ..).bind fun _ => .andThen (framed_openSpine ..).scoped fun _ =>
      (covered_checkExpr first _ [] hx.1).bind fun _ => (covered_checkExpr next _ [] hx.2).bind fun _ =>
      .pure fun _ hb ha hfn => (Accounted.append hfn ha).append hb
  | .tuple es, exp, slots, hx => by
    rw [checkExpr]
    exact .andThen (framed_expectTuple ..).scoped fun _ => (covered_checkEach es _ hx).bind fun _ =>
      .pure fun _ hes => accounted_mentionsList hes
  | .record fs, exp, slots, hx => by
    rw [checkExpr]
    exact .andThen (framed_expectRecord ..).scoped fun _ =>
      (covered_checkRecordFields fs _ hx).bind fun _ => .pure fun _ hfs => hfs
  | .list es, exp, slots, hx => by
    rw [checkExpr]
    exact .andThen (framed_expectSeq _).scoped fun _ => .andThen (framed_unifyExact ..).scoped fun _ =>
      (covered_checkEach es _ hx).bind fun _ => .pure fun _ hes => accounted_mentionsList hes
  | .select e sel, exp, slots, hx => by
    rw [checkExpr]
    exact .andThen (framed_freshType ..).scoped fun _ => (covered_checkExpr e _ [] hx).bind fun _ =>
      .andThen (framed_newSelectorGoal ..).scoped fun _ => .pure fun _ he => he
  | .update record fields, exp, slots, hx => by
    rw [checkExpr]
    rw [Expr.nested, List.forall_mem_append] at hx
    exact (covered_checkExpr record exp [] hx.1).bind fun _ => covered_checkUpdates fields exp _ hx.2
  | .updater fields, exp, slots, hx => by
    rw [checkExpr]
    exact .andThen (framed_freshName _).scoped fun _ => covered_checkLambda fun _ =>
      (covered_checkVar ..).bind fun _ => covered_checkUpdates fields _ _ hx
  | .comp result arms, exp, slots, hx => by
    refine ⟨scoped_checkExpr _ exp slots, fun {c s s' out} h hs => ?_⟩
    rw [Expr.nested, List.forall_mem_append] at hx
    rw [checkExpr] at h
    simp only [returns_bind, unstash, returns_modify, returns_pure] at h
    obtain ⟨⟨n, elem⟩, s₁, hseq, as, s₂, harms, ⟨⟩, s₃, hunify, ⟨⟩, _, hdeclare, e, s₄, he, ⟨⟩, _, -,
      rfl, -⟩ := h
    obtain rfl := returns_declareEach (f := monoVar) hdeclare
    have hvars₁ := ((framed_expectSeq _).step hseq).vars
    have hs₁ := hs.of_vars hvars₁
    have harms' := (covered_checkArms arms [] hx.2).covers harms hs₁
    have hvars₂ := ((scoped_checkArms arms []).step harms hs₁.sorted).vars
    have hvars₃ : s₃.vars = s₁.vars := ((framed_unifyFrom ..).step hunify).vars.trans hvars₂
    have he := (covered_checkExpr result _ [] hx.1).covers he ((hs₁.of_vars hvars₃).pushMonos _)
    rw [← uses_of_vars hvars₁, ← uses_of_vars hvars₃]
    rw [← uses_of_vars hvars₃] at harms'
    exact termUses_comp harms' he
  | .app f a, exp, slots, hx => by
    rw [checkExpr]
    rw [Expr.nested, List.forall_mem_append] at hx
    exact .andThen (framed_openSpine ..).scoped fun _ => (covered_checkExpr f _ _ hx.1).bind fun _ =>
      (covered_checkExpr a _ [] hx.2).bind fun _ => .pure fun _ ha hf => Accounted.append hf ha
  | .ifThenElse c t e, exp, slots, hx => by
    rw [checkExpr]
    rw [Expr.nested, List.forall_mem_append, List.forall_mem_append] at hx
    exact (covered_checkExpr c _ [] hx.1).bind fun _ => (covered_checkExpr t exp [] hx.2.1).bind fun _ =>
      (covered_checkExpr e exp [] hx.2.2).bind fun _ =>
      .pure fun _ he ht hc => Accounted.append hc (Accounted.append ht he)
  | .block body ds, exp, slots, hx => by
    refine ⟨scoped_checkExpr _ exp slots, fun {c s s' out} h hs => ?_⟩
    rw [Expr.nested, List.forall_mem_append] at hx
    obtain ⟨s₀, y, k, s₁, e, s₂, sc, rest, hframe, hds, hbody, hscopes, rfl, -⟩ :=
      returns_checkExpr_block h
    have hs₀ := hs.of_vars hframe.vars
    have hscope := scopeUses_checkDecls ds hds hx.2 (.opened hs₀ .block y)
    have hgroups : s₁.groups = sc.content.groups := by
      rw [State.groups, ← ((scoped_checkExpr body exp []).step hbody hscope.tidy.sorted).scopes, hscopes]
      rfl
    have he := (covered_checkExpr body exp [] hx.1).covers hbody hscope.tidy
    have hall := hscope.accounted.under he hscope.inScope
    rw [hgroups, uses_of_vars hframe.vars] at hall
    exact hall.congr fun {m} => by simp only [Term.mentions, List.mem_append, or_comm]
  | .typed e t, exp, slots, hx => by
    rw [checkExpr]
    exact .andThen (framed_checkType ..).scoped fun _ => (covered_checkExpr e _ [] hx).bind fun _ =>
      .andThen (framed_unifyExact ..).scoped fun _ => .pure fun _ he => he
  | .lambda ps body, exp, slots, hx => by
    rw [checkExpr]
    exact covered_checkLambda fun exp => covered_checkExpr body exp [] hx

theorem covered_checkEach : ∀ (es : List Expr) (exps : List Expected),
    (∀ d ∈ Surface.nestedEach es, d.OnlyBinds x) →
    Covered x (checkEach es exps) fun U outs => ∀ e ∈ outs, termUses x U e
  | e :: es, exp :: exps, hx => by
    rw [checkEach]
    rw [Surface.nestedEach, List.forall_mem_append] at hx
    exact (covered_checkExpr e exp [] hx.1).bind fun _ => (covered_checkEach es exps hx.2).bind fun _ =>
      .pure fun _ hes he => List.forall_mem_cons.mpr ⟨he, hes⟩
  | [], _, _ => by
    rw [checkEach]
    · exact .pure fun _ => List.forall_mem_nil _
    · simp
  | _ :: _, [], _ => by
    rw [checkEach]
    · exact .pure fun _ => List.forall_mem_nil _
    · simp

theorem covered_checkRecordFields : ∀ (fs : List (String × Expr)) (fields : Table String Ty),
    (∀ d ∈ Surface.nestedFields fs, d.OnlyBinds x) →
    Covered x (checkRecordFields fs fields) fun U outs => Accounted x U (mentionsFields outs)
  | [], _, _ => by
    rw [checkRecordFields]
    exact .pure fun _ => .nil
  | (l, e) :: fs, fields, hx => by
    rw [checkRecordFields]
    rw [Surface.nestedFields, List.forall_mem_append] at hx
    exact (covered_checkExpr e _ [] hx.1).bind fun _ =>
      (covered_checkRecordFields fs fields hx.2).bind fun _ =>
      .pure fun _ hfs he => Accounted.append he hfs

theorem covered_checkUpdates : ∀ (fs : List (List Selector × UpdateHow × Expr)) (exp : Expected)
    (out : Term), (∀ d ∈ Surface.nestedUpdates fs, d.OnlyBinds x) →
    Covered x (checkUpdates fs exp out) fun U e => termUses x U out → termUses x U e
  | [], _, _, _ => by
    rw [checkUpdates]
    exact .pure fun _ h => h
  | (path, how, e) :: fs, exp, out, hx => by
    rw [checkUpdates]
    rw [Surface.nestedUpdates, List.forall_mem_append] at hx
    exact (covered_checkUpdate fun exp => covered_checkExpr e exp [] hx.1).bind fun _ =>
      (covered_checkUpdates fs exp _ hx.2).imp fun _ _ h hupdate hout => h (hupdate hout)

theorem covered_checkArms : ∀ (arms : List (List Surface.Match)) (seen : List Int),
    (∀ d ∈ Surface.nestedArms arms, d.OnlyBinds x) →
    Covered x (checkArms seen arms) fun U as => ∀ arm ∈ as, arm.Accounts x U
  | [], _, _ => by
    rw [checkArms]
    exact .pure fun _ => List.forall_mem_nil _
  | ms :: arms, seen, hx => by
    refine ⟨scoped_checkArms _ seen, fun {c s s' as} h hs => ?_⟩
    rw [Surface.nestedArms, List.forall_mem_append] at hx
    rw [checkArms] at h
    simp only [returns_bind, unstash, returns_modify, returns_pure] at h
    obtain ⟨arm, s₁, harm, ⟨⟩, _, rfl, seen', s₂, hrepeated, rest, _, hrest, rfl, -⟩ := h
    obtain ⟨vs, hlen, hdeclared, hscopes⟩ := declared_checkMatches ms harm hs.sorted
    have hframe := (frame_unstashArm (hlen.trans (Nat.zero_add _)) hdeclared hscopes hs.sorted).trans
      ((framed_checkRepeated ..).step hrepeated)
    have hrest := (covered_checkArms arms _ hx.2).covers hrest (hs.of_vars hframe.vars)
    rw [uses_of_vars hframe.vars] at hrest
    refine List.forall_mem_cons.mpr ⟨?_, hrest⟩
    exact accounts_checkMatches ms harm hx.1 hs (fun _ _ hu => Or.inr hu) ⟨.nil, List.forall_mem_nil _⟩

theorem accounts_checkMatches : ∀ (ms : List Surface.Match) {arm arm' : Arm} {c : Context}
    {s s' : State} {U : Uses}, Returns (checkMatches ms arm) c s arm' s' →
    (∀ d ∈ Surface.nestedMatches ms, d.OnlyBinds x) → Tidy s → InArm x c.external U arm s →
    arm.Accounts x U → arm'.Accounts x U
  | [], arm, arm', c, s, s', U, h, _, _, _, harm => by
    rw [checkMatches, returns_pure] at h
    exact h.1 ▸ harm
  | .draw p e :: ms, arm, arm', c, s, s', U, h, hx, hs, hin, harm => by
    rw [Surface.nestedMatches, List.forall_mem_append] at hx
    rw [checkMatches] at h
    simp only [returns_bind] at h
    obtain ⟨n, s₁, hn, elem, s₂, helem, out, s₃, hout, m, s₄, hm, arm₁, s₅, hdraw, hrest⟩ := h
    have hvars₂ := (((framed_freshType ..).step hn).trans ((framed_freshType ..).step helem)).vars
    have hs₂ := hs.of_vars hvars₂
    have hvars₃ := ((scoped_checkExpr e _ []).step hout hs₂.sorted).vars
    have hs₃ := hs₂.of_vars hvars₃
    have hvars₄ := ((framed_checkPattern ..).step hm).vars
    have hout := (covered_checkExpr e _ [] hx.1).covers hout hs₂
    have hm : m.Accounts x _ := (covered_checkPattern ..).covers hm hs₃
    have hvars : s₄.vars = s.vars := hvars₄.trans (hvars₃.trans hvars₂)
    rw [uses_of_vars hvars₃, uses_of_vars hvars₂, ← uses_of_vars hvars] at hm
    rw [uses_of_vars hvars₂, ← uses_of_vars hvars] at hout
    obtain ⟨harm, hin, hs₅⟩ := harm.draw (hin.of_vars hvars) (hs.of_vars hvars) hout hm hdraw
    exact accounts_checkMatches ms hrest hx.2 hs₅ hin harm
  | .define b :: ms, arm, arm', c, s, s', U, h, hx, hs, hin, harm => by
    rw [Surface.nestedMatches, List.forall_mem_append] at hx
    rw [checkMatches] at h
    simp only [returns_bind] at h
    obtain ⟨d, s₁, hd, arm₁, s₂, hdefine, hrest⟩ := h
    have hsingle := covered_checkSingle (b := b) fun exp => covered_checkBody b exp hx.1
    have hvars := (hsingle.step hd hs.sorted).vars
    have hd := (hsingle.covers hd hs).accounted
    rw [← uses_of_vars hvars] at hd
    obtain ⟨harm, hin, hs₂⟩ := harm.define (hin.of_vars hvars) (hs.of_vars hvars) hd hdefine
    exact accounts_checkMatches ms hrest hx.2 hs₂ hin harm

theorem covered_checkBody : ∀ (b : Bind) (exp : Expected), (∀ d ∈ b.nested, d.OnlyBinds x) →
    Covered x (checkBody b exp) (termUses x)
  | .mk _ params (some e) _ _ _ _, exp, hx => by
    rw [checkBody]
    exact covered_withExistentials (covered_checkLambda fun exp => covered_checkExpr e exp [] hx)
  | .mk _ _ none _ _ _ _, _, _ => by
    rw [checkBody]
    exact .throw

theorem covered_checkGeneral : ∀ (bs : List Bind) (plan : Plan),
    (∀ d ∈ Surface.nestedBinds bs, d.OnlyBinds x) →
    Covered x (checkGeneral plan bs) (GeneralUses x plan bs)
  | [], _, _ => by
    rw [checkGeneral]
    exact .pure fun _ => ⟨rfl, List.forall_mem_nil _⟩
  | b :: bs, plan, hx => by
    rw [checkGeneral]
    rw [Surface.nestedBinds, List.forall_mem_append] at hx
    split
    · rename_i hgen
      refine (covered_checkMono fun exp => covered_checkBody b exp hx.1).bind fun d =>
        (covered_checkGeneral bs plan hx.2).bind fun ds => .pure fun U hds hd => ?_
      obtain ⟨e, rfl, he⟩ := hd
      refine ⟨?_, List.forall_mem_cons.mpr ⟨⟨e, rfl, he⟩, hds.bodies⟩⟩
      rw [List.map_cons, hds.names, List.filter_cons_of_pos hgen]
      rfl
    · rename_i hgen
      refine (covered_checkGeneral bs plan hx.2).imp fun U ds hds => ⟨?_, hds.bodies⟩
      rw [hds.names, List.filter_cons_of_neg hgen]

theorem covered_checkOthers : ∀ (bs : List Bind) (plan : Plan),
    (∀ d ∈ Surface.nestedBinds bs, d.OnlyBinds x) →
    Covered x (checkOthers plan bs) (OtherUses x plan bs)
  | [], _, _ => by
    rw [checkOthers]
    exact .pure fun _ => ⟨rfl, List.forall_mem_nil _, List.forall_mem_nil _⟩
  | b :: bs, plan, hx => by
    rw [checkOthers]
    rw [Surface.nestedBinds, List.forall_mem_append] at hx
    split
    · rename_i hgen
      refine (covered_checkOthers bs plan hx.2).imp fun U ds hds => ⟨?_, hds.schemas, hds.accounted⟩
      rw [hds.names, List.filter_cons_of_neg (by rw [hgen]; exact Bool.false_ne_true)]
    · rename_i hgen
      split
      · rename_i sc hfind
        refine (covered_checkSigned fun exp => covered_checkBody b exp hx.1).bind fun d =>
          (covered_checkOthers bs plan hx.2).bind fun ds => .pure fun U hds hd => ?_
        refine hds.cons hgen hd.name (Or.inl ?_) hd.accounted
        rw [hd.name, hd.schema]
        exact hfind
      · rename_i hfind
        refine (covered_checkMono fun exp => covered_checkBody b exp hx.1).bind fun d =>
          (covered_checkOthers bs plan hx.2).bind fun ds => .pure fun U hds hd => ?_
        obtain ⟨e, rfl, he⟩ := hd
        exact hds.cons hgen rfl (Or.inr ⟨hfind, _, rfl⟩) he.cons

theorem scopeUses_checkDecls : ∀ (ds : List Surface.Decl) {top : Bool} {k : Nat} {c : Context}
    {s s' : State} {U : Uses}, Returns (checkDecls top ds) c s k s' →
    (∀ d ∈ Surface.nestedDecls ds, d.OnlyBinds x) → ScopeUses x c.external U s →
    ScopeUses x c.external U s'
  | [], _, _, c, s, s', U, h, _, hs => by
    rw [checkDecls, returns_pure] at h
    exact h.2 ▸ hs
  | d :: ds, top, k, c, s, s', U, h, hx, hs => by
    rw [checkDecls, returns_get_bind] at h
    split at h
    · exact (returns_pure.mp h).2 ▸ hs
    · simp only [returns_bind, returns_pure] at h
      obtain ⟨m, s₁, hd, n, _, hds, -, rfl⟩ := h
      rw [Surface.nestedDecls, List.forall_mem_append] at hx
      exact scopeUses_checkDecls ds hds hx.2 (scopeUses_checkDecl d hd hx.1 hs)

theorem scopeUses_checkDecl : ∀ (d : Surface.Decl) {top : Bool} {k : Nat} {c : Context}
    {s s' : State} {U : Uses}, Returns (checkDecl top d) c s k s' →
    (∀ d' ∈ d.nested, d'.OnlyBinds x) → ScopeUses x c.external U s → ScopeUses x c.external U s'
  | .synonym n params body range, _, _, c, s, s', U, h, _, hs => by
    simp only [checkDecl, returns_bind, returns_pure] at h
    obtain ⟨⟨⟩, _, h, -, rfl⟩ := h
    obtain ⟨ws, ps, k, s₁, t, k', s₂, ts, hdeclare, hinfer, -, -, -, hadd⟩ :=
      returns_checkSynonym h
    have hbefore := ((frame_warnings s ws).trans ((Kinding.framed_declare _).step hdeclare)).trans
      ((Kinding.framed_infer ..).step hinfer)
    exact (hs.frame hbefore).modifyScope hadd fun _ => rfl
  | .newtype n params fields conName range, _, _, c, s, s', U, h, hx, hs => by
    simp only [checkDecl, returns_bind, returns_pure] at h
    obtain ⟨⟨⟩, _, h, -, rfl⟩ := h
    obtain ⟨ps, k, s₁, fs, k', s₂, nt, s₃, hdeclare, hfields, -, -, hcon, -, hadd, rfl⟩ :=
      returns_checkNewtype h
    have hbefore := ((Kinding.framed_declare _).step hdeclare).trans
      ((Kinding.framed_checkFields _).step hfields)
    refine ((hs.frame hbefore).modifyScope hadd fun _ => rfl).push _ _ ?_
    rw [hcon]
    exact hx _ (List.mem_singleton_self _)
  | .primType n kind props range, _, _, c, s, s', U, h, _, hs => by
    simp only [checkDecl, returns_bind, returns_pure] at h
    obtain ⟨⟨⟩, _, h, -, rfl⟩ := h
    obtain ⟨ps, k, s₁, hprops, hadd⟩ := returns_checkPrimType h
    exact (hs.frame ((Kinding.framed_checkProps _).step hprops)).modifyScope hadd fun _ => rfl
  | .paramType n kind range, _, _, c, s, s', U, h, _, hs => by
    simp only [checkDecl, returns_bind, returns_pure] at h
    obtain ⟨⟨⟩, _, h, -, rfl⟩ := h
    obtain ⟨p, s₁, hframe, hadd⟩ := returns_checkParamType h
    exact (hs.frame hframe).modifyScope hadd fun _ => rfl
  | .paramProps props range, _, _, c, s, s', U, h, _, hs => by
    simp only [checkDecl, returns_bind, returns_pure] at h
    obtain ⟨⟨⟩, _, h, -, rfl⟩ := h
    obtain ⟨ps, k, s₁, s₂, s₃, hprops, hframe, hadd, hframe'⟩ := returns_checkParamProps h
    have hbefore := ((Kinding.framed_checkProps _).step hprops).trans hframe
    exact ((hs.frame hbefore).modifyScope hadd fun _ => rfl).frame hframe'
  | .paramFun n sig range, _, _, c, s, s', U, h, hx, hs => by
    obtain ⟨sc, s₁, s₂, hsig, hadd, rfl, -⟩ := returns_checkDecl_paramFun h
    have hbefore := hs.frame ((framed_checkSignature _).step hsig)
    exact (hbefore.modifyScope hadd fun _ => rfl).push _ _ (hx _ (List.mem_singleton_self _))
  | .group recursive binds, _, _, c, s, s', U, h, hx, hs => by
    rw [Surface.Decl.nested, List.forall_mem_cons] at hx
    obtain ⟨plan, s₁, out, s₂, hplan, hgroup, hadd, -⟩ := returns_checkDecl_group h
    obtain ⟨vs, hlen, hdeclared, hscopes⟩ := declared_planGroup hplan
    have hframe := frame_checkGroup hdeclared hscopes hlen hs.tidy.sorted
      (scoped_checkGeneral binds plan) (scoped_checkOthers binds plan) hgroup
    have hout := accounted_checkGroup hplan hgroup hs.tidy hx.1
      (covered_checkGeneral binds plan hx.2) (covered_checkOthers binds plan hx.2)
    rw [← uses_of_vars hframe.vars] at hout
    exact (hs.frame hframe).addGroup hout hadd
  | .submodule n ds range, _, _, c, s, s', U, h, hx, hs => by
    rw [Surface.Decl.nested, List.forall_mem_cons] at hx
    obtain ⟨s₁, hds, hclose⟩ := returns_checkDecl_submodule h
    obtain ⟨child, parent, rest, hscopes, -, rfl⟩ := returns_closeSubmodule hclose
    obtain ⟨vs, -, hfilled⟩ := filled_checkDecls ds hds hs.tidy.sorted
    have hchild := scopeUses_checkDecls ds (c := c.located range) hds hx.2
      (.opened hs.tidy .submodule n)
    have hparent : parent :: rest = s.scopes := by
      have htail := hfilled.outerScopes
      rw [show s₁.scopes = child :: parent :: rest from hscopes] at htail
      exact htail
    have hgroups : s₁.groups = child.content.groups := by
      rw [State.groups, show s₁.scopes = child :: parent :: rest from hscopes]
      rfl
    refine hs.extend (hchild.tidy.of_vars rfl) ?_ hchild.accounted hchild.inScope
    rw [hgroups, State.groups, State.groups, ← hparent]
    rfl
end

end SizedTypes.Infer
