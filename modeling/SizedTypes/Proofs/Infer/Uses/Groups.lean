import SizedTypes.Proofs.Infer.RecursiveCalls
import SizedTypes.Proofs.Infer.Uses

/-!
# Uses in functions, bindings and groups

The parameters of a function account for the uses of them in its body, and a definition accounts
for its uses as its term does. Once a group is generalized, no place-holder for one of its bindings
is left: a use of the binding passes what the schema of its definition demands. A group in which a
variable is defined at most once keeps that definition.
-/

set_option autoImplicit false

namespace SizedTypes.Infer

open Surface (Bind Pattern)
open SizedTypes.Core

variable {x : Int} {U : Uses} {c : Context} {s s' : State}

/-! ## Functions -/

/-- Variables without parameters are declared as they are bound. -/
theorem exists_head_of_monoVar {vs : List (Name × Ty)} {bs : List Mention}
    (h : ∀ v ∈ vs, v.1.id = x → Mention.binder v.1.id 0 0 ∈ bs) :
    ∀ v ∈ vs.map monoVar, v.1.id = x → ∃ sc, v.2 = .known sc ∧ Mention.head v.1 sc ∈ bs := by
  intro v hv hx
  obtain ⟨w, hw, rfl⟩ := List.mem_map.mp hv
  exact ⟨_, rfl, h w hw hx⟩

theorem Tidy.pushMonos (hs : Tidy s) (vs : List (Name × Ty)) : Tidy (s.pushAll (vs.map monoVar)) :=
  hs.pushAll fun v hv token n t heq => by
    obtain ⟨w, -, rfl⟩ := List.mem_map.mp hv
    cases heq

/-- The parameters of a function account for the uses in their patterns. -/
theorem accounted_checkParams {i : Nat} {ps : List Pattern} {ts : List Ty} {ms : List Matched}
    (h : Returns (checkParams i ps ts) c s ms s') (hs : Tidy s) : ms.length ≤ ts.length ∧
      Accounted x (s.uses c.external x) (ms.flatMap Matched.mentions) ∧
      ∀ v ∈ ms.flatMap Matched.vars, Mention.binder v.1.id 0 0 ∈ ms.flatMap Matched.mentions := by
  induction ps generalizing i ts ms s with
  | nil =>
    rw [checkParams, returns_pure] at h
    · rw [h.1]
      exact ⟨Nat.zero_le _, .nil, List.forall_mem_nil _⟩
    · simp
  | cons p ps ih =>
    cases ts with
    | nil =>
      rw [checkParams, returns_pure] at h
      · rw [h.1]
        exact ⟨Nat.zero_le _, .nil, List.forall_mem_nil _⟩
      · simp
    | cons t ts =>
      simp only [checkParams, returns_bind, returns_pure] at h
      obtain ⟨m, s₁, hm, ⟨⟩, s₂, hdeclare, rest, _, hrest, rfl, rfl⟩ := h
      have hframe := (framed_checkPattern ..).step hm
      obtain rfl := returns_declareEach (f := monoVar) hdeclare
      have hm : m.Accounts x _ := (covered_checkPattern p _).covers hm hs
      have hs₁ := hs.of_vars hframe.vars
      obtain ⟨hlen, hrest, hvars⟩ := ih hrest (hs₁.pushMonos m.vars)
      rw [List.flatMap_cons, List.flatMap_cons]
      refine ⟨Nat.succ_le_succ hlen, ?_, ?_⟩
      · refine hm.accounted.under hrest fun token passed hu => ?_
        rw [← uses_of_vars hframe.vars]
        exact boundUses_or_of_pushAll (exists_head_of_monoVar fun v hv _ => hm.vars v hv) hu
      · exact List.forall_mem_append.mpr ⟨fun v hv => List.mem_append_left _ (hm.vars v hv),
          fun v hv => List.mem_append_right _ (hvars v hv)⟩

theorem mentionsGroups_singles (ds : List Decl) :
    mentionsGroups (Group.singles ds) = mentionsDecls ds := by
  induction ds with
  | nil => rfl
  | cons d ds ih =>
    show (d.mentions ++ []) ++ mentionsGroups (Group.singles ds) = _
    rw [ih, List.append_nil, mentionsDecls]

theorem mentions_underDecls (ds : List Decl) (e : Term) :
    (underDecls ds e).mentions [] = e.mentions [] ++ mentionsDecls ds := by
  unfold underDecls
  split
  · rename_i hnil
    rw [List.isEmpty_iff.mp hnil, mentionsDecls, List.append_nil]
  · rw [Term.mentions, mentionsGroups_singles]

/-- A function has the binders and uses of its parameters and those of its body. -/
theorem mem_mentions_lambda {ms : List Matched} {ts : List Ty} {e : Term}
    (hlen : ms.length ≤ ts.length) {m : Mention} :
    m ∈ ms.flatMap Matched.mentions ++ e.mentions [] ↔
      m ∈ ((ms.zip ts).foldr (fun e body => .abs e.1.name e.2 body)
        (underDecls (ms.flatMap Matched.decls) e)).mentions [] := by
  have habs : ∀ (ps : List (Matched × Ty)) (body : Term),
      (ps.foldr (fun e body => .abs e.1.name e.2 body) body).mentions [] =
        (ps.map Prod.fst).map (fun m => .binder m.name.id 0 0) ++ body.mentions [] := by
    intro ps body
    induction ps with
    | nil => rfl
    | cons p ps ih => rw [List.foldr_cons, Term.mentions, ih]; rfl
  rw [habs, List.map_fst_zip hlen, mentions_underDecls, mentionsDecls_eq, List.flatMap_assoc]
  simp only [Matched.mentions, mentionsDecls_eq, List.mem_append, List.mem_map, List.mem_flatMap,
    List.mem_cons, and_or_left, exists_or, eq_comm]
  simp only [or_comm, or_left_comm]

theorem covered_checkLambda {params : List Pattern} {exp : Expected} {body : Checker}
    (hbody : ∀ exp, Covered x (body exp) (termUses x)) :
    Covered x (checkLambda params exp body) (termUses x) where
  toScoped := scoped_checkLambda fun exp => (hbody exp).toScoped
  covers {c s s' out} h hs := by
    unfold checkLambda at h
    split at h
    · exact (hbody exp).covers h hs
    · simp only [returns_bind, unstash, returns_modify, returns_pure] at h
      obtain ⟨⟨ts, res⟩, s₀, harrow, ms, s₁, hparams, e, s₂, he, ⟨⟩, _, -, rfl, -⟩ := h
      have hvars := ((framed_expectArrow ..).step harrow).vars
      obtain ⟨hdeclared, -⟩ := declared_checkParams hparams
      obtain ⟨hlen, hms, hbound⟩ := accounted_checkParams hparams (hs.of_vars hvars)
      have he := (hbody _).covers he (((hs.of_vars hvars).pushMonos _).of_vars hdeclared.vars)
      rw [uses_of_vars hdeclared.vars] at he
      rw [← uses_of_vars hvars]
      refine (hms.under he fun token passed hu => ?_).congr (mem_mentions_lambda hlen)
      exact boundUses_or_of_pushAll (exists_head_of_monoVar fun v hv _ => hbound v hv) hu

/-! ## Bindings -/

theorem covered_withExistentials {α : Type} {act : Infer α} {post : Uses → α → Prop}
    (h : Covered x act post) : Covered x (withExistentials act) post where
  toScoped := scoped_withExistentials h.toScoped
  covers ha hs := by
    simp only [withExistentials, returns_bind, returns_modify, returns_pure] at ha
    obtain ⟨⟨⟩, _, rfl, b, s₁, hact, ⟨⟩, _, -, rfl, -⟩ := ha
    have hpost := h.covers hact ⟨hs.sorted, hs.named⟩
    exact hpost

theorem covered_collectGoals {α : Type} {act : Infer α} {post : Uses → α → Prop}
    (h : Covered x act post) : Covered x (collectGoals act) fun U r => post U r.1 :=
  .andThen Framed.get.scoped fun _ => .andThen (framed_modifyGoals _).scoped fun _ => h.bind fun _ =>
    .andThen Framed.get.scoped fun _ => .andThen (framed_modifyGoals _).scoped fun _ => .pure fun _ h => h

theorem covered_withParams {α : Type} {ps : List Param} {asmps : List Ty} {act : Infer α}
    {post : Uses → α → Prop} (h : Covered x act post) :
    Covered x (withParams ps asmps act) post := by
  refine .andThen Framed.get.scoped fun outer => .andThen (scoped_modifyParams fun _ => rfl) fun _ =>
    .andThen (Framed.forM fun p _ => framed_nameParam p).scoped fun _ => ?_
  refine .ite (.andThen (scoped_modifyParams fun _ => rfl) fun _ => ?_) ?_
  all_goals
    exact h.bind fun _ => .andThen (scoped_modifyParams fun _ => rfl) fun _ => .pure fun _ h => h

/-- A definition with this name and schema accounts for its uses. -/
structure declUses (x : Int) (n : Name) (P : Schema → Prop) (U : Uses) (d : Decl) : Prop where
  name : d.name = n
  schema : P d.schema
  accounted : Accounted x U d.mentions

theorem covered_checkMono {b : Bind} {t : Ty} {body : Checker}
    (h : ∀ exp, Covered x (body exp) (termUses x)) :
    Covered x (checkMono b t body) fun U d =>
      ∃ e, d = .mk b.name (.mono t) (some e) false b.range ∧ termUses x U e :=
  ((h _).bind fun e => .pure fun _ he => ⟨e, rfl, he⟩).withRange

theorem covered_checkSigned {b : Bind} {sc : Schema} {body : Checker}
    (h : ∀ exp, Covered x (body exp) (termUses x)) :
    Covered x (checkSigned b sc body) (declUses x b.name (· = sc)) := by
  refine (Covered.ite (.pure fun _ => ⟨rfl, rfl, Covers.nil.cons⟩) ?_).withRange
  have hbody : Covered x (withParams sc.params sc.props do
      let r ← collectGoals do
        let e ← body ⟨sc.body, .definition b.name⟩
        simplifyStore false
        return e
      proveSignature (.signature b.name) sc.params r.2
      return r.1) (termUses x) := by
    have hterm : Covered x (do
        let e ← body ⟨sc.body, .definition b.name⟩
        simplifyStore false
        return e) (termUses x) :=
      (h _).bind fun e => .andThen (framed_simplifyStore _).scoped fun _ => .pure fun _ h => h
    exact covered_withParams ((covered_collectGoals hterm).bind fun r =>
      .andThen (framed_proveSignature ..).scoped fun _ => .pure fun _ h => h)
  refine hbody.bind fun e => .pure fun U he => ⟨rfl, rfl, ?_⟩
  rw [Decl.mentions, mentions_generalized]
  exact he.cons

theorem covered_checkSingle {b : Bind} {body : Checker}
    (h : ∀ exp, Covered x (body exp) (termUses x)) :
    Covered x (checkSingle b body) (declUses x b.name fun _ => True) := by
  unfold checkSingle
  split
  · exact .andThen (framed_checkSignature _).scoped fun _ =>
      (covered_checkSigned h).imp fun _ _ hd => ⟨hd.name, trivial, hd.accounted⟩
  · exact .andThen (framed_freshType ..).scoped fun _ =>
      (covered_checkMono h).imp fun _ _ ⟨e, heq, he⟩ => heq ▸ ⟨rfl, trivial, he.cons⟩

/-! ## Groups -/

variable {x : Int} {U : Uses} {E : External} {c : Context} {s s' : State}

/-- The uses of `x` that one of the definitions demands. -/
def headUses (x : Int) (ds : List Decl) : Uses := fun token passed =>
  ∃ d ∈ ds, d.name.id = x ∧ usesOf (.known d.schema) token passed

theorem headUses_mono {ds ds' : List Decl} (h : ds ⊆ ds') {token : Option Int} {passed : List Passed}
    (hu : headUses x ds token passed) : headUses x ds' token passed := by
  obtain ⟨d, hd, hx, hu⟩ := hu
  exact ⟨d, h hd, hx, hu⟩

theorem head_mem_mentions (d : Decl) : Mention.head d.name d.schema ∈ d.mentions := by
  obtain ⟨n, sc, _ | e, prim, r⟩ := d
  · exact List.mem_singleton_self _
  · exact List.mem_cons_self ..

theorem head_mem_mentionsDecls {d : Decl} {ds : List Decl} (hd : d ∈ ds) :
    Mention.head d.name d.schema ∈ mentionsDecls ds := by
  rw [mentionsDecls_eq]
  exact List.mem_flatMap.mpr ⟨d, hd, head_mem_mentions d⟩

theorem boundUses_of_headUses {ds : List Decl} {token : Option Int} {passed : List Passed}
    (h : headUses x ds token passed) : boundUses x (mentionsDecls ds) token passed := by
  obtain ⟨d, hd, rfl, hu⟩ := h
  exact boundUses_head (head_mem_mentionsDecls hd) hu

/-! ## Generalization -/

theorem Closing.Drawn.length_params {cl : Closing} (h : cl.Drawn) :
    cl.params.length = cl.vars.length := by
  obtain ⟨next, heq⟩ := h
  rw [(Prod.mk.inj heq).1]
  exact (length_freshParams ..).trans (length_paramOrder _)

variable {ds out : List Decl} {goals : List Goal} {group : List (Int × Int)} {g : Generalization}

theorem Generalization.length_bodies : (g.bodies ds).length = ds.length := by
  rw [bodies, startBodies, List.length_map, List.length_map]

theorem Generalization.RunsFrom.length_closings (h : g.RunsFrom ds goals group c s) :
    g.closings.length = ds.length := h.forall₂.length_eq.symm.trans length_bodies

theorem Generalization.RunsFrom.names_result (h : g.RunsFrom ds goals group c s) :
    (g.result ds group).map Decl.name = ds.map Decl.name := by
  have hlen : ds.length ≤ (g.closings.zip (g.bodies ds)).length := by
    rw [List.length_zip, h.length_closings, length_bodies, Nat.min_self]
  rw [result, List.map_map]
  show ((g.closings.zip (g.bodies ds)).zip ds).map (Decl.name ∘ Prod.snd) = _
  rw [← List.map_map, List.map_snd_zip hlen]

/-- A recursive use passes what the definition of the binding demands. -/
theorem Generalization.RunsFrom.headUses_of_closing (h : g.RunsFrom ds goals group c s)
    {callee : Closing} (hfind : g.closingOf ds x = some callee) :
    headUses x (g.result ds group) none (Passed.all callee.vars.length callee.props.length) := by
  obtain ⟨i, hi, hzip⟩ :=
    List.mem_iff_getElem.mp (Table.mem_ofList (Table.mem_of_find? hfind))
  have hds : i < ds.length := by
    rw [List.length_zip, List.length_map] at hi
    omega
  have hcl : i < g.closings.length := h.length_closings ▸ hds
  have hbody : i < (g.bodies ds).length := length_bodies ▸ hds
  rw [List.getElem_zip, List.getElem_map] at hzip
  obtain ⟨hx, hcallee⟩ := Prod.mk.inj hzip
  have hdrawn := (h.exists_body (List.getElem_mem hcl)).1
  rw [hcallee] at hdrawn
  refine ⟨closeDecl g.simplified.subst group (g.closingOf ds) callee (g.bodies ds)[i] ds[i], ?_, hx,
    rfl, ?_⟩
  · refine List.mem_map.mpr ⟨((callee, (g.bodies ds)[i]), ds[i]), ?_, rfl⟩
    refine List.mem_iff_getElem.mpr ⟨i, ?_, ?_⟩
    · rw [List.length_zip, List.length_zip]
      omega
    · rw [List.getElem_zip, List.getElem_zip, hcallee]
  · show _ = Passed.all callee.params.length (callee.props.map _).length
    rw [hdrawn.length_params, List.length_map]

/-- What is left of uses once a binding is closed: uses of the bindings of the group that have
become calls, and those that no closing replaces. -/
def closedUses (x : Int) (group : List (Int × Int)) (closing : Int → Option Closing) (U : Uses) :
    Uses := fun token passed =>
  (∃ callee, closing x = some callee ∧ token = none ∧
    passed = Passed.all callee.vars.length callee.props.length) ∨
  U token passed ∧ ∀ t, token = some t → group.lookup x = some t → closing x = none

theorem accounted_closeDecl {θ : Subst} {closing : Int → Option Closing} {cl : Closing} {body : Ty}
    {d : Decl} {e : Term} (hbody : d.body = some e) (he : termUses x U e)
    (hU : ∀ t passed, U (some t) passed → passed = []) :
    Accounted x (closedUses x group closing U) (closeDecl θ group closing cl body d).mentions := by
  have hcalls : ∀ n token call, recursiveUse group closing (cl.close θ) n token = some call →
      ∃ callee, closing n.id = some callee ∧ ∀ passed, call.mentions passed =
        [.use n none (Passed.all callee.vars.length callee.props.length ++ passed)] := by
    intro n token call hcall
    unfold recursiveUse at hcall
    split at hcall
    · obtain ⟨callee, hcallee, rfl⟩ := Option.map_eq_some_iff.mp hcall
      refine ⟨callee, hcallee, fun passed => ?_⟩
      rw [mentions_instantiated, List.length_map]
    · cases hcall
  have hbecomes := e.becomes_substitute (f := cl.close θ)
    (g := recursiveUse group closing (cl.close θ)) (fun n token call hcall passed m hm => by
      obtain ⟨callee, -, hmentions⟩ := hcalls n token call hcall
      rw [hmentions] at hm
      exact ⟨_, _, List.mem_singleton.mp hm⟩) []
  unfold closeDecl
  dsimp only
  rw [hbody, Option.map_some, Decl.mentions, mentions_generalized]
  refine Accounted.cons fun n token passed hm hn => ?_
  rcases hbecomes.uses hm with ⟨m, hm, hreplaced⟩ | ⟨rfl, rfl, hbinder⟩
  · cases m with
    | binder i k p => exact hreplaced.elim
    | use n₀ token₀ passed₀ =>
      cases token₀ with
      | none =>
        obtain ⟨rfl, rfl, rfl⟩ := Mention.use.inj hreplaced
        rcases he n none passed hm hn with ⟨-, k, p, hb, hpassed⟩ | hu
        · exact Or.inl ⟨rfl, k, p, hbecomes.binders hb, hpassed⟩
        · exact Or.inr (Or.inr ⟨hu, fun t ht => by cases ht⟩)
      | some t =>
        -- a place-holder belongs to no binder
        have huse : n₀.id = x → U (some t) passed₀ := fun hn₀ =>
          (he n₀ (some t) passed₀ hm hn₀).resolve_left fun hbound => by cases hbound.1
        cases hcall : recursiveUse group closing (cl.close θ) n₀ t with
        | none =>
          simp only [Mention.Replaced, hcall] at hreplaced
          obtain ⟨rfl, rfl, rfl⟩ := Mention.use.inj hreplaced
          refine Or.inr (Or.inr ⟨huse hn, fun t' ht' hgroup => ?_⟩)
          obtain rfl := Option.some.inj ht'
          rw [recursiveUse, hn, hgroup, if_pos (beq_self_eq_true _), Option.map_eq_none_iff] at hcall
          exact hcall
        | some call =>
          simp only [Mention.Replaced, hcall] at hreplaced
          obtain ⟨callee, hcallee, hmentions⟩ := hcalls n₀ t call hcall
          rw [hmentions] at hreplaced
          obtain ⟨rfl, rfl, rfl⟩ := Mention.use.inj (List.mem_singleton.mp hreplaced)
          rw [hU t passed₀ (huse hn), List.append_nil]
          exact Or.inr (Or.inl ⟨callee, hn ▸ hcallee, rfl, rfl⟩)
  · exact Or.inl ⟨rfl, 0, 0, hn ▸ hbinder, rfl⟩

/-- Once a group is generalized, its uses of its own bindings are those that their definitions
demand. -/
theorem accounted_generalize (h : Returns (generalize ds goals group) c s out s')
    (hds : ∀ d ∈ ds, ∃ e, d.body = some e ∧ termUses x U e)
    (hU : ∀ t passed, U (some t) passed → passed = []) :
    out.map Decl.name = ds.map Decl.name ∧ ∀ d ∈ out, Accounted x (fun token passed =>
      headUses x out token passed ∨ U token passed ∧ ∀ t, token = some t →
        group.lookup x = some t → x ∉ ds.map fun d => d.name.id) d.mentions := by
  obtain ⟨g, hrun, rfl, -⟩ := returns_generalize h
  refine ⟨hrun.names_result, fun d hd => ?_⟩
  obtain ⟨e, he, rfl⟩ := List.mem_map.mp hd
  obtain ⟨body, hbody, huses⟩ := hds e.2 (List.of_mem_zip he).2
  refine (accounted_closeDecl hbody huses hU).imp (fun _ hm => hm) fun token passed hu => Or.inr ?_
  rcases hu with ⟨callee, hcallee, rfl, rfl⟩ | ⟨hu, hkept⟩
  · exact Or.inl (hrun.headUses_of_closing hcallee)
  · refine Or.inr ⟨hu, fun t ht hgroup hx => ?_⟩
    have hlen : (ds.map fun d => d.name.id).length ≤ g.closings.length := by
      rw [List.length_map, hrun.length_closings]
    rw [← List.map_fst_zip hlen] at hx
    obtain ⟨callee, hcallee, -⟩ := Table.exists_find?_ofList hx
    exact nomatch hcallee.symm.trans (hkept t ht hgroup)

end SizedTypes.Infer
