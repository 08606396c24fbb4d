import Mathlib.Data.List.Nodup
import Mathlib.Data.List.Zip
import SizedTypes.Proofs.Infer.Environment

/-!
# Recursive calls

A call within a group passes the callee's variables, closed for the caller. So each predicate of
the callee arrives as that predicate closed for the caller. Predicates that share variables with the
caller are predicates of the caller as well. The others are about variables over which the caller
does not abstract; they arrive with these fixed at closed types.
-/

set_option autoImplicit false

namespace SizedTypes

/-- Closed types in place of variables bring in no variables. -/
theorem Subst.eq_of_mem_image {θ : Subst} (hclosed : ∀ b ∈ θ.bindings, b.2.varIds = []) {i j : Int}
    (hj : j ∈ (θ.image i).vars) : j = i := by
  have key : ∀ bs : List (TyVar × Ty), (∀ b ∈ bs, b.2.varIds = []) →
      ∀ j ∈ (imageOf bs i).vars, j = i := by
    intro bs
    induction bs with
    | nil => exact fun _ j hj => List.mem_singleton.mp hj
    | cons b bs ih =>
      intro hbs j hj
      rw [imageOf_cons, Shape.mem_vars_subst] at hj
      obtain ⟨k, hk, hj⟩ := hj
      obtain ⟨hb, hbs⟩ := List.forall_mem_cons.mp hbs
      unfold Shape.single at hj
      split at hj
      · rw [← Ty.varIds_eq_shape, hb] at hj
        cases hj
      · rw [List.mem_singleton.mp hj]
        exact ih hbs k hk
  exact key θ.bindings hclosed j hj

namespace Infer

open SizedTypes.Core (Decl Term)

/-! ## Connected predicates -/

/-- With fuel for every predicate, a predicate that mentions one of the connected variables has
none outside, the fixed ones apart. -/
theorem mem_connectedVars_of_mentions {fixed : List Int} {fuel : Nat} {ids : List Int}
    {ps : List Ty} (hfuel : ps.length < fuel) {p : Ty} (hp : p ∈ ps)
    (hmentions : p.mentions (connectedVars fixed fuel ids ps) = true) {i : Int}
    (hi : i ∈ p.varIds) (hfixed : i ∉ fixed) : i ∈ connectedVars fixed fuel ids ps := by
  induction fuel generalizing ids ps with
  | zero => exact absurd hfuel (Nat.not_lt_zero _)
  | succ fuel ih =>
    rw [connectedVars, List.partition_eq_filter_filter] at hmentions ⊢
    split at hmentions
    · rename_i far hsplit
      have hnear : p ∈ ps.filter (Ty.mentions ids) := List.mem_filter.mpr ⟨hp, hmentions⟩
      rw [(Prod.mk.inj hsplit).1] at hnear
      cases hnear
    · rename_i near far hne hsplit
      obtain ⟨rfl, rfl⟩ := Prod.mk.inj hsplit
      by_cases hnear : p.mentions ids = true
      · refine mem_connectedVars (List.mem_append_right _ (List.mem_filter.mpr ⟨?_, ?_⟩))
        · exact Ty.mem_freeIds.mpr ⟨p, List.mem_filter.mpr ⟨hp, hnear⟩, hi⟩
        · simpa using hfixed
      · -- some predicate is near, so fewer are left
        refine ih ?_ (List.mem_filter.mpr ⟨hp, by simpa using hnear⟩) hmentions
        obtain ⟨q, hq⟩ := List.exists_mem_of_ne_nil _ hne
        obtain ⟨hq, hids⟩ := List.mem_filter.mp hq
        have hlt : (ps.filter (not ∘ Ty.mentions ids)).length < ps.length :=
          List.length_filter_lt_length_iff_exists.mpr ⟨q, hq, by simp [hids]⟩
        omega

/-- A binding abstracts over all variables that the group quantifies and a predicate of the binding
mentions. -/
theorem mem_ownIds_of_mentions {body : Ty} {seeds : List Ty} {vars : List TyVar} {props : List Ty}
    {p : Ty} (hp : p ∈ props) (hmentions : p.mentions (ownIds body seeds vars props) = true)
    {v : TyVar} (hv : v ∈ vars) (hvp : v.id ∈ p.varIds) : v.id ∈ ownIds body seeds vars props := by
  refine mem_connectedVars_of_mentions (Nat.lt_succ_self _) hp hmentions hvp ?_
  simp only [List.mem_filter, Bool.not_eq_true', List.contains_eq_mem, decide_eq_false_iff_not,
    not_and, not_not]
  exact fun _ => List.mem_map_of_mem hv

/-! ## Arguments of a recursive call -/

theorem varIds_closedFor {k : Kind} {t : Ty} (h : closedFor k = some t) : t.varIds = [] := by
  unfold closedFor at h
  split at h <;> cases h <;> rfl

/-- The parameters of a closing have ids of their own, and none of the predicates mentions one. -/
structure Closing.Fresh (cl : Closing) (props : List Ty) : Prop where
  nodup : (cl.params.map Param.id).Nodup
  unused : ∀ p ∈ props, ∀ i ∈ p.shape.params, i ∉ cl.params.map Param.id

/-- Types given for the variables of a closing reach its parameters. -/
theorem Closing.Drawn.find?_assignment {cl : Closing} (h : cl.Drawn)
    (horder : paramOrder cl.vars = cl.vars) (hnodup : (cl.params.map Param.id).Nodup)
    (f : TyVar → Ty) {v : TyVar} (hv : v ∈ cl.vars) :
    ∃ p w, w.id = v.id ∧ cl.byVar.find? v.id = some p ∧
      (Schema.assignment cl.params (cl.vars.map f)).find? p.id = some (f w) := by
  obtain ⟨next, heq⟩ := h
  obtain ⟨hparams, hby⟩ := Prod.mk.inj heq
  rw [hparams] at hnodup ⊢
  rw [hby]
  obtain ⟨p, -, hfind⟩ := find?_quantifyVars hv next
  obtain ⟨w, hid, hpair⟩ := mem_zip_of_find?_quantifyVars hfind
  have hassign := Schema.find?_assignment_quantifyVars f hnodup hpair
  rw [horder] at hassign
  exact ⟨p, w, hid, hfind, hassign⟩

/-- What closing a type puts in place of a variable. -/
def Closing.image (cl : Closing) (θ : Subst) (i : Int) : Shape :=
  ((θ.image i).subst cl.others.image).bind
    (fun j => ((cl.byVar.find? j).map fun p => Shape.param p.id).getD (.var j)) .param

theorem Closing.shape_close (cl : Closing) (θ : Subst) (t : Ty) :
    (cl.close θ t).shape = t.shape.subst (cl.image θ) := by
  rw [Closing.close, Ty.shape_quantify, Subst.shape_apply, Subst.shape_apply, Shape.subst_subst,
    Shape.subst, Shape.bind_bind]
  rfl

theorem Closing.image_eq_var {cl : Closing} {θ : Subst} {i : Int} (hθ : θ.lookup i = none)
    (hothers : cl.others.lookup i = none) (hby : cl.byVar.find? i = none) :
    cl.image θ i = .var i := by
  simp [Closing.image, Subst.image_eq_var hθ, Subst.image_eq_var hothers, hby]

/-- A predicate that is closed over the parameters of `callee` and used at the variables of
`callee`, closed for another binding, is the predicate closed for that binding. -/
theorem Closing.shape_instantiate_quantify {callee caller : Closing} {θ : Subst} {p : Ty}
    (hdrawn : callee.Drawn) (horder : paramOrder callee.vars = callee.vars)
    (hfresh : callee.Fresh [p])
    (hrest : ∀ i ∈ p.varIds, (∀ v ∈ callee.vars, v.id ≠ i) → caller.image θ i = .var i) :
    ((p.quantify callee.byVar).instantiate (Schema.assignment callee.params
      (callee.vars.map fun v => caller.close θ (.free v)))).shape = (caller.close θ p).shape := by
  rw [Ty.shape_instantiate, Ty.shape_quantify, Shape.bind_bind, caller.shape_close]
  refine Shape.bind_congr (fun i hi => ?_) (fun i hi => ?_)
  · rw [← Ty.varIds_eq_shape] at hi
    by_cases hown : ∃ v ∈ callee.vars, v.id = i
    · obtain ⟨v, hv, rfl⟩ := hown
      obtain ⟨q, w, hwv, hfind, hassign⟩ := hdrawn.find?_assignment horder hfresh.nodup
        (fun v => caller.close θ (.free v)) hv
      rw [hfind, Option.map_some, Option.getD_some, Shape.bind_param, hassign, Option.map_some,
        Option.getD_some, caller.shape_close, Ty.shape_free, Shape.subst_var, hwv]
    · have hby : callee.byVar.find? i = none :=
        Option.eq_none_iff_forall_ne_some.mpr fun q hq => hown (hdrawn.mem_vars hq)
      rw [hby, Option.map_none, Option.getD_none, Shape.bind_var]
      exact (hrest i hi fun v hv heq => hown ⟨v, hv, heq⟩).symm
  · -- parameters of outer schemas are none of the callee's
    have hnone : (Schema.assignment callee.params
        (callee.vars.map fun v => caller.close θ (.free v))).find? i = none := by
      refine Option.eq_none_iff_forall_ne_some.mpr fun t ht => ?_
      obtain ⟨e, he, heq⟩ := List.mem_map.mp (Table.mem_ofList (Table.mem_of_find? ht))
      obtain rfl := congrArg Prod.fst heq
      exact hfresh.unused p (List.mem_singleton_self p) _ hi
        (List.mem_map_of_mem (List.of_mem_zip he).1)
    rw [Shape.bind_param, hnone]
    rfl

/-! ## Calls within a group -/

variable {ds out : List Decl} {goals : List Goal} {group : List (Int × Int)} {c : Context}
  {s s' : State} {g : Generalization}

/-- The predicates of the group mention no variable that is bound. -/
theorem Generalization.RunsFrom.lookup_props (h : g.RunsFrom ds goals group c s)
    (hs : s.subst.Triangular) {p : Ty} (hp : p ∈ g.props ds goals group) {i : Int}
    (hi : i ∈ p.varIds) : g.simplified.subst.lookup i = none := by
  obtain ⟨_, hdefaults⟩ := h.defaults
  have hdefaulted := ((framed_defaultVars ..).step hdefaults).triangular
    ((framed_solveSelectors.step h.selectors).triangular hs)
  obtain ⟨l, hl, rfl⟩ := List.mem_map.mp hp
  exact ((returns_simplifyGoals h.simplify).2 hdefaulted).2 l (List.mem_filter.mp hl).1 i hi

/-- A binding keeps the predicates about its variables. -/
theorem Generalization.RunsFrom.mem_props (h : g.RunsFrom ds goals group c s) {cl : Closing}
    (hcl : cl ∈ g.closings) {p : Ty} (hp : p ∈ g.props ds goals group) {v : TyVar}
    (hv : v ∈ cl.vars) (hvp : v.id ∈ p.varIds) : p ∈ cl.props := by
  obtain ⟨-, b, hcl⟩ := h.exists_body hcl
  rw [hcl, Closing.mem_vars_of] at hv
  rw [hcl]
  refine List.mem_filter.mpr ⟨hp, List.any_eq_true.mpr ⟨v.id, hvp, ?_⟩⟩
  exact List.contains_iff_mem.mpr hv.2

/-- A binding abstracts over all variables of the group in the predicates that it keeps. -/
theorem Generalization.RunsFrom.mem_vars_of_mem_props (h : g.RunsFrom ds goals group c s)
    {cl : Closing} (hcl : cl ∈ g.closings) {p : Ty} (hp : p ∈ cl.props) {v : TyVar}
    (hv : v ∈ g.vars ds goals group) (hvp : v.id ∈ p.varIds) : v ∈ cl.vars := by
  obtain ⟨-, b, hcl⟩ := h.exists_body hcl
  rw [hcl] at hp ⊢
  obtain ⟨hp, hmentions⟩ := List.mem_filter.mp hp
  exact Closing.mem_vars_of.mpr ⟨hv, mem_ownIds_of_mentions hp hmentions hv hvp⟩

theorem Generalization.RunsFrom.mem_group_props (h : g.RunsFrom ds goals group c s)
    {cl : Closing} (hcl : cl ∈ g.closings) {p : Ty} (hp : p ∈ cl.props) :
    p ∈ g.props ds goals group := by
  obtain ⟨-, b, hcl⟩ := h.exists_body hcl
  rw [hcl] at hp
  exact (List.mem_filter.mp hp).1

theorem Generalization.RunsFrom.find?_byVar (h : g.RunsFrom ds goals group c s) {cl : Closing}
    (hcl : cl ∈ g.closings) {i : Int} (hi : ∀ v ∈ cl.vars, v.id ≠ i) : cl.byVar.find? i = none := by
  refine Option.eq_none_iff_forall_ne_some.mpr fun q hq => ?_
  obtain ⟨v, hv, heq⟩ := (h.exists_body hcl).1.mem_vars hq
  exact hi v hv heq

/-- Closing fixes the variables of the group over which the binding does not abstract. -/
theorem Generalization.RunsFrom.lookup_others (h : g.RunsFrom ds goals group c s) {cl : Closing}
    (hcl : cl ∈ g.closings) {i : Int} (hi : ∀ v ∈ g.vars ds goals group, v.id = i → v ∈ cl.vars) :
    cl.others.lookup i = none := by
  obtain ⟨-, b, hcl⟩ := h.exists_body hcl
  rw [hcl] at hi ⊢
  rw [Subst.lookup_eq_none_iff]
  intro e he heq
  obtain ⟨hmem, hown, -⟩ := Closing.mem_bindings_others he
  exact hown (Closing.mem_vars_of.mp (hi e.1 hmem heq)).2

/-- Closing leaves alone what the group does not quantify. -/
theorem Generalization.RunsFrom.image_eq_var (h : g.RunsFrom ds goals group c s)
    (hs : s.subst.Triangular) {cl : Closing} (hcl : cl ∈ g.closings) {p : Ty}
    (hp : p ∈ g.props ds goals group) {i : Int} (hi : i ∈ p.varIds)
    (hvars : ∀ v ∈ g.vars ds goals group, v.id ≠ i) : cl.image g.simplified.subst i = .var i :=
  Closing.image_eq_var (h.lookup_props hs hp hi)
    (h.lookup_others hcl fun v hv heq => absurd heq (hvars v hv))
    (h.find?_byVar hcl fun v hv => hvars v (h.mem_vars hcl hv))

/-- A predicate that a binding keeps is closed by putting parameters in place of variables. -/
theorem Generalization.RunsFrom.shape_close_of_mem_props (h : g.RunsFrom ds goals group c s)
    (hs : s.subst.Triangular) {cl : Closing} (hcl : cl ∈ g.closings) {p : Ty} (hp : p ∈ cl.props) :
    (cl.close g.simplified.subst p).shape = (p.quantify cl.byVar).shape := by
  rw [Closing.shape_close, Ty.shape_quantify]
  refine Shape.bind_congr (fun i hi => ?_) fun _ _ => rfl
  rw [← Ty.varIds_eq_shape] at hi
  have hothers : cl.others.lookup i = none :=
    h.lookup_others hcl fun v hv heq => h.mem_vars_of_mem_props hcl hp hv (heq ▸ hi)
  rw [Closing.image, Subst.image_eq_var (h.lookup_props hs (h.mem_group_props hcl hp) hi),
    Shape.subst_var, Subst.image_eq_var hothers, Shape.bind_var]

/-- Any other predicate of the group is closed by fixing variables alone. -/
theorem Generalization.RunsFrom.shape_close_of_not_mem_props (h : g.RunsFrom ds goals group c s)
    (hs : s.subst.Triangular) {cl : Closing} (hcl : cl ∈ g.closings) {p : Ty}
    (hp : p ∈ g.props ds goals group) (hout : p ∉ cl.props) :
    (cl.close g.simplified.subst p).shape = (cl.others.apply p).shape := by
  rw [Closing.shape_close, Subst.shape_apply]
  refine Shape.subst_congr fun i hi => ?_
  rw [← Ty.varIds_eq_shape] at hi
  rw [Closing.image, Subst.image_eq_var (h.lookup_props hs hp hi), Shape.subst_var]
  refine Shape.subst_eq_self fun j hj => ?_
  have hclosed : ∀ b ∈ cl.others.bindings, b.2.varIds = [] := by
    obtain ⟨-, body, hcl⟩ := h.exists_body hcl
    rw [hcl]
    exact fun b hb => varIds_closedFor (Closing.mem_bindings_others hb).2.2
  obtain rfl := Subst.eq_of_mem_image hclosed hj
  rw [h.find?_byVar hcl fun v hv heq => hout (h.mem_props hcl hp hv (heq ▸ hi))]
  rfl

/-- In a definition of the group, a call of a binding passes types for its parameters and evidence
for its predicates. If the parameters of the callee are fresh, a predicate that the caller keeps as
well arrives as the caller's own. Any other one mentions no variable of the caller and arrives with
the variables of the group fixed at closed types. -/
theorem recursiveUse_predicates (h : Returns (generalize ds goals group) c s out s')
    (hs : s.subst.Triangular) :
    ∃ g : Generalization, g.RunsFrom ds goals group c s ∧ out = g.result ds group ∧
      ∀ e ∈ (g.closings.zip (g.bodies ds)).zip ds, ∀ n token call,
        recursiveUse group (g.closingOf ds) (e.1.1.close s'.subst) n token = some call →
        ∃ callee ∈ g.closings, g.closingOf ds n.id = some callee ∧ ∃ args,
          call = (Term.var n).instantiated args callee.props.length ∧
          (callee.Fresh callee.props → ∀ p ∈ callee.props, ∀ q,
            q = (p.quantify callee.byVar).instantiate (Schema.assignment callee.params args) →
            (p ∈ e.1.1.props →
              ∃ own ∈ (closeDecl s'.subst group (g.closingOf ds) e.1.1 e.1.2 e.2).schema.props,
                q.same own = true) ∧
            (p ∉ e.1.1.props → q.same (e.1.1.others.apply p) = true ∧
              ∀ v ∈ e.1.1.vars, v.id ∉ p.varIds)) := by
  obtain ⟨g, hrun, hout, hsubst⟩ := returns_generalize h
  refine ⟨g, hrun, hout, fun e he n token call hcall => ?_⟩
  rw [hsubst] at hcall ⊢
  have hcaller : e.1.1 ∈ g.closings := (List.of_mem_zip (List.of_mem_zip he).1).1
  unfold recursiveUse at hcall
  split at hcall
  · obtain ⟨callee, hfind, rfl⟩ := Option.map_eq_some_iff.mp hcall
    have hcallee : callee ∈ g.closings :=
      (List.of_mem_zip (Table.mem_ofList (Table.mem_of_find? hfind))).2
    refine ⟨callee, hcallee, hfind, _, rfl, fun hfresh p hp q hq => ?_⟩
    have hgroup := hrun.mem_group_props hcallee hp
    obtain ⟨hdrawn, b, hof⟩ := hrun.exists_body hcallee
    have horder : paramOrder callee.vars = callee.vars := by
      rw [hof]
      exact paramOrder_paramOrder _
    -- a variable of the predicate over which the callee does not abstract is none of the group's
    have hshape : q.shape = (e.1.1.close g.simplified.subst p).shape := by
      rw [hq]
      refine Closing.shape_instantiate_quantify hdrawn horder ⟨hfresh.nodup, ?_⟩ fun i hi hown => ?_
      · intro u hu
        rw [List.mem_singleton.mp hu]
        exact hfresh.unused p hp
      · refine hrun.image_eq_var hs hcaller hgroup hi fun v hv heq => ?_
        exact hown v (hrun.mem_vars_of_mem_props hcallee hp hv (heq ▸ hi)) heq
    refine ⟨fun hmem => ⟨_, List.mem_map_of_mem hmem, ?_⟩, fun hmem => ⟨?_, fun v hv hvp => ?_⟩⟩
    · rw [Ty.same_iff_shape, hshape, hrun.shape_close_of_mem_props hs hcaller hmem]
    · rw [Ty.same_iff_shape, hshape, hrun.shape_close_of_not_mem_props hs hcaller hgroup hmem]
    · exact hmem (hrun.mem_props hcaller hgroup hv hvp)
  · cases hcall

/-! ## A call at the empty tuple

`f x = (\_ -> x) g` and `g y = (\_ -> y == 5) f`. Nothing connects the type of `f` to that of
`y`. -/

def callsLiteral : Decl :=
  let a : Ty := .free ⟨1, .type, [], none⟩
  let x : Name := { id := 1, ident := "x" }
  .mk { id := 10, ident := "f" } (.mono (.arrow a a))
    (some (.abs x a (.app
      (.abs { id := 3, ident := "_" } (.arrow (.free ⟨2, .type, [], none⟩) .bit) (.var x))
      (.groupVar { id := 11, ident := "g" } 2)))) false .empty

def takesLiteral : Decl :=
  .mk { id := 11, ident := "g" } (.mono (.arrow (.free ⟨2, .type, [], none⟩) .bit)) none false .empty

def fiveGoal : Goal := ⟨.literal, .empty, .cls .literal [.num 5, .free ⟨2, .type, [], none⟩]⟩

def noVars : State := { supply := .default, nextTypeVar := 5, nextGoal := 0 }

/-- Whether the definition of `f` calls `g` at a type for which its predicate cannot hold. -/
def callsAtUnit : Bool :=
  match (generalize [callsLiteral, takesLiteral] [fiveGoal] [(10, 1), (11, 2)]).exec
    emptyContext noVars with
  | (.ok [f, g], s') =>
    match f.body, g.schema.props with
    | some (.typeAbs _ (.abs _ _ (.app _ (.proofApp (.typeApp (.var n) t))))), [q] =>
      n.id == g.name.id && f.schema.props.isEmpty &&
        !(simplify (q.instantiate (Schema.assignment g.schema.params [t])) s'.assumptions).isOk
    | _, _ => false
  | _ => false

theorem callsAtUnit_eq_true : callsAtUnit = true := by cbv

/-- The definition of `f` passes evidence for the predicate of `g` at a type for which it cannot
hold, and `f` has no predicates. -/
theorem recursive_call_unsatisfiable : ∃ f g s',
    Returns (generalize [callsLiteral, takesLiteral] [fiveGoal] [(10, 1), (11, 2)]) emptyContext
      noVars [f, g] s' ∧
    ∃ p x t fn n arg, f.body = some (.typeAbs p (.abs x t (.app fn
        ((Term.var n).instantiated [arg] 1)))) ∧ n.id = g.name.id ∧ f.schema.props = [] ∧
      ∃ q, g.schema.props = [q] ∧
        (simplify (q.instantiate (Schema.assignment g.schema.params [arg])) s'.assumptions).isOk =
          false := by
  have h := callsAtUnit_eq_true
  unfold callsAtUnit at h
  split at h
  · rename_i f g s' heq
    split at h
    · rename_i p x t fn n arg q hbody hprops
      simp only [Bool.and_eq_true, beq_iff_eq, List.isEmpty_iff, Bool.not_eq_true'] at h
      obtain ⟨⟨hn, hf⟩, hq⟩ := h
      exact ⟨f, g, s', heq, p, x, t, fn, n, arg, hbody, hn, hf, q, hprops, hq⟩
    · cases h
  · cases h

/-- Whatever `f` and `g` call is called with evidence for each of its predicates: the caller's own
for those that it keeps, and evidence at closed types for the others. -/
theorem recursiveUse_predicates_callsLiteral : ∃ out s',
    Returns (generalize [callsLiteral, takesLiteral] [fiveGoal] [(10, 1), (11, 2)]) emptyContext
      noVars out s' ∧
    ∃ g : Generalization,
      g.RunsFrom [callsLiteral, takesLiteral] [fiveGoal] [(10, 1), (11, 2)] emptyContext noVars ∧
      out = g.result [callsLiteral, takesLiteral] [(10, 1), (11, 2)] ∧
      ∀ e ∈ (g.closings.zip (g.bodies [callsLiteral, takesLiteral])).zip
          [callsLiteral, takesLiteral], ∀ n token call,
        recursiveUse [(10, 1), (11, 2)] (g.closingOf [callsLiteral, takesLiteral])
          (e.1.1.close s'.subst) n token = some call →
        ∃ callee ∈ g.closings, g.closingOf [callsLiteral, takesLiteral] n.id = some callee ∧
          ∃ args, call = (Term.var n).instantiated args callee.props.length ∧
          (callee.Fresh callee.props → ∀ p ∈ callee.props, ∀ q,
            q = (p.quantify callee.byVar).instantiate (Schema.assignment callee.params args) →
            (p ∈ e.1.1.props →
              ∃ own ∈ (closeDecl s'.subst [(10, 1), (11, 2)]
                (g.closingOf [callsLiteral, takesLiteral]) e.1.1 e.1.2 e.2).schema.props,
                q.same own = true) ∧
            (p ∉ e.1.1.props → q.same (e.1.1.others.apply p) = true ∧
              ∀ v ∈ e.1.1.vars, v.id ∉ p.varIds)) := by
  have h := callsAtUnit_eq_true
  unfold callsAtUnit at h
  split at h
  · rename_i f g s' heq
    exact ⟨_, s', heq, recursiveUse_predicates heq Subst.triangular_empty⟩
  · cases h

end Infer
end SizedTypes
