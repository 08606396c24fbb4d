import Mathlib
import SizedTypes.Proofs.Infer.Frame
import SizedTypes.Proofs.Infer.Resolve
import SizedTypes.Run

/-!
# Generalization and the environment

The variables that become parameters of a group are its candidates: those that the environment
does not hold when selectors are solved. Defaults and simplification bind variables to closed types
only, so what the environment holds then, it holds to the end.

The predicates of a polymorphic schema hold their variables only if the body has variables of its
own, and the types of existential variables hold none.
-/

set_option autoImplicit false

namespace SizedTypes

namespace Ty

theorem mem_freeIds {i : Int} {ts : List Ty} : i ∈ freeIds ts ↔ ∃ t ∈ ts, i ∈ t.varIds := by
  rw [freeIds, List.mem_eraseDups, List.mem_flatMap]

end Ty

namespace Infer

open SizedTypes.Core (Decl)

variable {ds out : List Decl} {goals : List Goal} {group : List (Int × Int)} {c : Context}
  {s s' : State} {g : Generalization}

/-! ## Candidates -/

theorem Generalization.mem_candidates {i : Int} : i ∈ g.candidates ds goals group ↔
    (∃ t ∈ g.startBodies ds ++ (g.startGoals goals).map Goal.prop, i ∈ t.varIds) ∧
      i ∉ environmentIds group g.selected := by
  rw [candidates, List.mem_filter, Ty.mem_freeIds]
  simp

theorem Generalization.mem_vars {v : TyVar} (hv : v ∈ g.vars ds goals group) :
    v.id ∉ environmentIds group g.selected := by
  have hcand := (List.mem_filter.mp hv).2
  exact (mem_candidates.mp (List.contains_iff_mem.mp hcand)).2

theorem Closing.mem_vars_of {body : Ty} {seeds : List Ty} {vars : List TyVar} {props : List Ty}
    {v : TyVar} : v ∈ (Closing.of body seeds vars props).vars ↔
      v ∈ vars ∧ v.id ∈ ownIds body seeds vars props := by
  rw [Closing.of, List.partition_eq_filter_filter]
  simp [mem_paramOrder]

/-- The predicates that are connected to the type of no binding. -/
def Generalization.orphans (g : Generalization) (ds : List Decl) (goals : List Goal)
    (group : List (Int × Int)) : List Ty :=
  (g.props ds goals group).filter fun p => !p.mentions
    ((g.bodies ds).flatMap fun b => ownIds b [] (g.vars ds goals group) (g.props ds goals group))

/-- Each binding is closed as its type and the predicates of the group demand. -/
theorem Generalization.RunsFrom.forall₂ (h : g.RunsFrom ds goals group c s) :
    List.Forall₂ (fun b cl => cl.Drawn ∧ cl =
      { Closing.of b (g.orphans ds goals group) (g.vars ds goals group) (g.props ds goals group) with
        params := cl.params, byVar := cl.byVar }) (g.bodies ds) g.closings := by
  obtain ⟨_, hdraw⟩ := h.draw
  exact List.forall₂_map_left_iff.mp (forall₂_drawn hdraw)

theorem Generalization.RunsFrom.exists_body (h : g.RunsFrom ds goals group c s) {cl : Closing}
    (hcl : cl ∈ g.closings) : cl.Drawn ∧ ∃ b, cl =
      { Closing.of b (g.orphans ds goals group) (g.vars ds goals group) (g.props ds goals group) with
        params := cl.params, byVar := cl.byVar } := by
  obtain ⟨n, hn, rfl⟩ := List.mem_iff_getElem.mp hcl
  have hall := h.forall₂
  obtain ⟨hdrawn, hcl⟩ := hall.get (by rw [hall.length_eq]; exact hn) hn
  exact ⟨hdrawn, _, hcl⟩

theorem Generalization.RunsFrom.mem_vars (h : g.RunsFrom ds goals group c s) {cl : Closing}
    (hcl : cl ∈ g.closings) {v : TyVar} (hv : v ∈ cl.vars) : v ∈ g.vars ds goals group := by
  obtain ⟨-, b, hcl⟩ := h.exists_body hcl
  rw [hcl] at hv
  exact (Closing.mem_vars_of.mp hv).1

/-! ## What the environment holds -/

/-- A default lets no type gain a variable. -/
theorem varIds_of_defaultVar {v : TyVar} {a : Unit} (h : Returns (defaultVar goals v) c s a s')
    (t : Ty) {j : Int} (hj : j ∈ (s'.subst.apply t).varIds) : j ∈ (s.subst.apply t).varIds := by
  unfold defaultVar at h
  rw [returns_get_bind] at h
  split at h
  · rw [(returns_pure.mp h).2] at hj
    exact hj
  · rename_i θ u hdefault
    rw [returns_set_bind, returns_bind] at h
    obtain ⟨⟨⟩, s₁, hwarn, htrace⟩ := h
    obtain ⟨ws, rfl⟩ := eq_of_recordWarning hwarn
    rw [returns_modify.mp htrace] at hj
    obtain ⟨hext, hu⟩ := defaulted?_eq_some hdefault
    rcases Subst.extend_eq_ok hext with ⟨rfl, -, -⟩ | hext
    · exact hj
    · exact hext.varIds hu t hj

theorem varIds_of_defaultVars {vs : List TyVar} {a : Unit}
    (h : Returns (defaultVars vs goals) c s a s') (t : Ty) {j : Int}
    (hj : j ∈ (s'.subst.apply t).varIds) : j ∈ (s.subst.apply t).varIds := by
  unfold defaultVars at h
  generalize Ty.dedupVars [] vs = ws at h
  induction ws generalizing s with
  | nil =>
    simp only [List.forM_eq_forM, List.forM_nil, returns_pure] at h
    exact h.2 ▸ hj
  | cons w ws ih =>
    rw [List.forM_eq_forM, List.forM_cons, returns_bind] at h
    obtain ⟨⟨⟩, s₁, hw, h⟩ := h
    exact varIds_of_defaultVar hw t (ih h)

/-- After selectors are solved no type gains a variable. -/
theorem Generalization.RunsFrom.varIds (h : g.RunsFrom ds goals group c s) (t : Ty) {j : Int}
    (hj : j ∈ (g.simplified.subst.apply t).varIds) : j ∈ (g.selected.subst.apply t).varIds := by
  obtain ⟨_, hdefault⟩ := h.defaults
  exact varIds_of_defaultVars hdefault t ((returns_simplifyGoals h.simplify).1 t j hj)

theorem mem_environmentIds {i : Int} : i ∈ environmentIds group s ↔
    (∃ e ∈ s.vars, ∃ t ∈ VarType.pinned group e.1 e.2, i ∈ (s.subst.apply t).varIds) ∨
      (∃ p ∈ s.pending, i ∈ (s.subst.apply p.prop).varIds) ∨
      ∃ p ∈ s.goals, i ∈ (s.subst.apply p.prop).varIds := by
  rw [environmentIds, Ty.mem_freeIds]
  simp only [List.mem_append, List.mem_map, List.mem_flatMap, or_and_right, exists_or, or_assoc]
  refine or_congr ⟨?_, ?_⟩ (or_congr ?_ ?_)
  · rintro ⟨_, ⟨t, ⟨e, he, ht⟩, rfl⟩, hi⟩
    exact ⟨e, he, t, ht, hi⟩
  · rintro ⟨e, he, t, ht, hi⟩
    exact ⟨_, ⟨t, ⟨e, he, ht⟩, rfl⟩, hi⟩
  · simp
  · simp

theorem VarType.pinned_of_open {id : Int} {sc : Schema} (h : sc.body.varIds ≠ []) :
    VarType.pinned group id (.known sc) = sc.body :: sc.props := by
  have hopen : Ty.freeIds [sc.body] ≠ [] := by
    obtain ⟨i, hi⟩ := List.exists_mem_of_ne_nil _ h
    exact List.ne_nil_of_mem (Ty.mem_freeIds.mpr ⟨sc.body, List.mem_singleton_self _, hi⟩)
  rw [VarType.pinned, if_pos (by simp [hopen])]

/-- No variable that becomes a parameter occurs, under the last substitution, in the body of a
schema of the environment, in the type of a binding under way outside the group, or in a goal that
was open once selectors were solved. It may occur in a predicate of a schema only if the body of
that schema has no variables. -/
theorem not_mem_varIds_of_parameter (h : Returns (generalize ds goals group) c s out s') :
    ∃ g : Generalization, g.RunsFrom ds goals group c s ∧ out = g.result ds group ∧
      ∀ cl ∈ g.closings, ∀ v ∈ cl.vars,
        (∀ e ∈ s.vars, ∀ sc, e.2 = .known sc → v.id ∉ (s'.subst.apply sc.body).varIds ∧
          (sc.body.varIds ≠ [] → ∀ p ∈ sc.props, v.id ∉ (s'.subst.apply p).varIds)) ∧
        (∀ e ∈ s.vars, ∀ token n t, e.2 = .inGroup token n t → group.lookup e.1 ≠ some token →
          v.id ∉ (s'.subst.apply t).varIds) ∧
        (∀ p ∈ g.selected.pending, v.id ∉ (s'.subst.apply p.prop).varIds) ∧
        ∀ p ∈ g.selected.goals, v.id ∉ (s'.subst.apply p.prop).varIds := by
  obtain ⟨g, hrun, hout, hsubst⟩ := returns_generalize h
  refine ⟨g, hrun, hout, fun cl hcl v hv => ?_⟩
  have henv := Generalization.mem_vars (hrun.mem_vars hcl hv)
  rw [mem_environmentIds, (framed_solveSelectors.step hrun.selectors).vars] at henv
  simp only [not_or, not_exists, not_and] at henv
  obtain ⟨hvars, hpending, hgoals⟩ := henv
  rw [hsubst]
  have hheld : ∀ {t : Ty}, v.id ∉ (g.selected.subst.apply t).varIds →
      v.id ∉ (g.simplified.subst.apply t).varIds := fun ht hmem => ht (hrun.varIds _ hmem)
  refine ⟨fun e he sc hsc => ?_, fun e he token n t ht htoken => ?_,
    fun p hp => hheld (hpending p hp), fun p hp => hheld (hgoals p hp)⟩
  · have hpinned := hvars e he
    rw [hsc] at hpinned
    by_cases hbody : sc.body.varIds = []
    · refine ⟨?_, fun hne => absurd hbody hne⟩
      rw [Subst.varIds_apply_eq_nil hbody]
      exact List.not_mem_nil
    · rw [VarType.pinned_of_open hbody] at hpinned
      refine ⟨hheld (hpinned _ (List.mem_cons_self ..)), fun _ p hp => ?_⟩
      exact hheld (hpinned p (List.mem_cons_of_mem _ hp))
  · have hpinned := hvars e he
    rw [ht, VarType.pinned, if_neg (by simpa using htoken)] at hpinned
    exact hheld (hpinned t (List.mem_singleton_self t))

/-! ## A predicate of the environment

`h = \(_ : [?k]Bit) -> f` under `f : {b} (Literal ?k b) => b -> Bit`, which uses `f` at `?a`. -/

def literalSchema : Schema :=
  let b : Param := { id := 10, kind := .type }
  { params := [b], props := [.cls .literal [.free ⟨1, .num, [], none⟩, .bound b]],
    body := .arrow (.bound b) .bit }

/-- The state in which `h` is generalized: only `f` is declared. -/
def underLiteral : State :=
  { supply := .default, nextTypeVar := 11, nextGoal := 0, vars := [(7, .known literalSchema)] }

def usesLiteral : Decl :=
  .mk { id := 8, ident := "h" }
    (.mono (.arrow (.word (.free ⟨1, .num, [], none⟩)) (.arrow (.free ⟨2, .type, [], none⟩) .bit)))
    none false .empty

def literalGoal : Goal :=
  ⟨.literal, .empty, .cls .literal [.free ⟨1, .num, [], none⟩, .free ⟨2, .type, [], none⟩]⟩

/-- Whether `h` is closed over its length, which the predicate of `f` mentions. -/
def lengthCaptured : Bool :=
  match (generalize [usesLiteral] [literalGoal] []).exec emptyContext underLiteral with
  | (.ok [d], s') =>
    d.schema.params.length == 2 && d.schema.body.varIds.isEmpty &&
      (s'.subst.apply usesLiteral.schema.body).varIds.contains 1 &&
      literalSchema.props.any fun p => (s'.subst.apply p).varIds.contains 1
  | _ => false

theorem lengthCaptured_eq_true : lengthCaptured = true := by decide +kernel

/-- The length in the type of `h` becomes one of its two parameters, and under the same
substitution the predicate of `f` mentions that length. -/
theorem length_captured_from_predicate : ∃ d s',
    Returns (generalize [usesLiteral] [literalGoal] []) emptyContext underLiteral [d] s' ∧
    d.schema.params.length = 2 ∧ d.schema.body.varIds = [] ∧
    (1 : Int) ∈ (s'.subst.apply usesLiteral.schema.body).varIds ∧
    underLiteral.vars.find? 7 = some (.known literalSchema) ∧
    ∃ p ∈ literalSchema.props, (1 : Int) ∈ (s'.subst.apply p).varIds := by
  have h := lengthCaptured_eq_true
  unfold lengthCaptured at h
  split at h
  · rename_i d s' heq
    simp only [Bool.and_eq_true, beq_iff_eq, List.isEmpty_iff, List.contains_iff_mem,
      List.any_eq_true] at h
    exact ⟨d, s', heq, h.1.1.1, h.1.1.2, h.1.2, rfl, h.2⟩
  · cases h

/-- Neither parameter of `h` occurs in the body of the schema of `f`, or in a goal that was open. -/
theorem not_mem_varIds_of_parameter_usesLiteral : ∃ out s',
    Returns (generalize [usesLiteral] [literalGoal] []) emptyContext underLiteral out s' ∧
    ∃ g : Generalization, g.RunsFrom [usesLiteral] [literalGoal] [] emptyContext underLiteral ∧
      out = g.result [usesLiteral] [] ∧
      ∀ cl ∈ g.closings, ∀ v ∈ cl.vars,
        (v.id ∉ (s'.subst.apply literalSchema.body).varIds ∧ (literalSchema.body.varIds ≠ [] →
          ∀ p ∈ literalSchema.props, v.id ∉ (s'.subst.apply p).varIds)) ∧
        (∀ p ∈ g.selected.pending, v.id ∉ (s'.subst.apply p.prop).varIds) ∧
        ∀ p ∈ g.selected.goals, v.id ∉ (s'.subst.apply p.prop).varIds := by
  have h := lengthCaptured_eq_true
  unfold lengthCaptured at h
  split at h
  · rename_i d s' heq
    obtain ⟨g, hrun, hout, hall⟩ := not_mem_varIds_of_parameter heq
    refine ⟨_, _, heq, g, hrun, hout, fun cl hcl v hv => ?_⟩
    obtain ⟨hknown, -, hpending, hgoals⟩ := hall cl hcl v hv
    exact ⟨hknown (7, .known literalSchema) (List.mem_singleton_self _) _ rfl, hpending, hgoals⟩
  · cases h

/-! ## Existential variables -/

theorem mem_connectedVars {fixed : List Int} {fuel : Nat} {ids : List Int} {ps : List Ty} {i : Int}
    (hi : i ∈ ids) : i ∈ connectedVars fixed fuel ids ps := by
  induction fuel generalizing ids ps with
  | zero => exact hi
  | succ fuel ih =>
    rw [connectedVars]
    split
    · exact hi
    · exact ih (List.mem_append_left _ hi)

/-- A binding abstracts over every variable of its type that the group quantifies. -/
theorem mem_ownIds {body : Ty} {seeds : List Ty} {vars : List TyVar} {props : List Ty} {v : TyVar}
    (hv : v ∈ vars) (hbody : v.id ∈ body.varIds) : v.id ∈ ownIds body seeds vars props := by
  refine mem_connectedVars (List.mem_filter.mpr ⟨?_, ?_⟩)
  · exact Ty.mem_freeIds.mpr ⟨body, List.mem_cons_self .., hbody⟩
  · simp only [Bool.not_eq_true', List.contains_eq_mem, decide_eq_false_iff_not, List.mem_filter,
      not_and, not_not]
    exact fun _ => List.mem_map_of_mem hv

theorem Closing.Drawn.mem_vars {cl : Closing} (h : cl.Drawn) {i : Int} {p : Param}
    (hp : cl.byVar.find? i = some p) : ∃ v ∈ cl.vars, v.id = i := by
  obtain ⟨next, heq⟩ := h
  rw [(Prod.mk.inj heq).2] at hp
  obtain ⟨v, hid, hpair⟩ := mem_zip_of_find?_quantifyVars hp
  exact ⟨v, mem_paramOrder.mp (List.of_mem_zip hpair).1, hid⟩

theorem apply_closedFor {k : Kind} {t : Ty} (h : closedFor k = some t) (θ : Subst) :
    θ.apply t = t := by
  have key : ∀ (con : Con) (bs : List (TyVar × Ty)),
      bs.foldr (fun b u => Ty.replace u b.1.id b.2) (Ty.con con []) = .con con [] := by
    intro con bs
    induction bs with
    | nil => rfl
    | cons b bs ih =>
      rw [List.foldr_cons, ih]
      rfl
  unfold closedFor at h
  split at h
  · cases h
    exact key _ θ.bindings
  · cases h
    exact key _ θ.bindings
  · cases h

/-- Fixing variables at closed types binds no others, and each at its closed type. -/
theorem mem_bindings_fix {vs : List TyVar} {θ : Subst} {b : TyVar × Ty}
    (hb : b ∈ (vs.foldl (fun s v => match closedFor v.kind with
      | some t => s.extendOrSkip v t
      | none => s) θ).bindings) :
    b ∈ θ.bindings ∨ b.1 ∈ vs ∧ closedFor b.1.kind = some b.2 := by
  induction vs generalizing θ with
  | nil => exact Or.inl hb
  | cons v vs ih =>
    rw [List.foldl_cons] at hb
    rcases ih hb with hfirst | ⟨hmem, hclosed⟩
    · split at hfirst
      · rename_i t ht
        unfold Subst.extendOrSkip at hfirst
        split at hfirst
        · rename_i θ' hext
          rcases Subst.extend_eq_ok hext with ⟨heq, -, -⟩ | hext
          · exact Or.inl (heq ▸ hfirst)
          · rw [hext.eq, apply_closedFor ht] at hfirst
            rcases List.mem_cons.mp hfirst with rfl | hfirst
            · exact Or.inr ⟨List.mem_cons_self .., ht⟩
            · exact Or.inl hfirst
        · exact Or.inl hfirst
      · exact Or.inl hfirst
    · exact Or.inr ⟨List.mem_cons_of_mem _ hmem, hclosed⟩

/-- A closing fixes variables of the group only, and none that its binding abstracts over. -/
theorem Closing.mem_bindings_others {body : Ty} {seeds : List Ty} {vars : List TyVar}
    {props : List Ty} {b : TyVar × Ty}
    (hb : b ∈ (Closing.of body seeds vars props).others.bindings) :
    b.1 ∈ vars ∧ b.1.id ∉ ownIds body seeds vars props ∧ closedFor b.1.kind = some b.2 := by
  rw [Closing.of, List.partition_eq_filter_filter] at hb
  rcases mem_bindings_fix hb with hb | ⟨hmem, hclosed⟩
  · cases hb
  · obtain ⟨hvars, hown⟩ := List.mem_filter.mp hmem
    exact ⟨hvars, by simpa using hown, hclosed⟩

/-- What a type that mentions a variable which the group does not quantify looks like from inside a
closed definition: the variable is still there. -/
theorem Closing.mem_varIds_close {cl : Closing} {θ : Subst} {t : Ty} {i : Int}
    (hi : i ∈ (θ.apply t).varIds) (hothers : cl.others.lookup i = none)
    (hby : cl.byVar.find? i = none) : i ∈ (cl.close θ t).varIds := by
  have hmem : i ∈ (cl.others.apply (θ.apply t)).varIds := by
    rw [Ty.varIds_eq_shape, Subst.shape_apply, Shape.mem_vars_subst]
    rw [Ty.varIds_eq_shape] at hi
    exact ⟨i, hi, by simp [Subst.image_eq_var hothers]⟩
  rw [Closing.close, Ty.varIds_eq_shape, Ty.shape_quantify, Shape.mem_vars_bind]
  rw [Ty.varIds_eq_shape] at hmem
  exact Or.inl ⟨i, hmem, by simp [hby]⟩

/-- The group quantifies each variable in the type of a binding that the environment does not
hold. -/
theorem Generalization.RunsFrom.exists_mem_vars (h : g.RunsFrom ds goals group c s)
    (hs : s.subst.Triangular) {body : Ty} (hbody : body ∈ g.bodies ds) {i : Int}
    (hi : i ∈ body.varIds) (henv : i ∉ environmentIds group g.selected) :
    ∃ v ∈ g.vars ds goals group, v.id = i := by
  have hselected := (framed_solveSelectors.step h.selectors).triangular hs
  obtain ⟨start, hstart, rfl⟩ := List.mem_map.mp hbody
  have hcand : i ∈ g.candidates ds goals group := by
    refine Generalization.mem_candidates.mpr ⟨⟨start, List.mem_append_left _ hstart, ?_⟩, henv⟩
    -- the type had been brought up to date when selectors were solved
    obtain ⟨d, -, rfl⟩ := List.mem_map.mp hstart
    have hmem := h.varIds _ hi
    rwa [Ty.varIds_eq_shape, hselected.apply_apply, ← Ty.varIds_eq_shape] at hmem
  obtain ⟨v, hv, rfl⟩ := Ty.exists_mem_freeVars
    (List.mem_append_left (g.props ds goals group) hbody) hi
  exact ⟨v, List.mem_filter.mpr ⟨hv, List.contains_iff_mem.mpr hcand⟩, rfl⟩

/-- A name keeps the type of its existential variable while a group is generalized. From inside the
closed definition of a binding in whose type a variable of it occurs, the type still mentions that
variable exactly if the environment holds it; otherwise the variable is a parameter of the
binding. -/
theorem existential_shared_iff (h : Returns (generalize ds goals group) c s out s')
    (hs : s.subst.Triangular) :
    ∃ g : Generalization, g.RunsFrom ds goals group c s ∧ out = g.result ds group ∧
      ∀ ident t, s.existential ident = some t → s'.existential ident = some t ∧
        ∀ e ∈ g.closings.zip (g.bodies ds), ∀ i ∈ (s'.subst.apply t).varIds, i ∈ e.2.varIds →
          (i ∈ (e.1.close s'.subst t).varIds ↔ i ∈ environmentIds group g.selected) ∧
          ((∃ p ∈ e.1.params, e.1.byVar.find? i = some p) ↔
            i ∉ environmentIds group g.selected) := by
  obtain ⟨g, hrun, hout, hsubst⟩ := returns_generalize h
  refine ⟨g, hrun, hout, fun ident t ht => ⟨(framed_generalize ..).step h |>.kept ident t ht, ?_⟩⟩
  intro e he i hi hbody
  rw [hsubst] at hi ⊢
  obtain ⟨hdrawn, hclosing⟩ := List.forall₂_zip hrun.forall₂.flip he
  by_cases henv : i ∈ environmentIds group g.selected
  · -- the group quantifies no variable that the environment holds
    have hvars : ∀ v ∈ g.vars ds goals group, v.id ≠ i := fun v hv heq =>
      Generalization.mem_vars hv (heq ▸ henv)
    have hby : e.1.byVar.find? i = none := by
      refine Option.eq_none_iff_forall_ne_some.mpr fun p hp => ?_
      obtain ⟨v, hv, heq⟩ := hdrawn.mem_vars hp
      exact hvars v (hrun.mem_vars (List.of_mem_zip he).1 hv) heq
    have hothers : e.1.others.lookup i = none := by
      rw [hclosing, Subst.lookup_eq_none_iff]
      exact fun b hb => hvars b.1 (Closing.mem_bindings_others hb).1
    refine ⟨iff_of_true (Closing.mem_varIds_close hi hothers hby) henv, ?_⟩
    simp [hby, henv]
  · -- a variable of the type that the environment does not hold is a candidate
    obtain ⟨v, hv, hvi⟩ : ∃ v ∈ g.vars ds goals group, v.id = i :=
      hrun.exists_mem_vars hs (List.of_mem_zip he).2 hbody henv
    have hown : v ∈ e.1.vars := by
      rw [hclosing]
      exact Closing.mem_vars_of.mpr ⟨hv, mem_ownIds hv (hvi ▸ hbody)⟩
    obtain ⟨p, hp, hfind⟩ := hdrawn.find? hown
    rw [hvi] at hfind
    exact ⟨iff_of_false (Ty.not_mem_varIds_quantify hfind) henv, iff_of_true ⟨p, hp, hfind⟩ henv⟩

/-! `top = (\(x : ?a) -> x, g where g (y : ?a) = y)` names one existential variable twice. -/

/-- The state in which `g` is generalized: `?a` is open, and no variable is declared. -/
def underExistential : State :=
  { supply := .default, nextTypeVar := 5, nextGoal := 0
    existentials := [[("a", .free ⟨1, .type, [], none⟩)]] }

def sameTwice : Decl :=
  let a : Ty := .free ⟨1, .type, [], none⟩
  let y : Name := { id := 2, ident := "y" }
  .mk { id := 11, ident := "g" } (.mono (.arrow a a)) (some (.abs y a (.var y))) false .empty

def sameTwiceReturns : Bool :=
  match (generalize [sameTwice] [] []).exec emptyContext underExistential with
  | (.ok _, _) => true
  | _ => false

/-- `?a` keeps its type while `g` is generalized, and from inside `g` it mentions a variable that
occurs in the type of `g` exactly if the environment holds it. -/
theorem existential_shared_iff_sameTwice : ∃ out s',
    Returns (generalize [sameTwice] [] []) emptyContext underExistential out s' ∧
    ∃ g : Generalization, g.RunsFrom [sameTwice] [] [] emptyContext underExistential ∧
      out = g.result [sameTwice] [] ∧
      s'.existential "a" = some (.free ⟨1, .type, [], none⟩) ∧
      ∀ e ∈ g.closings.zip (g.bodies [sameTwice]),
        ∀ i ∈ (s'.subst.apply (.free ⟨1, .type, [], none⟩)).varIds, i ∈ e.2.varIds →
          (i ∈ (e.1.close s'.subst (.free ⟨1, .type, [], none⟩)).varIds ↔
            i ∈ environmentIds [] g.selected) ∧
          ((∃ p ∈ e.1.params, e.1.byVar.find? i = some p) ↔ i ∉ environmentIds [] g.selected) := by
  have h : sameTwiceReturns = true := by decide +kernel
  unfold sameTwiceReturns at h
  split at h
  · rename_i out s' heq
    obtain ⟨g, hrun, hout, hall⟩ := existential_shared_iff heq Subst.triangular_empty
    obtain ⟨hkept, hshared⟩ := hall "a" _ rfl
    exact ⟨out, s', heq, g, hrun, hout, hkept, hshared⟩
  · cases h

def existentialTwice : Surface.Module :=
  let x : Name := { id := 1, ident := "x" }
  let y : Name := { id := 2, ident := "y" }
  let g : Name := { id := 11, ident := "g" }
  let inner : Surface.Bind :=
    .mk g [.typed (.var y) (.existential "a")] (some (.var y)) none false false .empty
  let body : Surface.Expr := .tuple
    [.lambda [.typed (.var x) (.existential "a")] (.var x), .block (.var g) [.group false [inner]]]
  { name := { id := 99, ident := "Main" }
    decls := [.group false
      [.mk { id := 10, ident := "top" } [] (some body) none false false .empty]] }

/-- Two functions, each from one parameter to itself, and the parameters differ. -/
def apart : Ty → Bool
  | .con (.tuple 2) [.con .arrow [.bound p, .bound p'], .con .arrow [.bound q, .bound q']] =>
    p == p' && q == q' && p.id != q.id
  | _ => false

def existentialSplit : Bool :=
  match (runModule { seeds := ⟨1, 0⟩ } existentialTwice).1 with
  | .ok out => out.content.decls.any fun d => apart d.schema.body
  | .error _ => false

/-- The module is accepted, and its definition has the type `(a -> a, b -> b)`: inside the nested
definition the name stands for another type than outside. -/
theorem existential_split_by_nested_group : ∃ out,
    (runModule { seeds := ⟨1, 0⟩ } existentialTwice).1 = .ok out ∧
    ∃ d ∈ out.content.decls, ∃ p q : Param, p.id ≠ q.id ∧
      d.schema.body = .tuple [.arrow (.bound p) (.bound p), .arrow (.bound q) (.bound q)] := by
  have h : existentialSplit = true := by cbv
  unfold existentialSplit at h
  split at h
  · rename_i out heq
    obtain ⟨d, hd, happart⟩ := List.any_eq_true.mp h
    refine ⟨out, heq, d, hd, ?_⟩
    unfold apart at happart
    split at happart
    · rename_i p p' q q' hbody
      simp only [Bool.and_eq_true, beq_iff_eq, bne_iff_ne] at happart
      obtain ⟨⟨rfl, rfl⟩, hne⟩ := happart
      exact ⟨p, q, hne, hbody⟩
    · cases happart
  · cases h

end Infer
end SizedTypes
