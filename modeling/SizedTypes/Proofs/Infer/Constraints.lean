import Mathlib.Data.List.Forall2
import Mathlib.Data.List.Perm.Basic
import SizedTypes.Infer.Expr
import SizedTypes.Proofs.Infer.Goals.Rounds
import SizedTypes.Proofs.Infer.Ignores
import SizedTypes.Proofs.Infer.Resolve
import SizedTypes.Proofs.Simplify.Hierarchy
import SizedTypes.Run

/-!
# The order of constraints

A module declares constraints on its parameters one after the other. When a declaration is reached,
its constraints are assumed, and the conditions under which they make sense are simplified under all
that have been declared so far. What is assumed in the end does not depend on the order, but the
order can leave conditions unproved that would follow from constraints still to come.
-/

set_option autoImplicit false

namespace SizedTypes

open Simplify (Discharged)

/-! ## More assumptions -/

namespace Assumptions

/-- More is assumed if there is more to start from and more is added. -/
theorem add_subset_add {A B : Assumptions} (hAB : A.props ⊆ B.props) {ps qs : List Ty}
    (h : ps ⊆ qs) : (A.add ps).props ⊆ (B.add qs).props := by
  intro q hq
  simp only [add, Ty.conjunctsList_eq_flatMap, List.mem_append, List.mem_flatMap] at hq ⊢
  rcases hq with hq | ⟨r, ⟨p, hp, hr⟩, hq⟩
  · exact Or.inl (hAB hq)
  · exact Or.inr ⟨r, ⟨p, h hp, hr⟩, hq⟩

theorem subset_add (A : Assumptions) (ps : List Ty) : A.props ⊆ (A.add ps).props :=
  List.subset_append_left ..

end Assumptions

theorem Simplify.Discharged.mono {A B : Assumptions} (hAB : A.props ⊆ B.props) {p : Ty}
    (h : Discharged A p) : Discharged B p := by
  induction h with
  | entailed h => exact .entailed (Assumptions.entails_of_subset hAB h)
  | reduced hstep _ ih => exact .reduced hstep ih

/-- A goal of which nothing is left is proved under more assumptions as well. -/
theorem simplify_eq_nil_of_subset {A B : Assumptions} (hAB : A.props ⊆ B.props) {goal : Ty}
    (h : simplify goal A = .ok []) : simplify goal B = .ok [] := by
  rw [Simplify.simplify_eq_nil_iff] at h ⊢
  exact fun p hp => (h p hp).mono hAB

namespace Infer

open Surface (TypeExpr)

variable {c : Context} {s s' : State}

/-! ## Closed goals -/

/-- What is left of a goal without variables. -/
def residue (A : Assumptions) (g : Goal) : List Goal :=
  match simplify g.prop A with
  | .ok residual => residual.map fun p => { g with prop := p }
  | .error _ => []

/-- What is reported about a goal without variables. -/
def refutation (A : Assumptions) (r : Range) (g : Goal) : List Diagnostic :=
  match simplify g.prop A with
  | .ok _ => []
  | .error _ => [⟨g.range.orElse r, .unsolvableGoal g⟩]

theorem residue_refutation_eq_nil_iff {A : Assumptions} {r : Range} {g : Goal} :
    residue A g = [] ∧ refutation A r g = [] ↔ simplify g.prop A = .ok [] := by
  unfold residue refutation
  cases simplify g.prop A <;> simp

theorem returns_simplifyGoal_of_closed {g : Goal} (hg : g.prop.leafIds = []) :
    Returns (simplifyGoal g) c s (residue s.assumptions g, false)
      { s with errors := s.errors ++ refutation s.assumptions c.range g } := by
  have happly : s.subst.apply g.prop = g.prop :=
    Subst.apply_eq_self fun i hi => by rw [hg] at hi; cases hi
  cases hsimplify : simplify g.prop s.assumptions with
  | error p =>
    rw [returns_simplifyGoal_of_error (by rw [happly]; exact hsimplify), happly, residue,
      refutation, hsimplify]
    exact ⟨rfl, rfl⟩
  | ok residual =>
    have hclosed := simplify_inherits (Ty.inherited_leafIds fun _ => False) hsimplify
      fun i hi => by rw [hg] at hi; cases hi
    have hunforced : ∀ r ∈ residual, improve r = none := by
      intro r hr
      cases himprove : improve r with
      | none => rfl
      | some b =>
        exact (hclosed r hr _ (Ty.mem_leafIds_of_mem_varIds (improve_spec himprove).1)).elim
    have habsorbed : absorbed s.subst residual =
        { subst := s.subst, rest := residual.reverse } := by
      rw [absorbed, Improvement.foldl_absorb_of_idle hunforced, List.append_nil]
    rw [returns_simplifyGoal_of_ok (by rw [happly]; exact hsimplify), habsorbed, residue,
      refutation, hsimplify]
    simp

theorem returns_simplifyPass_of_closed {gs : List Goal} (hgs : ∀ g ∈ gs, g.prop.leafIds = []) :
    Returns (simplifyPass gs) c s (gs.flatMap (residue s.assumptions), false)
      { s with errors := s.errors ++ gs.flatMap (refutation s.assumptions c.range) } := by
  induction gs generalizing s with
  | nil => exact returns_pure.mpr ⟨rfl, by simp⟩
  | cons g gs ih =>
    obtain ⟨hg, hgs⟩ := List.forall_mem_cons.mp hgs
    simp only [simplifyPass, returns_bind, returns_pure]
    refine ⟨_, _, returns_simplifyGoal_of_closed hg, _, _, ih hgs, rfl, ?_⟩
    simp

/-- Goals without variables are simplified in one pass. -/
theorem returns_simplifyGoals_of_closed {gs : List Goal} (hgs : ∀ g ∈ gs, g.prop.leafIds = []) :
    Returns (simplifyGoals gs) c s (gs.flatMap (residue s.assumptions))
      { s with errors := s.errors ++ gs.flatMap (refutation s.assumptions c.range) } :=
  returns_get_bind.mpr (returns_simplifyPasses_of_last (returns_simplifyPass_of_closed hgs))

/-! ## Declarations of constraints -/

/-- A declaration of constraints whose written types have been checked. -/
structure Constraint where
  props : List Ty
  /-- The conditions under which the constraints make sense. -/
  conditions : List Goal
  /-- Where conditions without a place of their own are reported. -/
  range : Range

/-- The state in which constraints are assumed. -/
def State.assume (s : State) (ps : List Ty) : State :=
  { s with
    assumptions := s.assumptions.add ps
    scopes := s.scopes.modifyHead fun sc =>
      { sc with content := { sc.content with paramProps := sc.content.paramProps ++ ps } } }

/-- The state after a declaration of constraints. -/
def State.constrain (s : State) (e : Constraint) : State :=
  { s.assume e.props with
    goals := s.goals ++ e.conditions.flatMap (residue (s.assumptions.add e.props))
    errors := s.errors ++ e.conditions.flatMap (refutation (s.assumptions.add e.props) e.range) }

/-- In `s` the written predicates `d` check as the constraint `e`, without a message, and none of
the conditions mentions a variable. -/
structure Kinded (c : Context) (s : State) (d : List TypeExpr × Range) (e : Constraint) : Prop where
  range : e.range = d.2.orElse c.range
  returns : ∃ gs, Returns ((Kinding.checkProps d.1).run { allowWildcards := false })
    { c with range := e.range } s (e.props, { allowWildcards := false, goals := gs }) s ∧
    e.conditions = gs.map fun g => { g with source := .moduleParam }
  closed : ∀ g ∈ e.conditions, g.prop.leafIds = []

theorem Kinded.checkParamProps {d : List TypeExpr × Range} {e : Constraint} (h : Kinded c s d e)
    (hscopes : s.scopes ≠ []) : Returns (checkParamProps d.1 d.2) c s ⟨⟩ (s.constrain e) := by
  obtain ⟨gs, hkinds, hconds⟩ := h.returns
  have hscope : Returns (addParamProps e.props) { c with range := e.range }
      { s with assumptions := s.assumptions.add e.props } ⟨⟩ (s.assume e.props) := by
    obtain ⟨sc, rest, hsc⟩ := List.exists_cons_of_ne_nil hscopes
    unfold addParamProps modifyScope
    rw [returns_get_bind]
    simp only [hsc, returns_modify, State.assume, List.modifyHead_cons]
  have hsimplify := returns_simplifyGoals_of_closed (c := { c with range := e.range })
    (s := s.assume e.props) h.closed
  rw [hconds] at hsimplify
  unfold Infer.checkParamProps withRange
  rw [returns_withReader, ← h.range]
  simp only [returns_bind, returns_modify, Prod.exists]
  refine ⟨_, _, _, hkinds, ⟨⟩, _, rfl, ⟨⟩, _, hscope, _, _, hsimplify, ?_⟩
  rw [State.constrain, hconds]
  rfl

/-! ## Written types after other declarations -/

/-- Errors that are reported and conditions that are emitted before. -/
def Change.earlier (errors : List Diagnostic) (conditions : List Goal) : Change :=
  { errors, conditions }

theorem Change.state_earlier (es : List Diagnostic) (gs : List Goal) (s : State) :
    (Change.earlier es gs).state s = { s with errors := es ++ s.errors } := by
  have hscopes : s.scopes.modifyHead (Change.earlier es gs).scope = s.scopes := by
    cases s.scopes <;> rfl
  rw [Change.state, hscopes]
  rfl

/-- A check of written types that reports nothing goes the same way whatever was reported
before. -/
theorem returns_checkProps_silent {ts : List TypeExpr} {k k' : Kinding} {ps : List Ty}
    (h : Returns ((Kinding.checkProps ts).run k) c s (ps, k') s) :
    Returns ((Kinding.checkProps ts).run k) c { s with errors := [] } (ps, k')
      { s with errors := [] } := by
  have hrun := (Kinding.ignores_checkProps (σ := .earlier s.errors []) ts).exec_run k c
    { s with errors := [] }
  rw [Change.state_earlier, List.append_nil] at hrun
  have hend : (Except.ok (ps, k'), s) = (Change.earlier s.errors []).outcome
      (((Kinding.checkProps ts).run k).exec c { s with errors := [] }) := h.symm.trans hrun
  unfold Returns
  rcases hexec : ((Kinding.checkProps ts).run k).exec c { s with errors := [] } with
    ⟨_ | ⟨qs, k₁⟩, s₁⟩
  all_goals
    rw [hexec] at hend
    obtain ⟨hvalue, hstate⟩ := Prod.mk.inj hend
  · cases hvalue
  · obtain ⟨rfl, hkinding⟩ := Prod.mk.inj (Except.ok.inj hvalue)
    obtain rfl : k' = k₁ := hkinding
    rw [Change.state_earlier] at hstate
    have herrors : s₁.errors = [] := by
      have hlist := congrArg State.errors hstate
      simpa using hlist
    have hs₁ : s₁ = { s with errors := [] } := by
      rw [hstate, ← herrors]
    rw [hs₁]

/-- What has been assumed, stored and reported makes no difference to written types. -/
theorem returns_checkProps_congr {ts : List TypeExpr} {k k' : Kinding} {ps : List Ty}
    (h : Returns ((Kinding.checkProps ts).run k) c s (ps, k') s) (σ : Change) :
    Returns ((Kinding.checkProps ts).run (σ.kinding k)) (σ.context c)
      (σ.state { s with errors := [] }) (ps, σ.kinding k') (σ.state { s with errors := [] }) :=
  (Kinding.ignores_checkProps ts).returns (returns_checkProps_silent h)

/-- What a declaration of constraints changes, as seen from before any error. -/
def Change.constrain (s : State) (e : Constraint) : Change where
  assumptions _ := (s.constrain e).assumptions
  constraints ps := ps ++ e.props
  goals _ := (s.constrain e).goals
  errors := (s.constrain e).errors

theorem Change.state_constrain (s : State) (e : Constraint) :
    (Change.constrain s e).state { s with errors := [] } = s.constrain e := by
  rw [Change.state, List.append_nil]
  rfl

theorem Kinded.constrain {d : List TypeExpr × Range} {e : Constraint} (h : Kinded c s d e)
    (e' : Constraint) : Kinded c (s.constrain e') d e where
  range := h.range
  closed := h.closed
  returns := by
    obtain ⟨gs, hkinds, hconds⟩ := h.returns
    have hlater := returns_checkProps_congr hkinds (.constrain s e')
    rw [Change.state_constrain] at hlater
    exact ⟨gs, hlater, hconds⟩

/-! ## Several declarations -/

/-- A declaration of constraints. -/
def constraintDecl (d : List TypeExpr × Range) : Surface.Decl := .paramProps d.1 d.2

/-- The declarations are checked one after the other. -/
theorem returns_checkDecls_constraints {top : Bool} {ds : List (List TypeExpr × Range)}
    {es : List Constraint} (hlive : s.cancelled = false) (hscopes : s.scopes ≠ [])
    (h : List.Forall₂ (Kinded c s) ds es) :
    Returns (checkDecls top (ds.map constraintDecl)) c s 0 (es.foldl State.constrain s) := by
  induction ds generalizing s es with
  | nil =>
    cases h
    rw [List.map_nil, checkDecls]
    exact returns_pure.mpr ⟨rfl, rfl⟩
  | cons d ds ih =>
    obtain ⟨e, es, hd, hds, rfl⟩ := List.forall₂_cons_left_iff.mp h
    have hdecl : Returns (checkDecl top (constraintDecl d)) c s 0 (s.constrain e) := by
      rw [constraintDecl, checkDecl, returns_bind]
      exact ⟨⟨⟩, _, hd.checkParamProps hscopes, returns_pure.mpr ⟨rfl, rfl⟩⟩
    have hrest := ih (s := s.constrain e) hlive
      (by simpa [State.constrain, State.assume] using hscopes)
      (hds.imp fun d' e' h => h.constrain e)
    rw [List.map_cons, checkDecls, returns_get_bind, hlive]
    simp only [Bool.false_eq_true, if_false, returns_bind, returns_pure]
    exact ⟨0, _, hdecl, 0, _, hrest, rfl, rfl⟩

/-! ## Proved conditions -/

/-- The conditions of a constraint are proved under `A`. -/
def Constraint.Proved (A : Assumptions) (e : Constraint) : Prop :=
  ∀ g ∈ e.conditions, simplify g.prop A = .ok []

/-- The conditions of each constraint are proved under those up to it. -/
def ProvedInOrder : Assumptions → List Constraint → Prop
  | _, [] => True
  | A, e :: es => e.Proved (A.add e.props) ∧ ProvedInOrder (A.add e.props) es

theorem Constraint.Proved.mono {A B : Assumptions} (hAB : A.props ⊆ B.props) {e : Constraint}
    (h : e.Proved A) : e.Proved B := fun g hg => simplify_eq_nil_of_subset hAB (h g hg)

/-- What is proved in some order is proved under all constraints. -/
theorem ProvedInOrder.proved {A : Assumptions} {es : List Constraint} (h : ProvedInOrder A es) :
    ∀ e ∈ es, e.Proved (A.add (es.flatMap Constraint.props)) := by
  induction es generalizing A with
  | nil => exact List.forall_mem_nil _
  | cons e es ih =>
    obtain ⟨he, hes⟩ := h
    rw [List.flatMap_cons, ← Assumptions.add_add]
    exact List.forall_mem_cons.mpr ⟨he.mono (Assumptions.subset_add ..), ih hes⟩

/-- Constraints that are proved under themselves are proved in any order. -/
theorem provedInOrder_of_alone {A : Assumptions} {es : List Constraint}
    (h : ∀ e ∈ es, e.Proved (A.add e.props)) : ProvedInOrder A es := by
  induction es generalizing A with
  | nil => trivial
  | cons e es ih =>
    obtain ⟨he, hes⟩ := List.forall_mem_cons.mp h
    refine ⟨he, ih fun e' he' => (hes e' he').mono ?_⟩
    exact Assumptions.add_subset_add (Assumptions.subset_add ..) (List.Subset.refl _)

/-- Nothing has been added to the goals, and no error has been reported. -/
def NothingLeft (s s' : State) : Prop := s'.goals = s.goals ∧ s'.errors = s.errors

theorem nothingLeft_constrain_iff {e : Constraint} :
    NothingLeft s (s.constrain e) ↔ e.Proved (s.assumptions.add e.props) := by
  simp only [NothingLeft, State.constrain, List.append_right_eq_self, List.flatMap_eq_nil_iff]
  constructor
  · exact fun h g hg => residue_refutation_eq_nil_iff.mp ⟨h.1 g hg, h.2 g hg⟩
  · intro h
    exact ⟨fun g hg => (residue_refutation_eq_nil_iff (r := e.range).mpr (h g hg)).1,
      fun g hg => (residue_refutation_eq_nil_iff.mpr (h g hg)).2⟩

/-- Goals and errors are only added. -/
theorem prefix_constrain (s : State) (es : List Constraint) :
    s.goals <+: (es.foldl State.constrain s).goals ∧
      s.errors <+: (es.foldl State.constrain s).errors := by
  induction es generalizing s with
  | nil => exact ⟨List.prefix_rfl, List.prefix_rfl⟩
  | cons e es ih =>
    obtain ⟨hgoals, herrors⟩ := ih (s.constrain e)
    exact ⟨(List.prefix_append ..).trans hgoals, (List.prefix_append ..).trans herrors⟩

theorem nothingLeft_foldl_iff {es : List Constraint} :
    NothingLeft s (es.foldl State.constrain s) ↔ ProvedInOrder s.assumptions es := by
  induction es generalizing s with
  | nil => exact ⟨fun _ => trivial, fun _ => ⟨rfl, rfl⟩⟩
  | cons e es ih =>
    rw [List.foldl_cons, ProvedInOrder, ← nothingLeft_constrain_iff]
    have hrest : ProvedInOrder (s.assumptions.add e.props) es ↔
        NothingLeft (s.constrain e) (es.foldl State.constrain (s.constrain e)) :=
      (ih (s := s.constrain e)).symm
    rw [hrest]
    constructor
    · intro ⟨hg, he⟩
      obtain ⟨hgoals, herrors⟩ := prefix_constrain (s.constrain e) es
      rw [hg] at hgoals
      rw [he] at herrors
      have hfirst : NothingLeft s (s.constrain e) :=
        ⟨hgoals.eq_of_length_le (List.prefix_append ..).length_le,
          herrors.eq_of_length_le (List.prefix_append ..).length_le⟩
      exact ⟨hfirst, hg.trans hfirst.1.symm, he.trans hfirst.2.symm⟩
    · exact fun ⟨h, h'⟩ => ⟨h'.1.trans h.1, h'.2.trans h.2⟩

theorem assumptions_foldl (s : State) (es : List Constraint) :
    (es.foldl State.constrain s).assumptions = s.assumptions.add (es.flatMap Constraint.props) := by
  induction es generalizing s with
  | nil => simp [Assumptions.add, Ty.conjunctsList]
  | cons e es ih =>
    rw [List.foldl_cons, ih, List.flatMap_cons, ← Assumptions.add_add]
    rfl

/-! ## One declaration for all -/

/-- The constraints and conditions of several declarations together. -/
def Constraint.merge (es : List Constraint) (range : Range) : Constraint where
  props := es.flatMap Constraint.props
  conditions := es.flatMap Constraint.conditions
  range := range

theorem Constraint.proved_merge_iff {A : Assumptions} {es : List Constraint} {r : Range} :
    (merge es r).Proved A ↔ ∀ e ∈ es, e.Proved A := by
  simp only [Proved, merge, List.mem_flatMap]
  exact ⟨fun h e he g hg => h g ⟨e, he, hg⟩, fun h g ⟨e, he, hg⟩ => h e he g hg⟩

/-- Lists of predicates are checked one after the other. -/
theorem returns_checkProps_append {ts us : List TypeExpr} {k k₁ k' : Kinding} {s₁ : State}
    {ps qs : List Ty} (h : Returns ((Kinding.checkProps ts).run k) c s (ps, k₁) s₁)
    (h' : Returns ((Kinding.checkProps us).run k₁) c s₁ (qs, k') s') :
    Returns ((Kinding.checkProps (ts ++ us)).run k) c s (ps ++ qs, k') s' := by
  induction ts generalizing k s ps with
  | nil =>
    obtain ⟨hps, rfl⟩ := returns_pure.mp h
    obtain ⟨rfl, rfl⟩ := Prod.mk.inj hps
    exact h'
  | cons t ts ih =>
    rw [Kinding.checkProps, StateT.run_bind, returns_bind] at h
    obtain ⟨⟨p, k₂⟩, s₂, ht, h⟩ := h
    rw [StateT.run_bind, returns_bind] at h
    obtain ⟨⟨rest, k₃⟩, s₃, hts, h⟩ := h
    obtain ⟨hps, rfl⟩ := returns_pure.mp h
    obtain ⟨rfl, rfl⟩ := Prod.mk.inj hps
    rw [List.cons_append, Kinding.checkProps, StateT.run_bind, returns_bind]
    refine ⟨(p, k₂), s₂, ht, ?_⟩
    rw [StateT.run_bind, returns_bind]
    exact ⟨_, _, ih hts, returns_pure.mpr ⟨by rw [List.append_assoc], rfl⟩⟩

theorem kinded_merge {ds : List (List TypeExpr × Range)} {es : List Constraint} {r : Range}
    (h : List.Forall₂ (Kinded c s) ds es)
    (hrange : ∀ d ∈ ds, d.2.orElse c.range = r.orElse c.range) :
    Kinded c s (ds.flatMap Prod.fst, r) (.merge es (r.orElse c.range)) := by
  induction h with
  | nil => exact ⟨rfl, ⟨[], returns_pure.mpr ⟨rfl, rfl⟩, rfl⟩, List.forall_mem_nil _⟩
  | @cons d e ds es hd hds ih =>
    obtain ⟨hfirst, hrest⟩ := List.forall_mem_cons.mp hrange
    obtain ⟨-, ⟨gs', hkinds', hconds'⟩, hclosed'⟩ := ih hrest
    obtain ⟨gs, hkinds, hconds⟩ := hd.returns
    rw [hd.range, hfirst] at hkinds
    refine ⟨rfl, ⟨gs ++ gs', ?_, ?_⟩, ?_⟩
    · have hlater := (Kinding.ignores_checkProps (σ := .earlier [] gs) _).returns hkinds'
      have hstart : (Change.earlier [] gs).kinding { allowWildcards := false } =
          { allowWildcards := false, goals := gs } :=
        congrArg (Kinding.mk [] false) (List.append_nil gs)
      rw [Change.state_earlier, hstart] at hlater
      exact returns_checkProps_append hkinds hlater
    · show e.conditions ++ es.flatMap Constraint.conditions = _
      rw [hconds, List.map_append, ← hconds']
      rfl
    · exact List.forall_mem_append.mpr ⟨hd.closed, hclosed'⟩

/-! ## Any order -/

/-- The same goals are left under the same constraints in any order. -/
theorem simplify_add_of_perm (A : Assumptions) {es es' : List Constraint} (hperm : es'.Perm es)
    (p : Ty) : simplify p (A.add (es'.flatMap Constraint.props)) =
      simplify p (A.add (es.flatMap Constraint.props)) := by
  have hprops : (es'.flatMap Constraint.props).Perm (es.flatMap Constraint.props) :=
    hperm.flatMap_right _
  refine simplify_congr (fun q => Bool.eq_iff_iff.mpr ⟨?_, ?_⟩) p
  · exact Assumptions.entails_of_subset
      (Assumptions.add_subset_add (List.Subset.refl _) hprops.subset)
  · exact Assumptions.entails_of_subset
      (Assumptions.add_subset_add (List.Subset.refl _) hprops.symm.subset)

/-- Declarations of constraints in any order, and one declaration with all of them, leave the same
constraints in force. The one declaration settles its conditions exactly if they hold under all
constraints. Declarations one after the other settle theirs only then, and they do so in every order
if each declaration settles its own. -/
theorem constraints_in_any_order (top : Bool) {ds : List (List TypeExpr × Range)}
    {es : List Constraint} (hlive : s.cancelled = false) (hscopes : s.scopes ≠ [])
    (h : List.Forall₂ (Kinded c s) ds es) :
    ∀ ds' : List (List TypeExpr × Range), ds'.Perm ds →
      (∃ s', Returns (checkDecls top (ds'.map constraintDecl)) c s 0 s' ∧
        (∀ p, simplify p s'.assumptions =
          simplify p (s.assumptions.add (es.flatMap Constraint.props))) ∧
        ((∀ e ∈ es, e.Proved (s.assumptions.add e.props)) → NothingLeft s s') ∧
        (NothingLeft s s' →
          ∀ e ∈ es, e.Proved (s.assumptions.add (es.flatMap Constraint.props)))) ∧
      ∀ r : Range, (∀ d ∈ ds, d.2.orElse c.range = r.orElse c.range) →
        ∃ s', Returns (checkDecls top [constraintDecl (ds'.flatMap Prod.fst, r)]) c s 0 s' ∧
          (∀ p, simplify p s'.assumptions =
            simplify p (s.assumptions.add (es.flatMap Constraint.props))) ∧
          (NothingLeft s s' ↔
            ∀ e ∈ es, e.Proved (s.assumptions.add (es.flatMap Constraint.props))) := by
  intro ds' hds
  obtain ⟨es', hkinded, hes⟩ := List.perm_comp_forall₂ hds h
  have hsame := simplify_add_of_perm s.assumptions hes
  have hproved : (∀ e ∈ es', e.Proved (s.assumptions.add (es'.flatMap Constraint.props))) ↔
      ∀ e ∈ es, e.Proved (s.assumptions.add (es.flatMap Constraint.props)) := by
    simp only [Constraint.Proved, hsame, hes.mem_iff]
  refine ⟨⟨_, returns_checkDecls_constraints hlive hscopes hkinded, fun p => ?_, fun halone => ?_,
    fun hnothing => ?_⟩, fun r hrange => ?_⟩
  · rw [assumptions_foldl, hsame]
  · rw [nothingLeft_foldl_iff]
    exact provedInOrder_of_alone fun e he => halone e (hes.mem_iff.mp he)
  · exact hproved.mp (nothingLeft_foldl_iff.mp hnothing).proved
  · have hmerge := kinded_merge hkinded fun d hd => hrange d (hds.mem_iff.mp hd)
    refine ⟨_, returns_checkDecls_constraints hlive hscopes (.cons hmerge .nil), fun p => ?_, ?_⟩
    · exact hsame p
    · rw [List.foldl_cons, List.foldl_nil, nothingLeft_constrain_iff, Constraint.proved_merge_iff]
      exact hproved

/-! ## A size and its predecessor

`n >= 1` is the condition of `fin (n - 1)`, and a constraint by itself. -/

def sizeName : Name := { id := 51, ident := "n" }

def atLeastOne : List TypeExpr × Range :=
  ([.builtin (.prop (.compare .geq)) [.named sizeName [], .num 1]], .empty)

def finitePred : List TypeExpr × Range :=
  ([.builtin (.prop .fin) [.builtin (.op .sub) [.named sizeName [], .num 1]]], .empty)

def sizeParam : Param := { id := 1, kind := .num, name := some sizeName }

/-- The state after the declaration of `n`. -/
def underSize : State :=
  { supply := .default, nextTypeVar := 2, nextGoal := 0, params := [sizeParam]
    scopes := [⟨.submodule, { Core.Module.empty { id := 50, ident := "M" } with
      paramTypes := [(51, ⟨sizeName, sizeParam⟩)] }⟩] }

def atLeastOneConstraint : Constraint where
  props := [.geq (.bound sizeParam) (.num 1)]
  conditions := []
  range := .empty

def finitePredConstraint : Constraint where
  props := [.fin (.op .sub [.bound sizeParam, .num 1])]
  conditions := [⟨.moduleParam, .empty, .geq (.bound sizeParam) (.num 1)⟩,
    ⟨.moduleParam, .empty, .fin (.num 1)⟩]
  range := .empty

theorem kinded_atLeastOne : Kinded emptyContext underSize atLeastOne atLeastOneConstraint where
  range := rfl
  returns := ⟨_, rfl, rfl⟩
  closed := by simp [atLeastOneConstraint]

theorem kinded_finitePred : Kinded emptyContext underSize finitePred finitePredConstraint where
  range := rfl
  returns := ⟨[⟨.partialFun "-", .empty, .geq (.bound sizeParam) (.num 1)⟩,
    ⟨.partialFun "-", .empty, .fin (.num 1)⟩], rfl, rfl⟩
  closed := by decide

/-- In one declaration the constraint settles the condition, in whichever order they are written. -/
theorem constraints_in_any_order_finitePred :
    underSize.cancelled = false ∧ underSize.scopes ≠ [] ∧
    List.Forall₂ (Kinded emptyContext underSize) [finitePred, atLeastOne]
      [finitePredConstraint, atLeastOneConstraint] ∧
    ∀ ds : List (List TypeExpr × Range), ds.Perm [finitePred, atLeastOne] →
      ∃ s, Returns (checkDecls true [constraintDecl (ds.flatMap Prod.fst, .empty)])
          emptyContext underSize 0 s ∧ NothingLeft underSize s := by
  have hscopes : underSize.scopes ≠ [] := List.cons_ne_nil _ _
  have hkinded : List.Forall₂ (Kinded emptyContext underSize) [finitePred, atLeastOne]
      [finitePredConstraint, atLeastOneConstraint] :=
    .cons kinded_finitePred (.cons kinded_atLeastOne .nil)
  refine ⟨rfl, hscopes, hkinded, fun ds hds => ?_⟩
  obtain ⟨s, hreturns, -, hnothing⟩ :=
    (constraints_in_any_order true rfl hscopes hkinded ds hds).2 .empty
      (List.forall_mem_cons.mpr ⟨rfl, List.forall_mem_singleton.mpr rfl⟩)
  refine ⟨s, hreturns, hnothing.mpr ?_⟩
  have hfinite : finitePredConstraint.Proved (underSize.assumptions.add
      ([finitePredConstraint, atLeastOneConstraint].flatMap Constraint.props)) := by
    refine List.forall_mem_cons.mpr ⟨?_, List.forall_mem_singleton.mpr ?_⟩
    · cbv
    · cbv
  exact List.forall_mem_cons.mpr
    ⟨hfinite, List.forall_mem_singleton.mpr (List.forall_mem_nil _)⟩

end Infer

/-- A module with one submodule that has a size and constraints. -/
def sizedModule (ds : List (List Surface.TypeExpr × Range)) : Surface.Module where
  name := { id := 1, ident := "Main" }
  decls := [.submodule { id := 50, ident := "M" }
    (.paramType Infer.sizeName .num .empty :: ds.map Infer.constraintDecl) .empty]

/-- Whether the module is accepted. -/
def acceptsSized (ds : List (List Surface.TypeExpr × Range)) : Bool :=
  (runModule { seeds := ⟨1, 0⟩ } (sizedModule ds)).1.isOk

/-- The order decides whether the module is accepted: the constraint that the condition needs must
not come later. -/
theorem acceptsSized_order_matters :
    acceptsSized [Infer.atLeastOne, Infer.finitePred] = true ∧
    acceptsSized [(Infer.finitePred.1 ++ Infer.atLeastOne.1, .empty)] = true ∧
    acceptsSized [Infer.finitePred, Infer.atLeastOne] = false := by
  refine ⟨?_, ?_, ?_⟩ <;> decide +kernel

end SizedTypes
