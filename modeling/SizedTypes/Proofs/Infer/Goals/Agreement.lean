import SizedTypes.Proofs.Infer.Asking
import SizedTypes.Proofs.Infer.Goals.Rounds
import SizedTypes.Proofs.Infer.Resolve
import SizedTypes.Proofs.Simplify.Soundness

/-!
# The local solver and the simplification of goals

The local solver works through goals as the checker does, under assumptions that it closes again,
and stops at the first goal that is refuted. Pass by pass the two bind the same variables and leave
the same predicates, until a goal is refuted in both. What the checker leaves the solver gives back.
-/

set_option autoImplicit false

namespace SizedTypes

open Simplify (Inert)

namespace Improvement

theorem followedBy_assoc (i j k : Improvement) :
    (i.followedBy j).followedBy k = i.followedBy (j.followedBy k) := by
  simp [followedBy, Bool.or_assoc]

theorem start_followedBy (θ : Subst) (j : Improvement) :
    followedBy { subst := θ } j = j := by
  simp [followedBy]

end Improvement

namespace Solver

/-! ## Rounds of the local solver -/

/-- Passes of the local solver up to one that refutes a goal or binds nothing. -/
inductive Rounds (asmps : Assumptions) (ans : Answer) : Subst → List Ty → Prop
  | refuted {θ θ' : Subst} {goals : List Ty} {goal : Ty}
    (hpass : pass asmps { subst := θ } goals = .error (goal, θ'))
    (hans : ans = { status := .unsolvable, subst := θ', residual := [goal] }) :
    Rounds asmps ans θ goals
  | last {θ : Subst} {goals : List Ty} {i : Improvement}
    (hpass : pass asmps { subst := θ } goals = .ok i) (hidle : i.improved = false)
    (hans : ans = { status := if i.rest.isEmpty then .solved else .unknown, subst := i.subst,
                    residual := i.rest.reverse }) :
    Rounds asmps ans θ goals
  | next {θ : Subst} {goals : List Ty} {i : Improvement}
    (hpass : pass asmps { subst := θ } goals = .ok i) (himproved : i.improved = true)
    (hrest : Rounds asmps ans i.subst i.rest.reverse) : Rounds asmps ans θ goals

variable {asmps : Assumptions} {θ θ' : Subst} {goals : List Ty} {fuel : Nat}

theorem passes_of_error {goal : Ty} (h : pass asmps { subst := θ } goals = .error (goal, θ')) :
    passes asmps (fuel + 1) θ goals =
      { status := .unsolvable, subst := θ', residual := [goal] } := by
  rw [passes, h]

theorem passes_of_idle {i : Improvement} (h : pass asmps { subst := θ } goals = .ok i)
    (hidle : i.improved = false) : passes asmps (fuel + 1) θ goals =
      { status := if i.rest.isEmpty then .solved else .unknown, subst := i.subst,
        residual := i.rest.reverse } := by
  simp only [passes, h, hidle, Bool.false_eq_true, if_false]
  cases hrest : i.rest <;> simp

theorem passes_of_improved {i : Improvement} (h : pass asmps { subst := θ } goals = .ok i)
    (himproved : i.improved = true) :
    passes asmps (fuel + 1) θ goals = passes asmps fuel i.subst i.rest.reverse := by
  simp only [passes, h, himproved, if_true]

end Solver

namespace Infer

variable {c : Context} {s s₁ s' : State}

/-! ## Refuted goals -/

/-- From `s` to `s'` the messages `reports` are added, each about a goal that can never hold. -/
structure Refutes (s s' : State) (reports : List Diagnostic) : Prop where
  errors : s'.errors = s.errors ++ reports
  unsolvable : ∀ d ∈ reports, ∃ g, d.error = .unsolvableGoal g

theorem Refutes.none (h : s'.errors = s.errors) : Refutes s s' [] where
  errors := by simp [h]
  unsolvable := List.forall_mem_nil _

theorem Refutes.append {reports reports' : List Diagnostic} (h : Refutes s s₁ reports)
    (h' : Refutes s₁ s' reports') : Refutes s s' (reports ++ reports') where
  errors := by rw [h'.errors, h.errors, List.append_assoc]
  unsolvable := List.forall_mem_append.mpr ⟨h.unsolvable, h'.unsolvable⟩

/-! ## One pass of both -/

/-- What a pass of the checker comes to, as a pass of the solver. -/
def asImprovement (θ : Subst) (left : List Goal) (improved : Bool) : Improvement where
  subst := θ
  rest := (left.map Goal.prop).reverse
  improved := improved

theorem followedBy_asImprovement (j : Improvement) (g : Goal) (θ : Subst) (left : List Goal)
    (improved : Bool) : j.followedBy (asImprovement θ left improved) =
      asImprovement θ ((j.rest.reverse.map fun p => { g with prop := p }) ++ left)
        (j.improved || improved) := by
  simp [Improvement.followedBy, asImprovement, List.map_map, Function.comp_def]

/-- The solver stops where a goal is refuted, and otherwise comes to the same. -/
inductive PassAgrees (reports : List Diagnostic) (i : Improvement) :
    Except (Ty × Subst) Improvement → Prop
  | refuted {e : Ty × Subst} (h : reports ≠ []) : PassAgrees reports i (.error e)
  | same (h : reports = []) : PassAgrees reports i (.ok i)

theorem pass_agrees {asmps : Assumptions} {gs left : List Goal} {improved : Bool}
    (hasmps : ∀ p, simplify p asmps = simplify p s.assumptions)
    (h : Returns (simplifyPass gs) c s (left, improved) s') {i : Improvement}
    (hi : i.subst = s.subst) :
    ∃ reports, Refutes s s' reports ∧ PassAgrees reports
      (i.followedBy (asImprovement s'.subst left improved))
      (Solver.pass asmps i (gs.map Goal.prop)) := by
  induction gs generalizing s left improved i with
  | nil =>
    obtain ⟨hr, rfl⟩ := returns_pure.mp h
    cases hr
    have hsame : i.followedBy (asImprovement s'.subst [] false) = i := by
      rw [← hi]
      exact i.followedBy_start
    rw [hsame]
    exact ⟨[], .none rfl, .same rfl⟩
  | cons g gs ih =>
    simp only [simplifyPass, returns_bind, returns_pure, Prod.mk.injEq] at h
    obtain ⟨⟨first, b⟩, s₁, hg, ⟨rest, b'⟩, _, hgs, ⟨rfl, rfl⟩, rfl⟩ := h
    have hasmps₁ : ∀ p, simplify p asmps = simplify p s₁.assumptions := by
      rw [(bindsConstants_of_simplifyGoal hg).assumptions]
      exact hasmps
    rw [List.map_cons, Solver.pass, hi, hasmps]
    cases hsimplify : simplify (s.subst.apply g.prop) s.assumptions with
    | error p =>
      obtain ⟨-, hs₁⟩ := (returns_simplifyGoal_of_error hsimplify).mp hg
      obtain ⟨reports, hreports, -⟩ := ih hasmps₁ hgs (i := { subst := s₁.subst }) rfl
      have hfirst : Refutes s s₁ [⟨g.range.orElse c.range,
          .unsolvableGoal { g with prop := s.subst.apply g.prop }⟩] :=
        ⟨by rw [hs₁], List.forall_mem_singleton.mpr ⟨_, rfl⟩⟩
      exact ⟨_, hfirst.append hreports, .refuted (List.cons_ne_nil _ _)⟩
    | ok residual =>
      obtain ⟨hfirst, hs₁⟩ := (returns_simplifyGoal_of_ok hsimplify).mp hg
      cases hfirst
      have hi₁ : residual.foldl Improvement.absorb i =
          i.followedBy (absorbed s.subst residual) := by
        rw [Improvement.foldl_absorb, hi]
        rfl
      have hsubst : (i.followedBy (absorbed s.subst residual)).subst = s₁.subst := by
        rw [hs₁]
        rfl
      obtain ⟨reports, hreports, hagrees⟩ := ih hasmps₁ hgs hsubst
      have herrors : Refutes s s₁ [] := .none (by rw [hs₁])
      refine ⟨reports, herrors.append hreports, ?_⟩
      dsimp only
      rwa [hi₁, ← followedBy_asImprovement, ← Improvement.followedBy_assoc]

/-- The first pass of the solver over goals, compared with a pass of the checker. -/
theorem firstPass_agrees {asmps : Assumptions} {gs left : List Goal} {improved : Bool}
    (hasmps : ∀ p, simplify p asmps = simplify p s.assumptions)
    (h : Returns (simplifyPass gs) c s (left, improved) s') :
    ∃ reports, Refutes s s' reports ∧
      (reports ≠ [] ∧ (∃ e, Solver.pass asmps { subst := s.subst } (gs.map Goal.prop) = .error e) ∨
        reports = [] ∧ Solver.pass asmps { subst := s.subst } (gs.map Goal.prop) =
          .ok (asImprovement s'.subst left improved)) := by
  let start : Improvement := { subst := s.subst }
  have hstart : start.subst = s.subst := rfl
  obtain ⟨reports, hreports, hagrees⟩ := pass_agrees hasmps h hstart
  rw [Improvement.start_followedBy] at hagrees
  refine ⟨reports, hreports, ?_⟩
  generalize Solver.pass asmps start (gs.map Goal.prop) = result at hagrees
  cases hagrees with
  | refuted hne => exact Or.inl ⟨hne, _, rfl⟩
  | same hnil => exact Or.inr ⟨hnil, rfl⟩

/-! ## All rounds of both -/

/-- The solver refutes goals that the checker refutes, and otherwise gives back what the checker
leaves. -/
structure Agrees (reports : List Diagnostic) (θ : Subst) (left : List Goal) (ans : Answer) :
    Prop where
  unsolvable : ans.status = .unsolvable ↔ reports ≠ []
  subst : reports = [] → ans.subst = θ
  residual : reports = [] → ans.residual = left.map Goal.prop
  solved : reports = [] → (ans.status = .solved ↔ left = [])

theorem Agrees.refuted {reports : List Diagnostic} (h : reports ≠ []) (θ θ' : Subst)
    (left : List Goal) (goal : Ty) :
    Agrees reports θ left { status := .unsolvable, subst := θ', residual := [goal] } where
  unsolvable := iff_of_true rfl h
  subst hnil := absurd hnil h
  residual hnil := absurd hnil h
  solved hnil := absurd hnil h

theorem Agrees.open (θ : Subst) (left : List Goal) :
    Agrees [] θ left { status := if (left.map Goal.prop).reverse.isEmpty then .solved else .unknown,
                       subst := θ, residual := (left.map Goal.prop).reverse.reverse } where
  unsolvable := by cases left <;> simp
  subst _ := rfl
  residual _ := List.reverse_reverse _
  solved _ := by cases left <;> simp

/-- Enough fuel for the rounds of the checker is enough for those of the solver. -/
theorem Rounds.agrees {asmps : Assumptions} {gs left : List Goal} {fuel : Nat}
    (h : Rounds c left s' s gs) (hs : s.subst.Triangular)
    (hasmps : ∀ p, simplify p asmps = simplify p s.assumptions)
    (hfuel : distinctCount (goalIds s.subst gs) < fuel) :
    ∃ reports, Refutes s s' reports ∧
      Solver.Rounds asmps (Solver.passes asmps fuel s.subst (gs.map Goal.prop)) s.subst
        (gs.map Goal.prop) ∧
      Agrees reports s'.subst left (Solver.passes asmps fuel s.subst (gs.map Goal.prop)) := by
  obtain ⟨fuel, rfl⟩ := Nat.exists_eq_add_one_of_ne_zero (Nat.ne_zero_of_lt hfuel)
  induction h generalizing fuel with
  | @last s gs hpass =>
    obtain ⟨reports, hreports, ⟨hne, e, hsolver⟩ | ⟨rfl, hsolver⟩⟩ :=
      firstPass_agrees hasmps hpass
    · rw [Solver.passes_of_error hsolver]
      exact ⟨reports, hreports, .refuted hsolver rfl, .refuted hne _ _ _ _⟩
    · rw [Solver.passes_of_idle hsolver rfl]
      exact ⟨[], hreports, .last hsolver rfl rfl, .open _ _⟩
  | @next s s₁ gs gs' hpass hrest ih =>
    have hspec : Pass s.subst s₁.subst gs gs' true := returns_simplifyPass hpass
    have hless : distinctCount (goalIds s₁.subst gs') < fuel := by
      have hlt := hspec.distinctCount_lt hs
      omega
    obtain ⟨fuel, rfl⟩ := Nat.exists_eq_add_one_of_ne_zero (Nat.ne_zero_of_lt hless)
    have hasmps₁ : ∀ p, simplify p asmps = simplify p s₁.assumptions := by
      rw [(bindsConstants_of_simplifyPass hpass).assumptions]
      exact hasmps
    obtain ⟨reports', hreports', hrounds, hagrees'⟩ := ih (hspec.triangular hs) hasmps₁ fuel hless
    obtain ⟨reports, hreports, ⟨hne, e, hsolver⟩ | ⟨rfl, hsolver⟩⟩ :=
      firstPass_agrees hasmps hpass
    · rw [Solver.passes_of_error hsolver]
      exact ⟨reports ++ reports', hreports.append hreports', .refuted hsolver rfl,
        .refuted (List.append_ne_nil_of_left_ne_nil hne _) _ _ _ _⟩
    · have hrest : (asImprovement s₁.subst gs' true).rest.reverse = gs'.map Goal.prop :=
        List.reverse_reverse _
      rw [Solver.passes_of_improved hsolver rfl, hrest]
      exact ⟨reports', hreports.append hreports', .next hsolver rfl (hrest.symm ▸ hrounds),
        hagrees'⟩

/-- The local solver, asked about goals under the closed assumptions, and the checker, from the
empty substitution on, both end after finitely many passes. The solver refutes the goals exactly if
the checker reports one that can never hold. If there is none, the two bind the same variables and
leave the same predicates in the same order, and the goals are solved exactly if nothing is left. -/
theorem localRules_agrees (c : Context) (s : State) (assumed : List Ty) (params : List Param)
    (gs : List Goal) (asked : Nat) :
    ∃ left s' ans reports,
      Returns (simplifyGoals gs) c { s with subst := .empty, assumptions := .ofList assumed }
        left s' ∧
      Rounds c left s' { s with subst := .empty, assumptions := .ofList assumed } gs ∧
      Solver.localRules.ask asked false
        ⟨params, (Assumptions.ofList assumed).props, gs.map Goal.prop⟩ = ⟨.ok ans, false⟩ ∧
      Solver.Rounds (.ofList (Assumptions.ofList assumed).props) ans .empty (gs.map Goal.prop) ∧
      Refutes s s' reports ∧ Agrees reports s'.subst left ans := by
  obtain ⟨left, s', hreturns⟩ :=
    exists_returns_simplifyGoals c { s with subst := .empty, assumptions := .ofList assumed } gs
  have hrounds := rounds_of_simplifyGoals hreturns Subst.triangular_empty
  have hclosed := Assumptions.closed_ofList assumed
  have hfuel : distinctCount (goalIds .empty gs) < (Ty.freeIds (gs.map Goal.prop)).length + 1 := by
    refine Nat.lt_succ_of_le ((distinctCount_le_of_subset fun i hi => ?_).trans
      (distinctCount_le_length _))
    rw [Ty.freeIds, List.mem_eraseDups, List.flatMap_map]
    exact hi
  obtain ⟨reports, hreports, hsolver, hagrees⟩ :=
    hrounds.agrees Subst.triangular_empty hclosed.simplify_ofList_props hfuel
  exact ⟨left, s', _, reports, hreturns, hrounds, rfl, hsolver,
    ⟨hreports.errors, hreports.unsolvable⟩, hagrees⟩

/-! ## What the checker leaves -/

/-- Idle goals come back from a pass of the solver. -/
theorem pass_of_idle {asmps : Assumptions} {gs : List Goal} {i : Improvement} {θ : Subst}
    (h : ∀ g ∈ gs, Idle asmps θ g.prop) (hi : ∀ j, θ.lookup j = none → i.subst.lookup j = none) :
    Solver.pass asmps i (gs.map Goal.prop) =
      .ok { i with rest := (gs.map Goal.prop).reverse ++ i.rest } := by
  induction gs generalizing i with
  | nil => rfl
  | cons g gs ih =>
    obtain ⟨hg, hgs⟩ := List.forall_mem_cons.mp h
    have happly : i.subst.apply g.prop = g.prop :=
      Subst.apply_eq_self fun j hj => hi j (hg.unbound j hj)
    have hkeep := Improvement.foldl_absorb_of_idle (i := i)
      (List.forall_mem_singleton.mpr hg.unforced)
    have hrest := ih (i := { i with rest := [g.prop].reverse ++ i.rest }) hgs hi
    rw [List.map_cons, Solver.pass, happly, hg.inert.simplify]
    dsimp only
    rw [hkeep, hrest]
    simp

/-- The local solver gives idle goals back. -/
theorem answer_of_idle {asmps : Assumptions} {θ : Subst} {gs : List Goal} (params : List Param)
    (hasmps : asmps.Closed) (h : ∀ g ∈ gs, Idle asmps θ g.prop) :
    Solver.answer ⟨params, asmps.props, gs.map Goal.prop⟩ =
      { status := if gs.isEmpty then .solved else .unknown, residual := gs.map Goal.prop } := by
  have hreclosed : ∀ g ∈ gs, Idle (.ofList asmps.props) θ g.prop := fun g hg =>
    ⟨(h g hg).inert.congr fun p => (hasmps.entails_ofList_props p).symm, (h g hg).unforced,
      (h g hg).unbound⟩
  have hpass := pass_of_idle hreclosed (i := { subst := .empty }) fun _ _ => rfl
  rw [Solver.answer, Solver.passes_of_idle hpass rfl]
  cases gs <;> simp [Subst.empty]

theorem exists_returns_goalFor (c : Context) (s : State) (gs : List Goal) (p : Ty) :
    ∃ g, Returns (goalFor gs p) c s g s ∧ g.prop = p := by
  unfold goalFor currentRange
  cases h : gs.find? fun g => (s.subst.apply g.prop).same p with
  | some g =>
    refine ⟨{ g with prop := p }, ?_, rfl⟩
    rw [returns_get_bind]
    simp only [h, returns_pure, and_self]
  | none =>
    refine ⟨⟨.improvement, c.range, p⟩, ?_, rfl⟩
    rw [returns_get_bind]
    simp only [h, bind_assoc, returns_read_bind, pure_bind, returns_pure, and_self]

theorem exists_returns_goalsFor (c : Context) (s : State) (gs : List Goal) (ps : List Ty) :
    ∃ left, Returns (ps.mapM (goalFor gs)) c s left s ∧ left.map Goal.prop = ps := by
  induction ps with
  | nil => exact ⟨[], returns_mapM_nil.mpr ⟨rfl, rfl⟩, rfl⟩
  | cons p ps ih =>
    obtain ⟨g, hg, hprop⟩ := exists_returns_goalFor c s gs p
    obtain ⟨left, hleft, hprops⟩ := ih
    refine ⟨g :: left, returns_mapM_cons.mpr ⟨g, s, left, hg, hleft, rfl⟩, ?_⟩
    rw [List.map_cons, hprop, hprops]

/-- An answer that binds nothing and leaves predicates open gives goals for them. -/
theorem exists_returns_useAnswer (c : Context) (s : State) (gs : List Goal) (residual : List Ty) :
    ∃ left, Returns (useAnswer gs { status := .unknown, residual := residual }) c s left s ∧
      left.map Goal.prop = residual := by
  obtain ⟨left, hleft, hprops⟩ := exists_returns_goalsFor c s gs residual
  refine ⟨left, ?_, hprops⟩
  unfold useAnswer
  rw [returns_modify_bind]
  exact hleft

theorem returns_askSolver {q : Query} {res : Except String Answer}
    (h : c.solver.ask s.queries.length s.cancelled q = ⟨res, false⟩) :
    Returns (askSolver q) c s res { s with queries := s.queries ++ [q] } := by
  unfold askSolver
  rw [returns_read_bind, returns_get_bind, h]
  exact returns_modify_bind.mpr (returns_pure.mpr ⟨rfl, by simp⟩)

/-- The state after a query that decides nothing about `n` goals. -/
def State.undecided (s : State) (q : Query) (n : Nat) : State :=
  { s with queries := s.queries ++ [q]
           events := s.events ++ [.solverAnswered n Status.unknown.text] }

/-- The local solver does not decide idle goals that it is asked about. -/
theorem answer_query_of_idle {gs : List Goal} (hasmps : s.assumptions.Closed)
    (h : ∀ g ∈ gs, Idle s.assumptions s.subst g.prop) (hne : gs ≠ []) :
    Solver.answer (s.query gs) = { status := .unknown, residual := gs.map Goal.prop } := by
  have hprops : (gs.map fun g => s.subst.apply g.prop) = gs.map Goal.prop :=
    List.map_congr_left fun g hg => (h g hg).apply
  rw [State.query, hprops, answer_of_idle s.params hasmps h, if_neg (by simpa using hne)]

/-- Escalating idle goals to the local solver asks one query about them, binds nothing, reports
nothing and gives back the same predicates. -/
theorem exists_returns_escalate {gs : List Goal} (hsolver : c.solver = .localRules)
    (hcancelled : s.cancelled = false) (hasmps : s.assumptions.Closed)
    (h : ∀ g ∈ gs, Idle s.assumptions s.subst g.prop) (hne : gs ≠ []) :
    ∃ left s', Returns (escalate gs) c s left s' ∧ left.map Goal.prop = gs.map Goal.prop ∧
      s'.queries = s.queries ++ [s.query gs] ∧ s'.subst = s.subst ∧ s'.errors = s.errors := by
  have hreply : c.solver.ask s.queries.length s.cancelled (s.query gs) =
      ⟨.ok { status := .unknown, residual := gs.map Goal.prop }, false⟩ := by
    rw [hsolver, hcancelled, ← answer_query_of_idle hasmps h hne]
    rfl
  obtain ⟨left, hleft, hprops⟩ := exists_returns_useAnswer c
    (s.undecided (s.query gs) gs.length) gs (gs.map Goal.prop)
  refine ⟨left, s.undecided (s.query gs) gs.length, ?_, hprops, rfl, rfl, rfl⟩
  unfold escalate
  rw [returns_get_bind]
  exact returns_bind.mpr ⟨_, _, returns_askSolver hreply, returns_modify_bind.mpr hleft⟩

/-- What simplifying leaves of a predicate, and what it leaves of goals, simplifying leaves as it
is. Simplified goals come back from the local solver under the same assumptions, undecided and in
their order, with nothing bound; it is not called if there are none. -/
theorem simplified_fixed :
    (∀ (asmps : Assumptions) (goal : Ty) (residual : List Ty), simplify goal asmps = .ok residual →
      ∀ r ∈ residual, simplify r asmps = .ok [r]) ∧
    ∀ (c : Context) (s : State) (assumed : List Ty) (gs : List Goal), s.subst.Acyclic →
      s.assumptions = .ofList assumed → ∃ left s', Returns (simplifyGoals gs) c s left s' ∧
        Returns (simplifyGoals left) c s' left s' ∧
        (left ≠ [] → ∀ asked, Solver.localRules.ask asked false (s'.query left) =
          ⟨.ok { status := .unknown, subst := .empty, residual := left.map Goal.prop }, false⟩) ∧
        (c.solver = .localRules → s'.cancelled = false → ∃ left' s'',
          Returns (if left.isEmpty then pure [] else escalate left) c s' left' s'' ∧
          left'.map Goal.prop = left.map Goal.prop ∧
          s''.queries = s'.queries ++ (if left.isEmpty then [] else [s'.query left]) ∧
          s''.subst = s'.subst ∧ s''.errors = s'.errors) := by
  refine ⟨fun asmps goal residual h r hr => (inert_of_simplify h r hr).simplify, ?_⟩
  intro c s assumed gs hacyclic hassumed
  obtain ⟨left, s', hreturns⟩ := exists_returns_simplifyGoals c s gs
  have hidle := (rounds_of_simplifyGoals hreturns hacyclic.triangular).idle hacyclic
  have hclosed : s'.assumptions.Closed := by
    rw [(bindsConstants_of_simplifyGoals hreturns).assumptions, hassumed]
    exact Assumptions.closed_ofList assumed
  refine ⟨left, s', hreturns, returns_simplifyGoals_of_idle hidle, fun hne asked => ?_,
    fun hsolver hcancelled => ?_⟩
  · exact congrArg (fun ans => Reply.mk (.ok ans) false) (answer_query_of_idle hclosed hidle hne)
  · cases left with
    | nil => exact ⟨[], s', returns_pure.mpr ⟨rfl, rfl⟩, rfl, by simp, rfl, rfl⟩
    | cons g gs => exact exists_returns_escalate hsolver hcancelled hclosed hidle (by simp)

/-- Only `prime ?2` is assumed. -/
def primeLength : State :=
  { supply := .default, nextTypeVar := 3, nextGoal := 0
    assumptions := .ofList [.prime (lengthVar 2)] }

/-- `?1 + 1 == 3` and `fin (?1 + ?3)`. -/
def lengthGoals : List Goal :=
  [⟨.literal, .empty, .equal (.op .add [lengthVar 1, .num 1]) (.num 3)⟩,
    ⟨.literal, .empty, .fin (.op .add [lengthVar 1, lengthVar 3])⟩]

theorem simplified_fixed_lengthGoals :
    simplify (.fin (lengthVar 1)) (.ofList [.prime (lengthVar 2)]) = .ok [.fin (lengthVar 1)] ∧
      primeLength.subst.Acyclic ∧ ∃ left s',
        Returns (simplifyGoals lengthGoals) emptyContext primeLength left s' ∧
          Returns (simplifyGoals left) emptyContext s' left s' := by
  have hsum : simplify finiteSum (.ofList [.prime (lengthVar 2)]) = .ok [.fin (lengthVar 1)] := by
    cbv
  have hacyclic : primeLength.subst.Acyclic := Subst.acyclic_onlyScopes .empty
  obtain ⟨left, s', hreturns, hfixed, -⟩ := simplified_fixed.2 emptyContext primeLength _
    lengthGoals hacyclic rfl
  exact ⟨simplified_fixed.1 _ _ _ hsum _ (List.mem_singleton_self _), hacyclic, left, s', hreturns,
    hfixed⟩

end Infer
end SizedTypes
