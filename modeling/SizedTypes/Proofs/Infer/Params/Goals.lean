import SizedTypes.Proofs.Infer.Goals.Settled
import SizedTypes.Proofs.Infer.Params

/-!
# The parameters of goals

Goals are simplified, defaulted and put to a solver without parameters being brought in, if the
solver is confined.
-/

set_option autoImplicit false

namespace SizedTypes.Infer

variable {K K' : Set Int}

/-! ## Selectors -/

theorem paramsIn_component {sel : Selector} {record t : Ty} (h : component? sel record = some t)
    (hrecord : record.ParamsIn K) : t.ParamsIn K := by
  unfold component? at h
  split at h
  · exact Ty.paramsIn_record.mp hrecord _ (Table.mem_of_find? h)
  · obtain ⟨-, hfs, hargs⟩ := Ty.paramsIn_newtype.mp hrecord
    obtain ⟨f, hf, heq⟩ := List.mem_map.mp (Table.mem_of_find? h)
    rw [← (Prod.mk.inj heq).2]
    exact (hfs f hf).instantiate (mem_assignment hargs)
  · split at h
    · cases h
    · exact Ty.paramsIn_con.mp hrecord t (List.mem_of_getElem? h)
  · cases h
    exact Ty.paramsIn_con.mp hrecord t (by simp)
  · cases h

theorem paramsIn_componentGoals {sel : Selector} {record : Ty} (hrecord : record.ParamsIn K) :
    ∀ p ∈ componentGoals sel record, p.ParamsIn K := by
  unfold componentGoals
  split
  · have hn := Ty.paramsIn_con.mp hrecord _ (List.mem_cons_self ..)
    simpa [Ty.geq] using hn
  · exact List.forall_mem_nil _

theorem draws_setSolution (id : Int) (soln : Solution) :
    Draws K (setSolution id soln) fun _ _ => True :=
  .modify (fun _ hs => { hs with }) fun _ => ⟨rfl, rfl⟩

theorem draws_liftSeq {g : SelectorGoal} (hg : g.ParamsIn K) {len elem : Ty} (hlen : len.ParamsIn K)
    (helem : elem.ParamsIn K) : Draws K (liftSeq g len elem) fun _ _ => True := by
  refine (draws_freshType ..).bind fun hK inner hinner => ?_
  refine (draws_unifyFrom _ ⟨_, _⟩ (hg.field.mono hK)
    (Ty.paramsIn_seq.mpr ⟨hlen.mono hK, hinner⟩)).bind fun hK₁ _ _ => ?_
  exact (draws_newSelectorGoal _ (helem.mono (hK.trans hK₁)) (hinner.mono hK₁)).bind
    fun _ _ _ => draws_setSolution ..

theorem draws_liftArrow {g : SelectorGoal} (hg : g.ParamsIn K) {arg res : Ty}
    (harg : arg.ParamsIn K) (hres : res.ParamsIn K) :
    Draws K (liftArrow g arg res) fun _ _ => True := by
  refine (draws_freshType ..).bind fun hK inner hinner => ?_
  refine (draws_unifyFrom _ ⟨_, _⟩ (hg.field.mono hK)
    (Ty.paramsIn_arrow.mpr ⟨harg.mono hK, hinner⟩)).bind fun hK₁ _ _ => ?_
  exact (draws_newSelectorGoal _ (hres.mono (hK.trans hK₁)) (hinner.mono hK₁)).bind
    fun _ _ _ => draws_setSolution ..

theorem draws_solveSelectorAt {g : SelectorGoal} (hg : g.ParamsIn K) {record : Ty}
    (hrecord : record.ParamsIn K) : Draws K (solveSelectorAt g record) fun _ _ => True := by
  have hexpand := hrecord.expand
  unfold solveSelectorAt
  split
  · rename_i t hcomponent
    refine (draws_unifyFrom _ ⟨_, _⟩ hg.field (paramsIn_component hcomponent hexpand)).bind
      fun hK _ _ => ?_
    exact (draws_addGoals _ (paramsIn_componentGoals (hexpand.mono hK))).bind
      fun _ _ _ => draws_setSolution ..
  · rename_i heq
    rw [heq, Ty.paramsIn_con] at hexpand
    exact draws_liftSeq hg (hexpand _ (by simp)) (hexpand _ (by simp))
  · rename_i heq
    rw [heq, Ty.paramsIn_con] at hexpand
    exact draws_liftArrow hg (hexpand _ (by simp)) (hexpand _ (by simp))
  · exact (draws_recordError _).bind fun _ _ _ => draws_setSolution ..

theorem draws_solveSelector {g : SelectorGoal} (hg : g.ParamsIn K) :
    Draws K (solveSelector g) fun _ _ => True := by
  refine (draws_applied hg.record).bind fun hK record hrecord => ?_
  have hg := hg.mono hK
  split
  · exact .pure trivial
  · exact (draws_solveSelectorAt hg hrecord).withRange.bind fun _ _ _ => .pure trivial

theorem draws_solveSelectorsOnce {gs : List SelectorGoal} (hgs : ∀ g ∈ gs, g.ParamsIn K) :
    Draws K (solveSelectorsOnce gs) fun _ _ => True := by
  induction gs generalizing K with
  | nil => exact .pure trivial
  | cons g gs ih =>
    obtain ⟨hg, hgs⟩ := List.forall_mem_cons.mp hgs
    have hrest : ∀ {K' : Set Int} (solved : Bool), K ⊆ K' → Draws K' (do
        let more ← solveSelectorsOnce gs
        return solved || more) fun _ _ => True := fun solved hK =>
      (ih fun g' hg' => (hgs g' hg').mono hK).bind fun _ _ _ => .pure trivial
    refine (draws_solveSelector hg).bind fun hK solved _ => .ite ?_ (hrest solved hK)
    refine .bind (.modify (fun s hs => { hs with pending := ?_ }) fun _ => ⟨rfl, rfl⟩)
      fun hK' _ _ => hrest solved (hK.trans hK')
    exact List.forall_mem_append.mpr ⟨hs.pending, List.forall_mem_singleton.mpr (hg.mono hK)⟩

theorem draws_solveSelectorRounds (fuel : Nat) :
    Draws K (solveSelectorRounds fuel) fun _ _ => True := by
  induction fuel generalizing K with
  | zero => exact .pure trivial
  | succ fuel ih =>
    refine .get_bind fun s hs => ?_
    refine .bind (.modify (fun _ hs => { hs with pending := List.forall_mem_nil _ })
      fun _ => ⟨rfl, rfl⟩) fun hK _ _ => ?_
    exact (draws_solveSelectorsOnce fun g hg => (hs.pending g hg).mono hK).bind
      fun _ _ _ => .ite ih (.pure trivial)

theorem draws_solveSelectors : Draws K solveSelectors fun _ _ => True :=
  .get_bind fun _ _ => draws_solveSelectorRounds _

/-! ## Simplification -/

/-- The predicates of goals have their parameters among `K`. -/
def GoalsIn (K : Set Int) (gs : List Goal) : Prop := ∀ g ∈ gs, g.prop.ParamsIn K

theorem GoalsIn.mono {gs : List Goal} (h : GoalsIn K gs) (hK : K ⊆ K') : GoalsIn K' gs :=
  fun g hg => (h g hg).mono hK

theorem draws_simplifyGoal {g : Goal} (hg : g.prop.ParamsIn K) :
    Draws K (simplifyGoal g) fun K' r => GoalsIn K' r.1 where
  step {_ s _ _} h hc hs := by
    unfold simplifyGoal at h
    rw [returns_get_bind] at h
    dsimp only at h
    split at h
    · refine Draws.step (P := fun K' r => GoalsIn K' r.1) ?_ h hc hs
      exact (draws_recordError _).withRange.bind fun _ _ _ => .pure (List.forall_mem_nil _)
    · rename_i residual hsimplify
      rw [returns_set_bind, returns_pure] at h
      obtain ⟨rfl, rfl⟩ := h
      have hstart : Improvement.ParamsIn K { subst := s.subst } := ⟨hs.subst, List.forall_mem_nil _⟩
      have hend := hstart.absorbAll (paramsIn_simplify hsimplify (hs.subst.apply hg))
      refine ⟨0, ⟨rfl, rfl⟩, { hs.mono Set.subset_union_left with subst := ?_ }, ?_⟩
      · exact hend.subst.mono Set.subset_union_left
      · exact List.forall_mem_map.mpr fun r hr =>
          (hend.rest r (List.mem_reverse.mp hr)).mono Set.subset_union_left

theorem draws_simplifyPass {gs : List Goal} (hgs : GoalsIn K gs) :
    Draws K (simplifyPass gs) fun K' r => GoalsIn K' r.1 := by
  induction gs generalizing K with
  | nil => exact .pure (List.forall_mem_nil _)
  | cons g gs ih =>
    obtain ⟨hg, hgs⟩ := List.forall_mem_cons.mp hgs
    refine (draws_simplifyGoal hg).bind fun hK r hr => ?_
    refine (ih (GoalsIn.mono hgs hK)).bind fun hK' rs hrs => .pure ?_
    exact List.forall_mem_append.mpr ⟨hr.mono hK', hrs⟩

theorem draws_simplifyPasses (fuel : Nat) {gs : List Goal} (hgs : GoalsIn K gs) :
    Draws K (simplifyPasses fuel gs) GoalsIn := by
  induction fuel generalizing K gs with
  | zero => exact .pure hgs
  | succ fuel ih =>
    exact (draws_simplifyPass hgs).bind fun _ r hr => .ite (ih hr) (.pure hr)

theorem draws_simplifyGoals {gs : List Goal} (hgs : GoalsIn K gs) :
    Draws K (simplifyGoals gs) GoalsIn := .get_bind fun _ _ => draws_simplifyPasses _ hgs

/-! ## The solver -/

theorem draws_goalFor (gs : List Goal) {p : Ty} (hp : p.ParamsIn K) :
    Draws K (goalFor gs p) fun K' g => g.prop.ParamsIn K' := by
  refine .get_bind fun s _ => ?_
  dsimp only
  split
  · exact .pure hp
  · exact draws_currentRange.bind fun hK _ _ => .pure (hp.mono hK)

theorem draws_askSolver {q : Query} (hq : q.ParamsIn K) :
    Draws K (askSolver q) fun K' r => ∀ ans, r = .ok ans → ans.ParamsIn K' :=
  .of_keeps fun h hc hs => by
    unfold askSolver at h
    simp only [returns_read_bind, returns_get_bind, returns_modify_bind, returns_pure] at h
    obtain ⟨rfl, rfl⟩ := h
    exact ⟨⟨rfl, rfl⟩, { hs with }, fun ans hans => hc.solver _ _ _ ans hans K hq⟩

theorem draws_useAnswer (gs : List Goal) {ans : Answer} (hans : ans.ParamsIn K) :
    Draws K (useAnswer gs ans) GoalsIn := by
  have hresidual : ∀ {K'}, K ⊆ K' → ∀ p ∈ ans.residual, p.ParamsIn K' :=
    fun hK p hp => (hans.residual p hp).mono hK
  refine .bind (.modify (fun s hs => { hs with
    subst := hs.subst.extendEach hans.subst.entries }) fun _ => ⟨rfl, rfl⟩) fun hK _ _ => ?_
  split
  · exact .pure (List.forall_mem_nil _)
  · refine .bind (Draws.withRange (Draws.bind (.forM (I := Ty.ParamsIn) (fun hK _ h => h.mono hK)
      (hresidual hK) fun _ hp => (draws_goalFor gs hp).bind fun _ _ _ => draws_recordError _)
      fun _ _ _ => .ite (draws_recordError _) (.pure trivial))) fun _ _ _ =>
      .pure (List.forall_mem_nil _)
  · exact .mapM (fun hK _ h => h.mono hK) fun hK' p hp =>
      draws_goalFor gs (hresidual (hK.trans hK') p hp)

theorem draws_escalate {gs : List Goal} (hgs : GoalsIn K gs) :
    Draws K (escalate gs) GoalsIn := by
  refine .get_bind fun s hs => ?_
  have hgoals : ∀ p ∈ gs.map fun g => s.subst.apply g.prop, p.ParamsIn K :=
    List.forall_mem_map.mpr fun g hg => hs.subst.apply (hgs g hg)
  refine (draws_askSolver ⟨hs.params, hs.assumptions, hgoals⟩).bind fun _ r hr => ?_
  split
  · exact (draws_trace _).bind fun _ _ _ => (draws_recordError _).withRange.bind
      fun _ _ _ => .pure (List.forall_mem_nil _)
  · rename_i ans
    have hans := hr ans rfl
    exact (draws_trace _).bind fun hK _ _ =>
      draws_useAnswer gs ⟨hans.subst.mono hK, fun p hp => (hans.residual p hp).mono hK⟩

theorem draws_setGoals {gs : List Goal} (hgs : GoalsIn K gs) :
    Draws K (modify fun s => { s with goals := gs } : Infer PUnit) fun _ _ => True :=
  .modify (fun _ hs => { hs with goals := hgs }) fun _ => ⟨rfl, rfl⟩

theorem draws_simplifyStore (ask : Bool) : Draws K (simplifyStore ask) fun _ _ => True := by
  refine draws_solveSelectors.bind fun _ _ _ => .get_bind fun s hs => ?_
  refine (draws_simplifyGoals hs.goals).bind fun _ gs hgs => ?_
  refine (draws_setGoals hgs).bind fun hK _ _ => .ite ?_ (.pure trivial)
  exact (draws_escalate (hgs.mono hK)).bind fun _ gs hgs => draws_setGoals hgs

theorem draws_proveSignature (src : GoalSource) (params : List Param) {gs : List Goal}
    (hgs : GoalsIn K gs) : Draws K (proveSignature src params gs) fun _ _ => True := by
  refine .get_bind fun s hs => ?_
  have happlied : GoalsIn K (gs.map fun g => { g with prop := s.subst.apply g.prop }) :=
    List.forall_mem_map.mpr fun g hg => hs.subst.apply (hgs g hg)
  dsimp only [splitGoals]
  rw [List.partition_eq_filter_filter]
  refine (draws_store fun g hg => happlied g (List.mem_of_mem_filter hg)).bind fun hK _ _ => ?_
  refine (draws_simplifyGoals fun g hg =>
    (happlied g (List.mem_of_mem_filter hg)).mono hK).bind fun _ here hhere => ?_
  have hreport : ∀ {K' : Set Int} (here : List Goal), Draws K' (do
      if !here.isEmpty then
        withRange (firstRange here) (recordError (.unsolvedGoals here))
        trace (.unprovedGoals src.describe here.length)) fun _ _ => True := fun here =>
    .ite ((draws_recordError _).withRange.bind fun _ _ _ => draws_trace _) (.pure trivial)
  exact .ite (hreport []) ((draws_escalate hhere).bind fun _ here _ => hreport here)

/-! ## Defaults -/

theorem draws_defaultVar (goals : List Goal) (v : TyVar) :
    Draws K (defaultVar goals v) fun _ _ => True where
  step {_ s _ _} h hc hs := by
    unfold defaultVar at h
    rw [returns_get_bind] at h
    split at h
    · obtain ⟨-, rfl⟩ := returns_pure.mp h
      exact ⟨0, ⟨rfl, rfl⟩, hs.mono Set.subset_union_left, trivial⟩
    · rename_i θ t hdefault
      obtain ⟨con, rfl⟩ := constant_of_defaulted hdefault
      have ht : (Ty.con con []).ParamsIn K := .con (List.forall_mem_nil _)
      have hext := hs.subst.extend ht (defaulted?_eq_some hdefault).1
      rw [returns_set_bind] at h
      obtain ⟨n, hdrew, hs', -⟩ := ((draws_recordWarning _).bind fun _ _ _ => draws_trace _).step h
        hc { hs with subst := hext }
      exact ⟨n, { hdrew with }, hs', trivial⟩

theorem draws_defaultVars (vs : List TyVar) (goals : List Goal) :
    Draws K (defaultVars vs goals) fun _ _ => True :=
  .forM (I := fun _ _ => True) (fun _ _ _ => trivial) (fun _ _ => trivial)
    fun _ _ => draws_defaultVar goals _

end SizedTypes.Infer
