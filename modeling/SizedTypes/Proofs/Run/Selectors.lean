import SizedTypes.Proofs.Infer.Ledger
import SizedTypes.Proofs.Infer.Ledger.Recursion
import SizedTypes.Proofs.Run.Cancelled

/-!
# Selector goals in whole runs

Between the operations of a run every selector goal that has been allocated waits in the store or is
solved. A run that succeeds has none left in the store at its end: every selection that it has put
off is resolved through the solutions that it has found.
-/

set_option autoImplicit false

namespace SizedTypes

namespace Infer

open Surface (Bind Expr Pattern TypeArg TypeExpr UpdateHow)
open SizedTypes.Core (Decl Term awaited partsDecls partsGroups)

variable {input : Input} {c : Context} {s s₁ s' : State}

/-! ## The end of a run -/

/-- A report is an error. -/
theorem eq_nil_of_reportUnsolved {gs : List Goal} {u : Unit}
    (h : Returns (reportUnsolved gs) c s u s') (herrors : s'.errors = []) : gs = [] ∧ s' = s := by
  unfold reportUnsolved at h
  split at h
  · unfold recordError currentRange at h
    simp only [bind_assoc, returns_read_bind, pure_bind, withRange, returns_withReader,
      returns_modify] at h
    simp [h] at herrors
  · rename_i hnil
    exact ⟨by simpa using hnil, (returns_pure.mp h).2⟩

/-- A run without an error has nothing left to report. -/
theorem returns_reportLeft {u : Unit} (h : Returns reportLeft c s u s') (herrors : s'.errors = []) :
    s.pending = [] ∧ s' = { s with goals := [], pending := [] } := by
  unfold reportLeft at h
  rw [returns_get_bind] at h
  obtain ⟨_, s₁, hgoals, h⟩ := returns_bind.mp h
  rw [returns_modify_bind, returns_get_bind] at h
  obtain ⟨_, s₂, hpending, h⟩ := returns_bind.mp h
  obtain rfl := returns_modify.mp h
  obtain ⟨hnil, rfl⟩ := eq_nil_of_reportUnsolved hpending herrors
  obtain ⟨-, rfl⟩ := eq_nil_of_reportUnsolved hgoals herrors
  exact ⟨List.map_eq_nil_iff.mp hnil, rfl⟩

/-- A run without an error discharges all selector goals. -/
theorem returns_finish {u : Unit} (h : Returns finish c s u s') (herrors : s'.errors = []) :
    ∃ s₁, Returns discharge c s ⟨⟩ s₁ ∧ s₁.pending = [] ∧
      s' = { s₁ with goals := [], pending := [] } := by
  rw [finish_eq] at h
  obtain ⟨_, s₁, hdischarge, hreport⟩ := returns_bind.mp h
  exact ⟨s₁, hdischarge, returns_reportLeft hreport herrors⟩

/-- So the report does not touch the ledger. -/
theorem conserved_finish {u : Unit} (h : Returns finish c s u s') (herrors : s'.errors = []) :
    Conserved s s' := by
  obtain ⟨s₁, hdischarge, hnil, rfl⟩ := returns_finish h herrors
  refine Rules.trans (respects_discharge.step hdischarge) (.of_books ?_ rfl)
  simp [State.books, hnil]

/-! ## Whole runs of expressions -/

theorem awaits_elaborate (e : Expr) :
    Awaits [] (fun ds => awaited (partsDecls ds)) (elaborate e) := by
  have hchecked : ∀ (b : Bind) (t : Ty) {known : List Int},
      Awaits known (fun d => awaited d.parts) (do
        let d ← checkMono b t fun exp => checkBody b exp
        simplifyStore false
        return d) := fun b t _ =>
    (awaits_checkMono (fun exp _ => awaits_checkBody b exp) b t).bind fun _ =>
      (respects_simplifyStore _).bind_awaits fun _ => .pure (List.subset_append_right ..)
  refine (respects_freshName _).bind_awaits fun _ => (awaits_openScope ..).bind fun _ =>
    (respects_freshName _).bind_awaits fun _ => (respects_freshType ..).bind_awaits fun _ =>
    (awaits_collectGoals (hchecked _ _)).bind fun r => Respects.get.bind_awaits fun _ =>
    (respects_defaultVars ..).bind_awaits fun _ => (respects_simplifyGoals _).bind_awaits fun _ =>
    awaits_generalize _ _ ?_
  simp [partsDecls]

/-- A successful run of an expression: `ds` are the definitions that it becomes, `elaborated` is the
state after that, `finished` the one in which they get their final forms. -/
structure ExprRun (input : Input) (e : Expr) (out : ExprOutput) (ds : List Decl)
    (elaborated finished : State) : Prop where
  elaborate : Returns (elaborate e) (contextOf input) (initial input) ds elaborated
  finish : Returns finish (contextOf input) elaborated ⟨⟩ finished
  term : out.term =
    (((resolver finished).decls ds finished.supply).1.head?.bind Decl.body).getD default
  errors : finished.errors = []

theorem exists_exprRun {e : Expr} {out : ExprOutput} (h : (runExpr input e).1 = .ok out) :
    ∃ ds elaborated finished, ExprRun input e out ds elaborated finished := by
  obtain ⟨s', h⟩ := returns_of_start h
  rw [inferExpr_eq] at h
  obtain ⟨ds, elaborated, helaborate, h⟩ := returns_bind.mp h
  rw [returns_get_bind] at h
  split at h
  · cases (returns_pure.mp h).1
  · unfold concludeExpr at h
    obtain ⟨⟨⟩, finished, hfinish, h⟩ := returns_bind.mp h
    obtain ⟨_, _, htop, h⟩ := returns_bind.mp h
    obtain ⟨_, htop⟩ := returns_discard.mp htop
    obtain ⟨top, -, -, rfl⟩ := returns_closeTop htop
    obtain ⟨resolved, s₂, hresolve, h⟩ := returns_bind.mp h
    obtain ⟨rfl, rfl⟩ := returns_resolving.mp hresolve
    obtain ⟨_, s₃, hchecked, h⟩ := returns_bind.mp h
    obtain ⟨concluded, s₄, hconclude, h⟩ := returns_bind.mp h
    refine ⟨ds, elaborated, finished, helaborate, hfinish, ?_, ?_⟩
    · split at h
      · cases (returns_pure.mp h).1
      · rename_i d rest hds
        obtain ⟨sd, _, -, h⟩ := returns_bind.mp h
        obtain rfl := Except.ok.inj (returns_pure.mp h).1
        have hds : ((resolver finished).decls ds finished.supply).1 = d :: rest := hds
        rw [hds]
        rfl
      · rename_i hds
        obtain ⟨sd, _, -, h⟩ := returns_bind.mp h
        obtain rfl := Except.ok.inj (returns_pure.mp h).1
        have hds : ((resolver finished).decls ds finished.supply).1 = [] := hds
        rw [hds]
        rfl
    · cases concluded with
      | error f => cases (returns_pure.mp h).1
      | ok ws =>
        have hframe := (framed_checkResolved _).step hchecked
        exact hframe.errors_eq_nil (returns_conclude_ok hconclude)

/-! ## Between the operations of a run -/

/-- The operations of a run that can touch selector goals. -/
inductive Operation : {α : Type} → Infer α → Prop
  | unifyFrom (src : GoalSource) (exp : Expected) (actual : Ty) :
    Operation (unifyFrom src exp actual)
  | addGoals (src : GoalSource) (ps : List Ty) : Operation (addGoals src ps)
  | newSelectorGoal (sel : Selector) (record field : Ty) :
    Operation (newSelectorGoal sel record field)
  | solveSelectors : Operation solveSelectors
  | simplifyGoals (gs : List Goal) : Operation (simplifyGoals gs)
  | simplifyStore (ask : Bool) : Operation (simplifyStore ask)
  | proveSignature (src : GoalSource) (params : List Param) (gs : List Goal) :
    Operation (proveSignature src params gs)
  | defaultVars (vs : List TyVar) (gs : List Goal) : Operation (defaultVars vs gs)
  | generalize (ds : List Decl) (gs : List Goal) (group : List (Int × Int)) :
    Operation (generalize ds gs group)
  | checkType (t : TypeExpr) (k : Kind) : Operation (checkType t k)
  | checkSignature (sig : Surface.Signature) : Operation (checkSignature sig)
  | checkVar (n : Name) (args : List TypeArg) (exp : Expected) : Operation (checkVar n args exp)
  | checkPrim (src : GoalSource) (ident : String) (args : List (String × Ty)) (exp : Expected) :
    Operation (checkPrim src ident args exp)
  | checkPattern (p : Pattern) (exp : Expected) : Operation (checkPattern p exp)
  | checkExpr (e : Expr) (exp : Expected) (slots : List (Ty × Nat)) :
    Operation (checkExpr e exp slots)
  | checkEach (es : List Expr) (exps : List Expected) : Operation (Infer.checkEach es exps)
  | checkRecordFields (fs : List (String × Expr)) (fields : Table String Ty) :
    Operation (checkRecordFields fs fields)
  | checkUpdates (fs : List (List Selector × UpdateHow × Expr)) (exp : Expected) (out : Term) :
    Operation (checkUpdates fs exp out)
  | checkArms (seen : List Int) (arms : List (List Surface.Match)) : Operation (checkArms seen arms)
  | checkMatches (ms : List Surface.Match) (arm : Arm) : Operation (checkMatches ms arm)
  | checkBody (b : Bind) (exp : Expected) : Operation (checkBody b exp)
  | checkGeneral (plan : Plan) (bs : List Bind) : Operation (checkGeneral plan bs)
  | checkOthers (plan : Plan) (bs : List Bind) : Operation (checkOthers plan bs)
  | checkDecls (top : Bool) (ds : List Surface.Decl) : Operation (checkDecls top ds)
  | checkDecl (top : Bool) (d : Surface.Decl) : Operation (checkDecl top d)
  | elaborate (e : Expr) : Operation (elaborate e)
  | discharge : Operation discharge

/-- Every operation keeps the ledger. -/
theorem Operation.counted {α : Type} {act : Infer α} {a : α} (hop : Operation act)
    (h : Returns act c s a s') : Counted s s' := by
  cases hop with
  | unifyFrom => exact (respects_unifyFrom ..).counted h
  | addGoals => exact (respects_addGoals ..).counted h
  | newSelectorGoal => exact (respects_newSelectorGoal ..).counted h
  | solveSelectors => exact respects_solveSelectors.counted h
  | simplifyGoals => exact (respects_simplifyGoals _).counted h
  | simplifyStore => exact (respects_simplifyStore _).counted h
  | proveSignature => exact (respects_proveSignature ..).counted h
  | defaultVars => exact (respects_defaultVars ..).counted h
  | generalize => exact (respects_generalize ..).counted h
  | checkType => exact (respects_checkType ..).counted h
  | checkSignature => exact (respects_checkSignature _).counted h
  | checkVar => exact Awaits.counted [] (awaits_checkVar ..) h
  | checkPrim => exact Awaits.counted [] (awaits_checkPrim ..) h
  | checkPattern => exact Awaits.counted [] (awaits_checkPattern ..) h
  | checkExpr => exact Awaits.counted [] (awaits_checkExpr ..) h
  | checkEach => exact Awaits.counted [] (awaits_checkEach ..) h
  | checkRecordFields => exact Awaits.counted [] (awaits_checkRecordFields ..) h
  | checkUpdates => exact Awaits.counted _ (awaits_checkUpdates _ _ _ (List.Subset.refl _)) h
  | checkArms => exact Awaits.counted [] (awaits_checkArms ..) h
  | checkMatches => exact Awaits.counted _ (awaits_checkMatches _ (List.Subset.refl _)) h
  | checkBody => exact Awaits.counted [] (awaits_checkBody ..) h
  | checkGeneral => exact Awaits.counted [] (awaits_checkGeneral ..) h
  | checkOthers => exact Awaits.counted [] (awaits_checkOthers ..) h
  | checkDecls => exact Awaits.counted [] (awaits_checkDecls _) h
  | checkDecl => exact Awaits.counted [] (awaits_checkDecl _) h
  | elaborate => exact Awaits.counted [] (awaits_elaborate _) h
  | discharge => exact respects_discharge.counted h

/-- The states between the operations of a run, in whatever order they come. Everything else that a
run does is a change beside the selector goals. -/
inductive Reached (input : Input) : State → Prop
  | initial : Reached input (initial input)
  | operation {α : Type} {act : Infer α} {c : Context} {s s' : State} {a : α}
    (hs : Reached input s) (hop : Operation act) (h : Returns act c s a s') : Reached input s'
  | other {s s' : State} (hs : Reached input s) (hbooks : s'.books = s.books) : Reached input s'

theorem Reached.ledger (h : Reached input s) : ∃ n, Ledger input.seeds.goal n [] s := by
  induction h with
  | initial => exact ⟨0, .initial rfl rfl rfl rfl⟩
  | operation _ hop h ih =>
    obtain ⟨n, hn⟩ := ih
    obtain ⟨n', -, hn'⟩ := hop.counted h _ _ _ hn
    exact ⟨n', hn'⟩
  | other _ hbooks ih =>
    obtain ⟨n, hn⟩ := ih
    obtain ⟨n', -, hn'⟩ := Counted.of_books hbooks _ _ _ hn
    exact ⟨n', hn'⟩

/-- Of the selector goals drawn since a run started from `seed`, each waits in the store or is
solved; and not both, as long as there are words that are not the id of a goal. -/
structure Balanced (seed : Int) (s : State) : Prop where
  drawn : ∃ n, s.nextGoal = goalId seed n ∧ ∀ id, s.Allocated id ↔ ∃ i < n, goalId seed i = id
  split : ∀ id, s.Allocated id ↔ id ∈ s.pendingIds ∨ s.Solved id
  disjoint : s.selectorGoals.length < 2 ^ 64 →
    s.pendingIds.Nodup ∧ ∀ id ∈ s.pendingIds, ¬s.Solved id

theorem Reached.balanced (h : Reached input s) : Balanced input.seeds.goal s := by
  obtain ⟨n, hn⟩ := h.ledger
  exact ⟨⟨n, hn.next, hn.allocated⟩, hn.split, hn.disjoint⟩

/-- Every selector goal is solved, so parts that wait for some of them can be resolved without one
that is not. -/
structure Settled (ps : List Core.Part) (s : State) : Prop where
  pending : s.pending = []
  solved : ∀ id, s.Allocated id → s.Solved id
  looksUp : ∀ id, (resolver s).LooksUp ps id → s.Solved id
  leads : s.selectorGoals.length < 2 ^ 64 →
    ∀ id ∈ awaited ps, (resolver s).Leads id ((resolver s).routeOf id)

theorem Reached.settled {ps : List Core.Part} (h : Reached input s) (hpending : s.pending = [])
    (hps : ∀ id ∈ awaited ps, s.Allocated id) : Settled ps s := by
  obtain ⟨n, hn⟩ := h.ledger
  have hsolved : ∀ id, s.Allocated id → s.Solved id := fun id hid =>
    ((hn.split id).mp hid).resolve_left (by simp [State.pendingIds, hpending])
  exact ⟨hpending, hsolved, fun id => hn.solved_of_looksUp hsolved rfl hps,
    fun hlen id hid => hn.leads hlen hsolved rfl (hps id hid)⟩

/-- Where a run discharges its goals without an error, nothing waits any more. -/
theorem Reached.finish {u : Unit} (h : Reached input s) (hfinish : Returns finish c s u s')
    (herrors : s'.errors = []) : Reached input s' ∧ s'.pending = [] := by
  obtain ⟨s₁, hdischarge, hnil, rfl⟩ := returns_finish hfinish herrors
  refine ⟨(h.operation .discharge hdischarge).other ?_, rfl⟩
  simp [State.books, hnil]

/-- Nothing waits for a selector goal at the start. -/
theorem backed_begun (m : Surface.Module) : Backed [] (begun input m) where
  ledger := ⟨_, _, _, .initial rfl rfl rfl rfl⟩
  scopes := by simp [begun, Core.Module.empty, partsGroups]
  ids := by simp

theorem backed_initial : Backed [] (initial input) where
  ledger := ⟨_, _, _, .initial rfl rfl rfl rfl⟩
  scopes := by simp [initial]
  ids := by simp

/-! ## Whole runs -/

theorem awaited_content {m : Surface.Module} {out : ModuleOutput} {declared finished : State}
    {top : Scope} (h : ModuleRun input m out declared finished top) :
    awaited (partsGroups out.content.groups) = [] := by
  rw [h.content]
  exact Resolver.awaited_groups ..

theorem awaited_term {e : Expr} {out : ExprOutput} {ds : List Decl} {elaborated finished : State}
    (h : ExprRun input e out ds elaborated finished) : awaited out.term.parts = [] := by
  have hds : awaited (partsDecls ((resolver finished).decls ds finished.supply).1) = [] :=
    Resolver.awaited_decls ..
  rw [h.term]
  generalize ((resolver finished).decls ds finished.supply).1 = resolved at hds
  rcases resolved with _ | ⟨⟨_, _, _ | e, _, _⟩, rest⟩
  · rfl
  · rfl
  · simp only [partsDecls, Decl.parts, Core.awaited_append, List.append_eq_nil_iff] at hds
    exact hds.1.2

end Infer

open Infer

/-- Selector goals are conserved: whatever operations a run has done, the selector goals that it has
allocated are those that wait in the store and those that are solved. So a run that succeeds has
solved all of them, resolution finds a solution wherever it looks one up, and no selection or update
of the output is pending. -/
theorem selectorGoals_conserved (input : Input) :
    (∀ s, Reached input s → Balanced input.seeds.goal s) ∧
    (∀ m out, (runModule input m).1 = .ok out → ∃ declared finished top,
      ModuleRun input m out declared finished top ∧ Reached input declared ∧
      Reached input finished ∧ Settled (Core.partsGroups top.content.groups) finished ∧
      Core.awaited (Core.partsGroups out.content.groups) = []) ∧
    ∀ e out, (runExpr input e).1 = .ok out → ∃ ds elaborated finished,
      ExprRun input e out ds elaborated finished ∧ Reached input elaborated ∧
      Reached input finished ∧ Settled (Core.partsDecls ds) finished ∧
      Core.awaited out.term.parts = [] := by
  refine ⟨fun s hs => hs.balanced, fun m out h => ?_, fun e out h => ?_⟩
  · obtain ⟨declared, finished, top, hrun, hfinish⟩ := exists_finishedRun h
    obtain ⟨k, hdecls⟩ := hrun.decls
    have hbegun : Reached input (begun input m) := Reached.initial.other rfl
    have hdeclared := hbegun.operation (.checkDecls ..) hdecls
    obtain ⟨hfinished, hnil⟩ := hdeclared.finish hfinish hrun.errors
    have hbacked : Backed [] finished :=
      (((awaits_checkDecls _).step hdecls).2 (backed_begun m)).conserved
        (conserved_finish hfinish hrun.errors)
    have htop := hbacked.scopes top (by simp [hrun.scopes])
    exact ⟨declared, finished, top, hrun, hdeclared, hfinished, hfinished.settled hnil htop,
      awaited_content hrun⟩
  · obtain ⟨ds, elaborated, finished, hrun⟩ := exists_exprRun h
    have helaborated := Reached.initial.operation (.elaborate e) hrun.elaborate
    obtain ⟨hfinished, hnil⟩ := helaborated.finish hrun.finish hrun.errors
    have hbacked : Backed (Core.awaited (Core.partsDecls ds)) finished :=
      (((awaits_elaborate e).step hrun.elaborate).2 backed_initial).conserved
        (conserved_finish hrun.finish hrun.errors)
    exact ⟨ds, elaborated, finished, hrun, helaborated, hfinished,
      hfinished.settled hnil hbacked.ids, awaited_term hrun⟩

/-! ## A selection from every element -/

/-- `[((), ())].0`. -/
def firstOfUnits : Surface.Expr :=
  .select (.list [.tuple [.tuple [], .tuple []]]) (.component 0)

/-- `x = [((), ())].0`. -/
def firstOfUnitsModule : Surface.Module where
  name := { id := 5, ident := "Main" }
  decls := [.group false
    [.mk { id := 6, ident := "x" } [] (some firstOfUnits) none false false .empty]]

/-- Whether there are two goals, the selection waits for goal 0, and that has been solved through
goal 1. -/
def firstIsLifted : Bool :=
  match (elaborate firstOfUnits).exec (contextOf { seeds := ⟨1, 0⟩ })
      (initial { seeds := ⟨1, 0⟩ }) with
  | (.ok ds, s) => s.selectorGoals.length == 2 && Core.awaited (Core.partsDecls ds) == [0] &&
      (s.solutions.find? 0).bind Solution.sub? == some 1
  | _ => false

theorem exists_ok_of_isOk {ε α : Type} {r : Except ε α} (h : r.isOk = true) : ∃ a, r = .ok a := by
  cases r with
  | ok a => exact ⟨a, rfl⟩
  | error e => cases h

/-- The selection of the elements is lifted over the list: the run solves both goals. -/
theorem selectorGoals_conserved_firstOfUnits :
    (∃ out, (runModule { seeds := ⟨1, 0⟩ } firstOfUnitsModule).1 = .ok out ∧
      Core.awaited (Core.partsGroups out.content.groups) = []) ∧
    ∃ out ds elaborated finished,
      ExprRun { seeds := ⟨1, 0⟩ } firstOfUnits out ds elaborated finished ∧
      Core.awaited (Core.partsDecls ds) = [0] ∧
      (elaborated.solutions.find? 0).bind Solution.sub? = some 1 ∧
      elaborated.selectorGoals.length < 2 ^ 64 ∧ Balanced 0 elaborated ∧ finished.Solved 0 ∧
      Core.awaited out.term.parts = [] := by
  have hmodule : (runModule { seeds := ⟨1, 0⟩ } firstOfUnitsModule).1.isOk = true := by cbv
  have hexpr : (runExpr { seeds := ⟨1, 0⟩ } firstOfUnits).1.isOk = true := by cbv
  have hlifted : firstIsLifted = true := by cbv
  obtain ⟨hbalanced, hmodules, hexprs⟩ := selectorGoals_conserved { seeds := ⟨1, 0⟩ }
  obtain ⟨m, hm⟩ := exists_ok_of_isOk hmodule
  obtain ⟨out, hout⟩ := exists_ok_of_isOk hexpr
  obtain ⟨_, _, _, -, -, -, -, hcontent⟩ := hmodules _ _ hm
  obtain ⟨ds, elaborated, finished, hrun, hreached, -, hsettled, hterm⟩ := hexprs _ _ hout
  have hexec : (elaborate firstOfUnits).exec (contextOf { seeds := ⟨1, 0⟩ })
      (initial { seeds := ⟨1, 0⟩ }) = (.ok ds, elaborated) := hrun.elaborate
  simp only [firstIsLifted, hexec, Bool.and_eq_true, beq_iff_eq] at hlifted
  obtain ⟨⟨hlen, hawaited⟩, hsub⟩ := hlifted
  exact ⟨⟨m, hm, hcontent⟩, out, ds, elaborated, finished, hrun, hawaited, hsub, by omega,
    hbalanced _ hreached, hsettled.looksUp 0 (.awaited (by simp [hawaited])), hterm⟩

end SizedTypes
