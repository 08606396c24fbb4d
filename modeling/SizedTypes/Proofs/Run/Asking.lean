import SizedTypes.Proofs.Infer.Asking
import SizedTypes.Proofs.Run.Cancelled

/-!
# When a run asks the solver

A query holds what is left of a store of goals once all that can add to it has been checked, as long
as bodies are quiet. Of the queries that come while a body is checked that is not quiet, nothing more
is said: such a query can hold a goal of an expression of which the rest is still to be checked.
-/

set_option autoImplicit false

namespace SizedTypes

open Surface (Bind Quiet)
open SizedTypes.Core (Decl)

namespace Infer

variable {P : List Query → Query → Prop} {c : Context} {s : State}

/-! ## Declarations -/

/-- A run of declarations comes to a group outside of all bodies; `c'` and `s'` are the context and
the state there. -/
inductive AtGroup : List Surface.Decl → Context → State → (recursive : Bool) → List Bind →
    (c' : Context) → (s' : State) → Prop
  | here {recursive : Bool} {binds : List Bind} {ds : List Surface.Decl} {c : Context} {s : State} :
      s.cancelled = false → AtGroup (.group recursive binds :: ds) c s recursive binds c s
  | next {d : Surface.Decl} {ds : List Surface.Decl} {recursive : Bool} {binds : List Bind}
      {c c' : Context} {s s₁ s' : State} {k : Nat} : s.cancelled = false →
      Returns (checkDecl true d) c s k s₁ → AtGroup ds c s₁ recursive binds c' s' →
      AtGroup (d :: ds) c s recursive binds c' s'
  | submodule {n : Name} {inner ds : List Surface.Decl} {range : Range} {recursive : Bool}
      {binds : List Bind} {c c' : Context} {s s' : State} : s.cancelled = false →
      AtGroup inner (c.located range) (s.inSubmodule n) recursive binds c' s' →
      AtGroup (.submodule n inner range :: ds) c s recursive binds c' s'

/-- What declarations ask, and when. -/
inductive DeclsAsk (ds : List Surface.Decl) (c : Context) (s : State) (before : List Query)
    (q : Query) : Prop
  | group {recursive : Bool} {binds : List Bind} {plan : Plan} {c' : Context} {s' s₁ : State} :
      AtGroup ds c s recursive binds c' s' →
      Returns (planGroup true recursive binds) c' s' plan s₁ →
      GroupAsks plan recursive binds c' s₁ before q → DeclsAsk ds c s before q

mutual
theorem asks_checkDecls : ∀ (ds : List Surface.Decl) {c : Context} {s : State},
    Asks (DeclsAsk ds c s) (checkDecls true ds) c s
  | [], c, s => by
    rw [checkDecls]
    exact (Steady.pure _).silent.asks
  | d :: ds, c, s => by
    rw [checkDecls]
    refine Asks.get_bind ?_
    split
    · exact (Steady.pure _).silent.asks
    · rename_i hs
      have hlive : s.cancelled = false := Bool.not_eq_true _ ▸ hs
      refine (asks_checkDecl d ds hlive).bind fun k s₁ hd => Asks.bind_steady ?_ fun _ => .pure _
      refine (asks_checkDecls ds).mono ?_
      rintro before q ⟨hat, hplan, hq⟩
      exact ⟨.next hlive hd hat, hplan, hq⟩

theorem asks_checkDecl : ∀ (d : Surface.Decl) (ds : List Surface.Decl) {c : Context} {s : State},
    s.cancelled = false → Asks (DeclsAsk (d :: ds) c s) (checkDecl true d) c s
  | .group recursive binds, ds, c, s, hs => by
    rw [checkDecl]
    refine (steady_planGroup ..).bind_asks fun plan s₁ hplan => Asks.bind_steady ?_ fun _ =>
      (Steady.forM fun _ => steady_declare ..).bind fun _ => (steady_modifyScope _).bind fun _ =>
      .pure _
    exact asks_checkGroup.mono fun before q hq => ⟨.here hs, hplan, hq⟩
  | .submodule n inner range, ds, c, s, hs => by
    rw [Asks, exec_checkDecl_submodule]
    have hinner : Asks (DeclsAsk inner (c.located range) (s.inSubmodule n)) (checkDecls true inner)
        (c.located range) (s.inSubmodule n) := asks_checkDecls inner
    refine (hinner.bind_steady (steady_leaveSubmodule s)).mono ?_
    rintro before q ⟨hat, hplan, hq⟩
    exact ⟨.submodule hs hat, hplan, hq⟩
  | .synonym .., _, _, _, _ | .newtype .., _, _, _, _ | .primType .., _, _, _, _
  | .paramType .., _, _, _, _ | .paramProps .., _, _, _, _ | .paramFun .., _, _, _, _ =>
    (steady_checkDecl (by simp) (by simp) true).silent.asks
end

/-! ## The end of a run -/

/-- What is left of the goals in the store after the variables of open goals have been defaulted. -/
def leftAfterDefaults : Infer (List Goal) := do
  simplifyStore true
  let vs ← openVars
  let stored := (← get).goals
  defaultVars vs stored
  let gs ← simplifyGoals stored
  modify fun s => { s with goals := gs }
  leftInStore

/-- The end of a run asks at most twice. -/
def FinishAsks (c : Context) (s : State) (before : List Query) (q : Query) : Prop :=
  AsksFor leftInStore c s before q ∨ AsksFor leftAfterDefaults c s before q

theorem asks_finish : Asks (FinishAsks c s) finish c s := by
  rw [finish_eq]
  refine Asks.bind_steady ?_ fun _ => steady_reportLeft
  refine (asks_simplifyStore fun before q hq => .inl hq).bind fun u s₁ hs₁ => ?_
  refine steady_openVars.bind_asks fun vs s₂ hs₂ => ?_
  split
  · refine Asks.get_bind ((steady_defaultVars ..).bind_asks fun u' s₃ hs₃ => ?_)
    refine (steady_simplifyGoals _).bind_asks fun gs s₄ hs₄ => ?_
    refine (Steady.modify fun _ _ _ => rfl).bind_asks fun u'' s₅ hs₅ => ?_
    refine asks_simplifyStore fun before q hq => .inr ?_
    exact AsksFor.bind hs₁ (AsksFor.bind hs₂ (AsksFor.bind (a := s₂) rfl
      (AsksFor.bind hs₃ (AsksFor.bind hs₄ (AsksFor.bind hs₅ hq)))))
  · exact (Steady.pure _).silent.asks

/-! ## Whole runs -/

/-- What the run of a module asks, and when. -/
inductive ModuleAsks (input : Input) (m : Surface.Module) (before : List Query) (q : Query) : Prop
  | group : DeclsAsk m.decls (contextOf input) (begun input m) before q →
      ModuleAsks input m before q
  /-- All declarations have been checked. -/
  | finish {k : Nat} {s : State} :
      Returns (checkDecls true m.decls) (contextOf input) (begun input m) k s →
      s.cancelled = false → FinishAsks (contextOf input) s before q → ModuleAsks input m before q

/-- The run of an expression up to the end of its check. -/
def checkedExpr (e : Surface.Expr) : Infer Core.Term := do
  openScope .top (← freshName "repl")
  let b : Bind := .mk (← freshName "it") [] (some e) none false false e.range
  let t ← freshType .type (.definition b.name)
  modify fun s => { s with goals := [] }
  withRange b.range (checkBody b ⟨t, .definition b.name⟩)

/-- What the run of an expression asks, and when. -/
inductive ExprAsks (input : Input) (e : Surface.Expr) (before : List Query) (q : Query) : Prop
  /-- The expression is being checked, and it is not quiet. -/
  | inside : ¬Quiet e.nested e.subterms →
      before ++ [q] <+: ((checkedExpr e).exec (contextOf input) (initial input)).2.queries →
      ExprAsks input e before q
  /-- The expression has been checked. -/
  | finish {ds : List Decl} {s : State} :
      Returns (elaborate e) (contextOf input) (initial input) ds s → s.cancelled = false →
      FinishAsks (contextOf input) s before q → ExprAsks input e before q

/-- A run asks before it is asked whether it is cancelled, or at its end. -/
theorem asks_thenConclude {α β : Type} {pre : Infer α} {b : β} {post : α → Infer β}
    (hpre : Asks P pre c s) (hpost : ∀ a s₁, Returns pre c s a s₁ → s₁.cancelled = false →
      Asks P (post a) c s₁) : Asks P (do
        let a ← pre
        if (← get).cancelled then return b
        post a) c s := by
  refine hpre.bind fun a s₁ ha => Asks.get_bind ?_
  cases hs₁ : s₁.cancelled with
  | true => exact (Steady.pure b).silent.asks
  | false => exact hpost a s₁ ha hs₁

theorem asks_concludeModule (m : Surface.Module) :
    Asks (FinishAsks c s) (concludeModule m) c s :=
  asks_finish.bind_steady fun _ => steady_moduleOutput m

theorem asks_inferModule (input : Input) (m : Surface.Module) :
    Asks (ModuleAsks input m) (inferModule m) (contextOf input) (initial input) := by
  rw [Asks, exec_inferModule]
  have hdecls : Asks (ModuleAsks input m) (checkDecls true m.decls) (contextOf input)
      (begun input m) := (asks_checkDecls m.decls).mono fun before q hq => .group hq
  exact asks_thenConclude hdecls fun k s hs hlive =>
    (asks_concludeModule m).mono fun before q hq => .finish hs hlive hq

theorem asks_elaborate (input : Input) (e : Surface.Expr) :
    Asks (ExprAsks input e) (elaborate e) (contextOf input) (initial input) := by
  refine (steady_freshName _).bind_asks fun top s₁ hs₁ => ?_
  refine (steady_openScope ..).bind_asks fun u s₂ hs₂ => ?_
  refine (steady_freshName _).bind_asks fun n s₃ hs₃ => ?_
  refine (steady_freshType ..).bind_asks fun t s₄ hs₄ => ?_
  have hchecked : (checkedExpr e).exec (contextOf input) (initial input) =
      (checkBody (.mk n [] (some e) none false false e.range) ⟨t, .definition n⟩).exec
        ((contextOf input).located e.range) { s₄ with goals := [] } := by
    rw [checkedExpr, exec_bind_of_returns hs₁, exec_bind_of_returns hs₂, exec_bind_of_returns hs₃,
      exec_bind_of_returns hs₄]
    rfl
  have hbody : Asks (ExprAsks input e) (checkMono (.mk n [] (some e) none false false e.range) t
      fun exp => checkBody (.mk n [] (some e) none false false e.range) exp) (contextOf input)
      { s₄ with goals := [] } := by
    refine asks_checkMono ?_
    by_cases he : Quiet e.nested e.subterms
    · exact (silent_checkBody (.mk n [] (some e) none false false e.range) _ he).asks
    · have hfollows := (mirrored_checkBody (r := ⟨input.solver, false, []⟩)
        (.mk n [] (some e) none false false e.range) ⟨t, .definition n⟩).queries
      refine (Grows.of_isPrefix (hfollows _ _)).mono fun before q hq => .inside he ?_
      rw [hchecked]
      exact hq.2
  exact (asks_collectGoals (hbody.bind_silent fun _ =>
    silent_simplifyStore.bind_steady fun _ => .pure _)).bind_steady fun _ =>
    .get_bind (fun _ _ _ => rfl) fun _ => (steady_defaultVars ..).bind fun _ =>
    (steady_simplifyGoals _).bind fun _ => steady_generalize ..

theorem asks_inferExpr (input : Input) (e : Surface.Expr) :
    Asks (ExprAsks input e) (inferExpr e) (contextOf input) (initial input) := by
  rw [inferExpr_eq]
  refine asks_thenConclude (asks_elaborate input e) fun ds s hs hlive => ?_
  have hconclude : Asks (FinishAsks (contextOf input) s) (concludeExpr ds) (contextOf input) s :=
    asks_finish.bind_steady fun _ => steady_exprOutput ds
  exact hconclude.mono fun before q hq => .finish hs hlive hq

end Infer

/-- In a run each query comes after all that can add to its goals has been checked, unless it comes
while the body of a binding, or the expression of the run, is checked that is not quiet. -/
theorem asks_of_run (input : Input) :
    (∀ (m : Surface.Module) (before : List Query) (q : Query) (after : List Query),
      (runModule input m).2.queries = before ++ q :: after →
      Infer.ModuleAsks input m before q) ∧
    ∀ (e : Surface.Expr) (before : List Query) (q : Query) (after : List Query),
      (runExpr input e).2.queries = before ++ q :: after → Infer.ExprAsks input e before q :=
  ⟨fun m _ _ _ h => (Infer.asks_inferModule input m).holds h,
    fun e _ _ _ h => (Infer.asks_inferExpr input e).holds h⟩

/-- `(g, x where x = ())` -/
def unfinished : Surface.Expr := .tuple [.var { id := 3, ident := "g" }, unitBlock]

/-- `h = g`, where `h` is not generalized. -/
def oneUse : Surface.Module where
  name := { id := 5, ident := "Main" }
  decls := [.group false [.mk { id := 4, ident := "h" } [] (some (.var { id := 3, ident := "g" }))
    none true false .empty]]

/-- `g : {n} (fin n) => [n]` -/
def asking : Input := { seeds := ⟨10, 0⟩, external := cancelling.external }

/-- The module asks for the goal of `g` at the end of its group and at its own end, the expression
asks for it once. -/
theorem asks_of_run_fin : (∃ q q', (runModule asking oneUse).2.queries = [q, q'] ∧
      Infer.ModuleAsks asking oneUse [] q ∧ Infer.ModuleAsks asking oneUse [q] q') ∧
    ∃ q, (runExpr asking unfinished).2.queries = [q] ∧ Infer.ExprAsks asking unfinished [] q := by
  have htwo : (runModule asking oneUse).2.queries.length = 2 := by cbv
  have hone : (runExpr asking unfinished).2.queries.length = 1 := by cbv
  obtain ⟨q, q', hqueries⟩ := List.length_eq_two.mp htwo
  obtain ⟨p, hquery⟩ := List.length_eq_one_iff.mp hone
  obtain ⟨hmodule, hexpr⟩ := asks_of_run asking
  exact ⟨⟨q, q', hqueries, hmodule oneUse [] q [q'] hqueries, hmodule oneUse [q] q' [] hqueries⟩,
    p, hquery, hexpr unfinished [] p [] hquery⟩

/-! ## A goal of an expression that is still being checked -/

/-- The block by itself asks nothing. In the tuple its end asks for the goal of `g`, while the tuple
is still being checked. -/
theorem unfinished_asked :
    (runExpr asking unitBlock).2.queries = [] ∧
    ((Infer.checkedExpr unfinished).exec (Infer.contextOf asking)
      (Infer.initial asking)).2.queries.map Query.goals =
      [[.fin (.free ⟨13, .num, [], some (.typeArgAt { id := 3, ident := "g" } 0)⟩)]] := by
  constructor
  · cbv
  · cbv

end SizedTypes
