import SizedTypes.Proofs.Infer.Mirror.Recursion
import SizedTypes.Proofs.Run.Module

/-!
# Cancelled runs

The declarations of a module that a cancelled run leaves out cause no internal error: the run ends
without a look at what they declare. This is different for the declarations of a block, whose body
is checked all the same. So an internal error of a run that may be cancelled is an internal error
of a run that gets the same answers and is never cancelled, of the program without some of its
local declarations.
-/

set_option autoImplicit false

namespace SizedTypes

open Surface (Blockless CutDecl CutDecls subtermsDecls)
open SizedTypes.Core (Decl)

/-- How a run goes with its solver; `o` is what the run leaves behind. -/
def Input.course (input : Input) (o : Observations) : Infer.Course :=
  ⟨input.solver, input.cancelled, o.queries⟩

/-- The input of a run that gets the same answers and is never cancelled. -/
def Input.uncancelled (input : Input) (o : Observations) : Input :=
  { input with solver := (input.course o).echo, cancelled := false }

namespace Infer

variable {r : Course} {c : Context} {s s₁ s' : State} {α β δ : Type}

/-- The computation is a part of the run, and if it returns, the run is not cancelled then. -/
structure EndsLive (r : Course) (act : Infer α) (c : Context) (s : State) : Prop where
  queries : (act.exec c s).2.queries <+: r.queries
  live : ∀ {a s'}, Returns act c s a s' → s'.cancelled = false

/-! ## The declarations of a module -/

/-- What holds wherever declarations of a module are checked. -/
structure Ready (r : Course) (c : Context) (s : State) : Prop where
  solver : c.solver = r.solver
  record : r.At s
  sorted : s.vars.Sorted
  scopes : s.scopes ≠ []

theorem Ready.step {top : Bool} {d : Surface.Decl} {k : Nat} (h : Ready r c s)
    (hd : Returns (checkDecl top d) c s k s₁) : Ready r c s₁ := by
  obtain ⟨vs, -, hfilled⟩ := filled_checkDecl d hd h.sorted
  refine ⟨h.solver, ?_, hfilled.sorted h.sorted, fun hnil => h.scopes ?_⟩
  · exact (mirrored_checkDecl d top).record_of_returns h.solver h.record hd
  · have hkinds := hfilled.scopeKinds
    rw [hnil] at hkinds
    exact List.map_eq_nil_iff.mp hkinds.symm

theorem returns_checkDecls_of_cancelled (hs : s.cancelled = true) (top : Bool)
    (ds : List Surface.Decl) : Returns (checkDecls top ds) c s 0 s := by
  cases ds with
  | nil =>
    rw [checkDecls]
    rfl
  | cons d ds =>
    rw [checkDecls, Returns, exec_unlessCancelled, hs]
    rfl

theorem exec_checkDecls_cons (hs : s.cancelled = false) (top : Bool) (d : Surface.Decl)
    (ds : List Surface.Decl) : (checkDecls top (d :: ds)).exec c s = exec (do
      let declared ← checkDecl top d
      return declared + (← checkDecls top ds)) c s := by
  rw [checkDecls, exec_unlessCancelled, hs]
  rfl

theorem returns_checkDecls_cons {top : Bool} {d : Surface.Decl} {ds : List Surface.Decl}
    {k k' : Nat} (hs : s.cancelled = false) (hd : Returns (checkDecl top d) c s k s₁)
    (hds : Returns (checkDecls top ds) c s₁ k' s') :
    Returns (checkDecls top (d :: ds)) c s (k + k') s' :=
  (exec_checkDecls_cons hs ..).trans
    (returns_bind.mpr ⟨k, s₁, hd, returns_bind.mpr ⟨k', s', hds, rfl⟩⟩)

theorem follows_checkDecls (top : Bool) (ds : List Surface.Decl) (k : Nat) :
    Follows r (do return k + (← checkDecls top ds)) :=
  (mirrored_checkDecls ds top).toFollows.bind fun _ => (Steady.pure _).follows

namespace EndsLive

variable {top : Bool} {d : Surface.Decl} {ds : List Surface.Decl}

theorem not_cancelled (h : EndsLive r (checkDecls top (d :: ds)) c s) : s.cancelled = false := by
  cases hs : s.cancelled with
  | false => rfl
  | true => exact hs.symm.trans (h.live (returns_checkDecls_of_cancelled hs top (d :: ds)))

theorem first (h : EndsLive r (checkDecls top (d :: ds)) c s) :
    EndsLive r (checkDecl top d) c s where
  queries := by
    have hq := h.queries
    rw [exec_checkDecls_cons h.not_cancelled] at hq
    exact (Follows.queries_bind (follows_checkDecls (r := r) top ds) _ c s).trans hq
  live {k s₁} hd := by
    cases hs₁ : s₁.cancelled with
    | false => rfl
    | true =>
      have hds := returns_checkDecls_of_cancelled hs₁ (c := c) top ds
      exact hs₁.symm.trans (h.live (returns_checkDecls_cons h.not_cancelled hd hds))

theorem rest {k : Nat} (h : EndsLive r (checkDecls top (d :: ds)) c s)
    (hd : Returns (checkDecl top d) c s k s₁) : EndsLive r (checkDecls top ds) c s₁ where
  queries := by
    have hq := h.queries
    rw [exec_checkDecls_cons h.not_cancelled, exec_bind_of_returns hd] at hq
    exact (Follows.queries_bind (fun _ => (Steady.pure _).follows (r := r)) _ c s₁).trans hq
  live hds := h.live (returns_checkDecls_cons h.not_cancelled hd hds)

end EndsLive

/-! ## Submodules -/

/-- The state in which the declarations of a submodule are checked. -/
def State.inSubmodule (s : State) (n : Name) : State :=
  { s with scopes := ⟨.submodule, .empty n⟩ :: s.scopes }

theorem Ready.inSubmodule (h : Ready r c s) (n : Name) (range : Range) :
    Ready r (c.located range) (s.inSubmodule n) :=
  ⟨h.solver, h.record, h.sorted, List.cons_ne_nil _ _⟩

/-- What is done after the declarations of a submodule that was opened in `s`. -/
def leaveSubmodule (s : State) (declared : Nat) : Infer Nat := do
  modify fun s' => { s' with params := s.params, assumptions := s.assumptions }
  closeSubmodule
  return declared

theorem steady_leaveSubmodule (s : State) (k : Nat) : Steady (leaveSubmodule s k) :=
  (Steady.modify fun _ _ _ => rfl).bind fun _ => steady_closeSubmodule.bind fun _ => .pure k

theorem exec_checkDecl_submodule (top : Bool) (n : Name) (ds : List Surface.Decl) (range : Range)
    (c : Context) (s : State) : (checkDecl top (.submodule n ds range)).exec c s =
      (checkDecls true ds >>= leaveSubmodule s).exec (c.located range) (s.inSubmodule n) := by
  rw [checkDecl]
  rfl

theorem exists_returns_closeSubmodule {child parent : Scope} {rest : List Scope}
    (hscopes : s.scopes = child :: parent :: rest) (hkind : child.kind = .submodule) :
    ∃ s', Returns closeSubmodule c s ⟨⟩ s' ∧ s'.cancelled = s.cancelled := by
  have hpop : Returns (popScope .submodule) c s child.content
      { s with scopes := parent :: rest } := by
    unfold popScope
    rw [returns_get_bind, hscopes]
    dsimp only
    rw [if_pos hkind]
    rfl
  refine ⟨{ s with scopes :=
    { parent with content := Scope.absorb parent.content child.content } :: rest }, ?_, rfl⟩
  exact returns_bind.mpr ⟨_, _, hpop, rfl⟩

/-- A submodule is closed all the same if some of its declarations are left out. -/
theorem exists_returns_submodule (top : Bool) {n : Name} {ds : List Surface.Decl} {range : Range}
    {k : Nat} (hs : Ready r c s)
    (h : Returns (checkDecls true ds) (c.located range) (s.inSubmodule n) k s₁) :
    ∃ s', Returns (checkDecl top (.submodule n ds range)) c s k s' ∧
      s'.cancelled = s₁.cancelled := by
  obtain ⟨vs, -, hfilled⟩ := filled_checkDecls ds h hs.sorted
  obtain ⟨parent, rest, hparent⟩ := List.exists_cons_of_ne_nil hs.scopes
  have htail : s₁.scopes.tail = parent :: rest := hfilled.outerScopes.trans hparent
  have hkinds := hfilled.scopeKinds
  cases hs₁ : s₁.scopes with
  | nil => simp [hs₁] at htail
  | cons child rest' =>
    rw [hs₁] at htail hkinds
    obtain rfl : rest' = parent :: rest := htail
    have hkind : child.kind = .submodule := (List.cons.inj hkinds).1
    obtain ⟨s', hclose, hcancelled⟩ := exists_returns_closeSubmodule (c := c.located range)
      (s := { s₁ with params := s.params, assumptions := s.assumptions }) hs₁ hkind
    refine ⟨s', (exec_checkDecl_submodule ..).trans ?_, hcancelled⟩
    refine returns_bind.mpr ⟨k, s₁, h, returns_modify_bind.mpr ?_⟩
    exact returns_bind.mpr ⟨⟨⟩, s', hclose, rfl⟩

theorem EndsLive.inSubmodule {top : Bool} {n : Name} {ds : List Surface.Decl} {range : Range}
    (h : EndsLive r (checkDecl top (.submodule n ds range)) c s) (hs : Ready r c s) :
    EndsLive r (checkDecls true ds) (c.located range) (s.inSubmodule n) where
  queries := by
    have hq := h.queries
    rw [exec_checkDecl_submodule] at hq
    have hleave := fun k => (steady_leaveSubmodule s k).follows (r := r)
    exact (Follows.queries_bind hleave _ _ _).trans hq
  live hds := by
    obtain ⟨s', hret, heq⟩ := exists_returns_submodule top hs hds
    exact heq.symm.trans (h.live hret)

mutual
theorem mirroredAt_checkDecls : ∀ (ds : List Surface.Decl) {top : Bool} {c : Context} {s : State},
    Ready r c s → EndsLive r (checkDecls top ds) c s → MirroredAt r c s (checkDecls top ds)
      (fun ds' : { ds' // CutDecls false ds ds' } => checkDecls top ds'.1)
  | [], top, c, s, _, _ => by
    rw [checkDecls]
    exact (Steady.pure _).mirroredAt_of_eq ⟨[], .nil⟩ (by rw [checkDecls])
  | d :: ds, top, c, s, hs, hlive => by
    have hrest : ∀ k s₁, Returns (checkDecl top d) c s k s₁ →
        MirroredAt r c s₁ (do return k + (← checkDecls top ds))
          (fun ds' : { ds' // CutDecls false ds ds' } => do return k + (← checkDecls top ds'.1)) :=
      fun k s₁ hd => (mirroredAt_checkDecls ds (hs.step hd) (hlive.rest hd)).bind_steady fun _ =>
        .pure _
    have hall := (mirroredAt_checkDecl d hs hlive.first).bind hrest
    rw [checkDecls]
    exact (hall.unlessCancelled hlive.not_cancelled).choose fun d =>
      ⟨⟨d.1.1 :: d.2.1, .cons d.1.2 d.2.2⟩, by rw [checkDecls]⟩

theorem mirroredAt_checkDecl : ∀ (d : Surface.Decl) {top : Bool} {c : Context} {s : State},
    Ready r c s → EndsLive r (checkDecl top d) c s → MirroredAt r c s (checkDecl top d)
      (fun d' : { d' // CutDecl false d d' } => checkDecl top d'.1)
  | .group recursive bs, top, c, s, hs, hlive =>
    ((mirrored_group (mirrored_checkGeneral bs) (mirrored_checkOthers bs) top recursive).exec_live
      c s hs.solver hs.record hlive.queries).choose
      fun d => ⟨⟨.group recursive d.1, .group d.2⟩, rfl⟩
  | .submodule n ds range, top, c, s, hs, hlive => by
    obtain ⟨d, hd⟩ := (mirroredAt_checkDecls ds (hs.inSubmodule n range)
      (hlive.inSubmodule hs)).bind_steady (steady_leaveSubmodule s)
    refine ⟨⟨.submodule n d.1 range, .submodule d.2⟩, ?_⟩
    rw [exec_checkDecl_submodule, exec_checkDecl_submodule]
    exact hd
  | .synonym .., top, c, s, _, _ | .newtype .., top, c, s, _, _ | .primType .., top, c, s, _, _
  | .paramType .., top, c, s, _, _ | .paramProps .., top, c, s, _, _
  | .paramFun .., top, c, s, _, _ =>
    (steady_checkDecl (by simp) (by simp) top).mirroredAt_of_eq ⟨_, .same⟩ rfl
end

/-! ## Whole runs -/

theorem discard_bind (act : Infer α) (f : PUnit → Infer β) :
    discard act >>= f = act >>= fun _ => f ⟨⟩ :=
  bind_map_left (Function.const α PUnit.unit) act f

/-- A run that fails and is cancelled has failed before it is asked whether it is cancelled. -/
theorem mirroredAt_thenConclude {pre : Infer α} {pre' : δ → Infer α} {b : β} {post : α → Infer β}
    (hc : c.solver = r.solver) (hs : r.At s) (hfollows : Follows r pre)
    (hpre : EndsLive r pre c s → MirroredAt r c s pre pre')
    (hpost : ∀ a, Mirrored r (post a) (fun _ : Unit => post a))
    (hq : (exec (do
      let a ← pre
      if (← get).cancelled then return b
      post a) c s).2.queries <+: r.queries)
    (hfails : ∀ b' s', ¬Returns (do
      let a ← pre
      if (← get).cancelled then return b
      post a) c s b' s') :
    MirroredAt r c s (do
      let a ← pre
      if (← get).cancelled then return b
      post a) (fun d => do
        let a ← pre' d
        if (← get).cancelled then return b
        post a) := by
  have hlive : EndsLive r pre c s := by
    constructor
    · have hguarded := fun a => ((hpost a).unlessCancelled (a := b)).toFollows
      exact (Follows.queries_bind hguarded pre c s).trans hq
    · intro a s₁ ha
      cases hs₁ : s₁.cancelled with
      | false => rfl
      | true =>
        refine absurd (returns_bind.mpr ⟨a, s₁, ha, ?_⟩) (hfails b s₁)
        rw [Returns, exec_unlessCancelled, hs₁]
        rfl
  have hrest : ∀ a s₁, Returns pre c s a s₁ → MirroredAt r c s₁ (do
      if (← get).cancelled then return b
      post a) (fun _ : Unit => do
        if (← get).cancelled then return b
        post a) := by
    intro a s₁ ha
    have hs₁ := hlive.live ha
    have hrecord := hfollows.record_of_returns hc hs ha
    rw [exec_bind_of_returns ha, exec_unlessCancelled, hs₁] at hq
    exact ((hpost a).exec_live c s₁ hc hrecord hq).unlessCancelled hs₁
  exact ((hpre hlive).bind hrest).choose fun d => ⟨d.1, rfl⟩

/-- The end of the run of a module. -/
def concludeModule (m : Surface.Module) : Infer (Except RunError ModuleOutput) := do
  finish
  let content ← closeTop
  let content ← resolveModule { content with imports := m.imports }
  match ← conclude with
  | .error f => return .error (.failed f)
  | .ok warnings =>
    trace (.moduleDone m.name.text content.groups.length warnings.length)
    return .ok ⟨content, ← seeds, warnings⟩

theorem exec_inferModule (input : Input) (m : Surface.Module) (c : Context) :
    (inferModule m).exec c (initial input) = exec (do
      let _ ← checkDecls true m.decls
      if (← get).cancelled then return .error (.canceled ("checking module " ++ m.name.text))
      concludeModule m) c (begun input m) := by
  show exec (discard (checkDecls true m.decls) >>= _) c (begun input m) = _
  rw [discard_bind]
  rfl

theorem mirrored_concludeModule (m : Surface.Module) :
    Mirrored r (concludeModule m) (fun _ : Unit => concludeModule m) :=
  mirrored_finish.bind_steady fun _ => steady_moduleOutput m

theorem mirroredAt_inferModule {input : Input} {m : Surface.Module} {o : Observations}
    (hq : ((inferModule m).exec (contextOf input) (initial input)).2.queries <+: o.queries)
    (hfails : ∀ a s', ¬Returns (inferModule m) (contextOf input) (initial input) a s') :
    MirroredAt (input.course o) (contextOf input) (initial input) (inferModule m)
      (fun ds : { ds // CutDecls false m.decls ds } => inferModule { m with decls := ds.1 }) := by
  have hready : Ready (input.course o) (contextOf input) (begun input m) :=
    ⟨rfl, rfl, List.Pairwise.nil, List.cons_ne_nil _ _⟩
  rw [exec_inferModule] at hq
  obtain ⟨ds, hds⟩ := mirroredAt_thenConclude hready.solver hready.record
    (mirrored_checkDecls m.decls true).toFollows (mirroredAt_checkDecls m.decls hready)
    (fun _ => mirrored_concludeModule m) hq fun a s' h =>
      hfails a s' ((exec_inferModule input m _).trans h)
  refine ⟨ds, ?_⟩
  rw [exec_inferModule]
  exact (exec_inferModule (input.uncancelled o) { m with decls := ds.1 } _).trans hds

/-- The definition that an expression becomes. -/
def elaborate (e : Surface.Expr) : Infer (List Decl) := do
  openScope .top (← freshName "repl")
  let b : Surface.Bind := .mk (← freshName "it") [] (some e) none false false e.range
  let t ← freshType .type (.definition b.name)
  let (d, goals) ← collectGoals do
    let d ← checkMono b t fun exp => checkBody b exp
    simplifyStore false
    return d
  let s := (← get).subst
  defaultVars (Ty.freeVars (goals.map fun g => s.apply g.prop)) goals
  let goals ← simplifyGoals goals
  generalize [d] goals []

/-- The end of the run of an expression. -/
def concludeExpr (ds : List Decl) : Infer (Except RunError ExprOutput) := do
  finish
  discard closeTop
  let ds ← resolving fun r => r.decls ds
  checkResolved ds
  match ← conclude, ds with
  | .error f, _ => return .error (.failed f)
  | .ok warnings, d :: _ =>
    return .ok ⟨d.body.getD default, d.schema, ← seeds, warnings⟩
  | .ok warnings, [] => return .ok ⟨default, default, ← seeds, warnings⟩

theorem inferExpr_eq (e : Surface.Expr) : inferExpr e = (do
    let ds ← elaborate e
    if (← get).cancelled then return .error (.canceled "checking expression")
    concludeExpr ds) := by
  unfold inferExpr elaborate
  simp only [bind_assoc]
  rfl

theorem mirrored_elaborate (e : Surface.Expr) :
    Mirrored r (elaborate e) (fun e' : { e' // e.Cut e' } => elaborate e'.1) := by
  have hbody : ∀ n t, Mirrored r
      (checkMono (.mk n [] (some e) none false false e.range) t fun exp =>
        checkBody (.mk n [] (some e) none false false e.range) exp)
      (fun e' : { e' // e.Cut e' } =>
        checkMono (.mk n [] (some e'.1) none false false e'.1.range) t fun exp =>
          checkBody (.mk n [] (some e'.1) none false false e'.1.range) exp) := by
    intro n t
    refine (mirrored_checkMono (fun exp => mirrored_checkBody _ exp) _ t).choose ?_
    rintro ⟨b', hb'⟩
    cases hb' with
    | same => exact ⟨⟨e, .same⟩, rfl⟩
    | body h => exact ⟨⟨_, h⟩, by rw [h.range_eq, checkMono_cut (.body h)]⟩
  exact (steady_freshName _).bind_mirrored fun _ => (steady_openScope ..).bind_mirrored fun _ =>
    (steady_freshName _).bind_mirrored fun n => (steady_freshType ..).bind_mirrored fun t =>
    (mirrored_collectGoals (mirrored_thenSimplify (hbody n t))).bind_steady fun _ =>
    .get_bind (fun _ _ _ => rfl) fun _ => (steady_defaultVars ..).bind fun _ =>
    (steady_simplifyGoals _).bind fun _ => steady_generalize ..

theorem mirrored_concludeExpr (ds : List Decl) :
    Mirrored r (concludeExpr ds) (fun _ : Unit => concludeExpr ds) :=
  mirrored_finish.bind_steady fun _ => steady_exprOutput ds

theorem mirroredAt_inferExpr {input : Input} {e : Surface.Expr} {o : Observations}
    (hq : ((inferExpr e).exec (contextOf input) (initial input)).2.queries <+: o.queries)
    (hfails : ∀ a s', ¬Returns (inferExpr e) (contextOf input) (initial input) a s') :
    MirroredAt (input.course o) (contextOf input) (initial input) (inferExpr e)
      (fun e' : { e' // e.Cut e' } => inferExpr e'.1) := by
  simp only [inferExpr_eq] at hq hfails ⊢
  have hpre := mirrored_elaborate (r := input.course o) e
  exact mirroredAt_thenConclude rfl rfl hpre.toFollows
    (fun hlive => hpre.exec_live _ _ rfl rfl hlive.queries) mirrored_concludeExpr hq hfails

/-! ## Internal errors -/

theorem not_returns_internal_module {m : Surface.Module} {e : InternalError} :
    ¬Returns (inferModule m) c s (.error (.internal e)) s' := by
  intro h
  unfold inferModule trace openScope at h
  simp only [returns_modify_bind] at h
  obtain ⟨⟨⟩, s₁, -, h⟩ := returns_bind.mp h
  rw [returns_get_bind] at h
  split at h
  · cases (returns_pure.mp h).1
  · simp only [returns_bind] at h
    obtain ⟨_, _, -, _, _, -, _, _, -, concluded, _, -, h⟩ := h
    cases concluded with
    | error f => cases (returns_pure.mp h).1
    | ok ws =>
      simp only [returns_bind] at h
      obtain ⟨_, _, -, _, _, -, h⟩ := h
      cases (returns_pure.mp h).1

theorem not_returns_internal_expr {x : Surface.Expr} {e : InternalError} :
    ¬Returns (inferExpr x) c s (.error (.internal e)) s' := by
  intro h
  rw [inferExpr_eq] at h
  obtain ⟨ds, s₁, -, h⟩ := returns_bind.mp h
  rw [returns_get_bind] at h
  split at h
  · cases (returns_pure.mp h).1
  · unfold concludeExpr at h
    simp only [returns_bind] at h
    obtain ⟨_, _, -, _, _, -, ds, _, -, _, _, -, concluded, _, -, h⟩ := h
    cases concluded with
    | error f => cases (returns_pure.mp h).1
    | ok ws =>
      cases ds with
      | nil =>
        obtain ⟨_, _, -, h⟩ := returns_bind.mp h
        cases (returns_pure.mp h).1
      | cons d ds =>
        obtain ⟨_, _, -, h⟩ := returns_bind.mp h
        cases (returns_pure.mp h).1

/-- A computation that only throws internal errors, and is mirrored where it does, has the same
internal error in a run that is never cancelled. -/
theorem exists_start_uncancelled {input : Input} {o : Observations} {e : InternalError}
    {act : Infer (Except RunError α)} {act' : δ → Infer (Except RunError α)}
    (hinternal : ∀ s', ¬Returns act (contextOf input) (initial input) (.error (.internal e)) s')
    (hact : (act.exec (contextOf input) (initial input)).2.queries <+: o.queries →
      (∀ a s', ¬Returns act (contextOf input) (initial input) a s') →
      MirroredAt (input.course o) (contextOf input) (initial input) act act')
    (h : start input act = (.error (.internal e), o)) :
    ∃ d, start (input.uncancelled o) (act' d) =
      (.error (.internal e), { o with cancelled := false }) := by
  unfold start at h
  rcases hexec : act.exec (contextOf input) (initial input) with ⟨res, s'⟩
  rw [hexec] at h
  cases res with
  | ok res =>
    obtain rfl : res = .error (.internal e) := congrArg Prod.fst h
    exact absurd hexec (hinternal s')
  | error e' =>
    obtain ⟨he, rfl⟩ := Prod.mk.inj h
    obtain rfl : e' = e := by simpa using he
    obtain ⟨d, hd⟩ := hact (by rw [hexec]) fun a s₁ ha => by simp [Returns, hexec] at ha
    rw [hexec] at hd
    have hlive : (act' d).exec (contextOf (input.uncancelled
        ⟨s'.supply, s'.events, s'.queries, s'.cancelled⟩)) (initial (input.uncancelled
        ⟨s'.supply, s'.events, s'.queries, s'.cancelled⟩)) = (.error e', s'.live) := hd
    refine ⟨d, ?_⟩
    unfold start
    rw [hlive]
    rfl

end Infer

/-- An internal error of a run, cancelled or not, is one of a run that gets the same answers and is
never cancelled: of the module or expression with the declarations of some blocks cut off. Without
blocks there is nothing to cut off. -/
theorem internal_uncancelled (input : Input) (o : Observations) (e : InternalError) :
    (∀ m : Surface.Module, runModule input m = (.error (.internal e), o) →
      ∃ ds, CutDecls false m.decls ds ∧ (Blockless (subtermsDecls m.decls) → ds = m.decls) ∧
        runModule (input.uncancelled o) { m with decls := ds } =
          (.error (.internal e), { o with cancelled := false })) ∧
    ∀ x : Surface.Expr, runExpr input x = (.error (.internal e), o) →
      ∃ x', x.Cut x' ∧ (Blockless x.subterms → x' = x) ∧
        runExpr (input.uncancelled o) x' =
          (.error (.internal e), { o with cancelled := false }) := by
  constructor
  · intro m h
    obtain ⟨ds, hds⟩ := Infer.exists_start_uncancelled
      (fun _ => Infer.not_returns_internal_module) Infer.mirroredAt_inferModule h
    exact ⟨ds.1, ds.2, ds.2.eq_of_blockless, hds⟩
  · intro x h
    obtain ⟨x', hx'⟩ := Infer.exists_start_uncancelled
      (fun _ => Infer.not_returns_internal_expr) Infer.mirroredAt_inferExpr h
    exact ⟨x'.1, x'.2, x'.2.eq_of_blockless, hx'⟩

/-! ## Blocks whose declarations are left out -/

/-- `x where x = ()`. -/
def unitBlock : Surface.Expr :=
  .block (.var { id := 1, ident := "x" })
    [.group false [.mk { id := 1, ident := "x" } [] (some (.tuple [])) none false false .empty]]

/-- `y = x where h = g; x = ()`, where `h` is not generalized. -/
def twoDefinitions : Surface.Module where
  name := { id := 5, ident := "Main" }
  decls := [.group false [.mk { id := 6, ident := "y" } []
    (some (.block (.var { id := 1, ident := "x" })
      [.group false [.mk { id := 2, ident := "h" } [] (some (.var { id := 3, ident := "g" })) none
          true false .empty],
        .group false [.mk { id := 1, ident := "x" } [] (some (.tuple [])) none false false
          .empty]]))
    none false false .empty]]

/-- `g : {n} (fin n) => [n]`, and a solver that fails and cancels the run. -/
def cancelling : Input where
  seeds := ⟨10, 0⟩
  external := { vars := [(3,
    { params := [{ id := 9, kind := .num }]
      props := [.fin (.bound { id := 9, kind := .num })]
      body := .seq (.bound { id := 9, kind := .num }) .bit })] }
  solver := ⟨fun _ _ _ => ⟨.error Solver.canceledText, true⟩⟩

theorem unitBlock_isOk : (runExpr { seeds := ⟨1, 0⟩ } unitBlock).1.isOk = true := by cbv

/-- A run that succeeds has an internal error if it is cancelled before its start. -/
theorem unitBlock_internal_of_cancelled :
    (∃ out, (runExpr { seeds := ⟨1, 0⟩ } unitBlock).1 = .ok out) ∧
    (runExpr { seeds := ⟨1, 0⟩, cancelled := true } unitBlock).1 =
      .error (.internal (.unboundVariable { id := 1, ident := "x" })) := by
  constructor
  · have hok := unitBlock_isOk
    cases hrun : (runExpr { seeds := ⟨1, 0⟩ } unitBlock).1 with
    | ok out => exact ⟨out, rfl⟩
    | error e =>
      rw [hrun] at hok
      cases hok
  · cbv

/-- Here the module is cancelled by its solver and the expression before its start. -/
theorem internal_uncancelled_blocks : ∃ o o' : Observations,
    (o.cancelled = true ∧ ∃ ds, CutDecls false twoDefinitions.decls ds ∧
      runModule (cancelling.uncancelled o) { twoDefinitions with decls := ds } =
        (.error (.internal (.unboundVariable { id := 1, ident := "x" })),
          { o with cancelled := false })) ∧
    o'.cancelled = true ∧ ∃ x, unitBlock.Cut x ∧
      runExpr (Input.uncancelled { seeds := ⟨1, 0⟩, cancelled := true } o') x =
        (.error (.internal (.unboundVariable { id := 1, ident := "x" })),
          { o' with cancelled := false }) := by
  have hmodule : (runModule cancelling twoDefinitions).1 =
      .error (.internal (.unboundVariable { id := 1, ident := "x" })) := by cbv
  have hmodule' : (runModule cancelling twoDefinitions).2.cancelled = true := by cbv
  have hexpr : (runExpr { seeds := ⟨1, 0⟩, cancelled := true } unitBlock).1 =
      .error (.internal (.unboundVariable { id := 1, ident := "x" })) := by cbv
  have hexpr' : (runExpr { seeds := ⟨1, 0⟩, cancelled := true } unitBlock).2.cancelled = true := by
    cbv
  -- the runs must not be evaluated again below
  generalize hrun : runModule cancelling twoDefinitions = run at hmodule hmodule'
  generalize hrun' : runExpr { seeds := ⟨1, 0⟩, cancelled := true } unitBlock = run' at hexpr hexpr'
  obtain ⟨ds, hcut, -, hds⟩ := (internal_uncancelled cancelling run.2 _).1 twoDefinitions
    (hrun.trans (Prod.ext hmodule rfl))
  obtain ⟨x, hcut', -, hx⟩ := (internal_uncancelled _ run'.2 _).2 unitBlock
    (hrun'.trans (Prod.ext hexpr rfl))
  exact ⟨run.2, run'.2, ⟨hmodule', ds, hcut, hds⟩, hexpr', x, hcut', hx⟩

end SizedTypes
