import SizedTypes.Proofs.Infer.Frame.Recursion
import SizedTypes.Proofs.Infer.Resolve
import SizedTypes.Proofs.Run.Stages

/-!
# Runs of modules

A successful run is its declarations, the discharge of what is left of the goals and the final
forms of what the top-level scope then has, all without an error.
-/

set_option autoImplicit false

namespace SizedTypes.Infer

open SizedTypes.Core (Decl Group Module)

variable {c : Context} {s s' : State}

theorem Kept.errors_eq_nil (h : Kept s s') (hs' : s'.errors = []) : s.errors = [] := by
  have hprefix := h.errors
  rwa [hs', List.prefix_nil] at hprefix

/-! ## The end of a run -/

theorem framed_reportUnsolved (gs : List Goal) : Framed (reportUnsolved gs) :=
  .ite (framed_recordError _).withRange (.pure _)

theorem framed_reportLeft : Framed reportLeft :=
  Framed.get.bind fun _ => (framed_reportUnsolved _).bind fun _ => (framed_modifyGoals _).bind
    fun _ => Framed.get.bind fun _ => (framed_reportUnsolved _).bind fun _ =>
    framed_modifyPending _

theorem respects_discharge {R : State → State → Prop} [SolvingRules R] : Respects R discharge :=
  (respects_simplifyStore true).bind fun _ => (Respects.get.bind fun _ => .pure _).bind fun _ =>
    .ite (Respects.get.bind fun _ => (respects_defaultVars ..).bind fun _ =>
      (respects_simplifyGoals _).bind fun _ => (respects_modifyGoals _).bind fun _ =>
      respects_simplifyStore true) (.pure _)

theorem framed_finish : Framed finish := by
  rw [finish_eq]
  exact respects_discharge.framed.bind fun _ => framed_reportLeft

/-- The report of the variables of one definition. -/
def reportOpen (d : Decl) : Infer Unit := do
  let vs := Core.freeVarsOf [d]
  if !vs.isEmpty then withRange d.range (recordError (.ambiguousType [d.name] vs))

theorem framed_reportOpen (d : Decl) : Framed (reportOpen d) :=
  .ite (framed_recordError _).withRange (.pure _)

theorem framed_checkResolved (ds : List Decl) : Framed (checkResolved ds) :=
  Framed.get.bind fun _ => .ite (.forM fun d _ => framed_reportOpen d) (.pure _)

theorem returns_resolving {α : Type} {act : Resolver → StateM Supply α} {a : α} :
    Returns (resolving act) c s a s' ↔
      a = (act (resolver s) s.supply).1 ∧ s' = { s with supply := (act (resolver s) s.supply).2 } :=
  returns_pure (c := c)

/-- A resolved module is as it was, with definitions, constraints and parameter functions in their
final forms. -/
theorem returns_resolveModule {m m' : Module} (h : Returns (resolveModule m) c s m' s') :
    m' = { m with
      groups := ((resolver s).groups m.groups s.supply).1
      paramProps := m.paramProps.map (zonk s.subst)
      paramFuns := m.paramFuns.mapValues (Schema.mapTypes (zonk s.subst)) } ∧
    ∃ s₁ a, s₁.errors = s.errors ∧ Returns (checkResolved m'.decls) c s₁ a s' := by
  unfold resolveModule at h
  simp only [returns_bind, returns_resolving, returns_get, returns_pure] at h
  obtain ⟨gs, _, ⟨rfl, rfl⟩, _, _, ⟨rfl, rfl⟩, a, _, hcheck, rfl, rfl⟩ := h
  exact ⟨rfl, _, a, by rfl, hcheck⟩

theorem returns_closeTop {m : Module} (h : Returns closeTop c s m s') :
    ∃ sc, s.scopes = [sc] ∧ m = sc.content ∧ s' = { s with scopes := [] } := by
  unfold closeTop at h
  rw [returns_get_bind] at h
  split at h
  · simp at h
  · rename_i hlen
    obtain ⟨sc, rest, hscopes, -, rfl, rfl⟩ := returns_popScope h
    obtain rfl : rest = [] := by simpa [hscopes] using hlen
    exact ⟨sc, hscopes, rfl, rfl⟩

/-! ## From the start -/

/-- The state in which a module's first declaration is checked. -/
def begun (input : Input) (m : Surface.Module) : State :=
  { initial input with
    scopes := [⟨.top, .empty m.name⟩]
    events := [.checkingModule m.name.text] }

/-- A successful run of a module: `declared` is the state after its declarations, `finished` the
one in which the contents of the scope `top` get their final forms. -/
structure ModuleRun (input : Input) (m : Surface.Module) (out : ModuleOutput)
    (declared finished : State) (top : Scope) : Prop where
  decls : ∃ k, Returns (checkDecls true m.decls) (contextOf input) (begun input m) k declared
  finish : Frame declared finished
  scopes : finished.scopes = [top]
  content : out.content = { top.content with
    imports := m.imports
    groups := ((resolver finished).groups top.content.groups finished.supply).1
    paramProps := top.content.paramProps.map (zonk finished.subst)
    paramFuns := top.content.paramFuns.mapValues (Schema.mapTypes (zonk finished.subst)) }
  errors : finished.errors = []
  checked : ∃ s a s', Returns (checkResolved out.content.decls) (contextOf input) s a s' ∧
    s'.errors = []

theorem returns_conclude_ok {ws : List WarningAt} (h : Returns conclude c s (.ok ws) s') :
    s.errors = [] := by
  unfold conclude at h
  rw [returns_get_bind, returns_set_bind, returns_pure] at h
  have hok := h.1
  split at hok
  · exact List.isEmpty_iff.mp ‹_›
  · cases hok

/-- What returns when a run is started has a result. -/
theorem returns_of_start {α : Type} {input : Input} {act : Infer (Except RunError α)} {out : α}
    (h : (start input act).1 = .ok out) :
    ∃ s', Returns act (contextOf input) (initial input) (.ok out) s' := by
  unfold start at h
  rcases hexec : act.exec (contextOf input) (initial input) with ⟨r, s'⟩
  rw [hexec] at h
  cases r with
  | ok r =>
    obtain rfl : r = .ok out := h
    exact ⟨s', hexec⟩
  | error e => cases h

/-- A successful run of a module checks its declarations, discharges goals and closes the scope. -/
theorem returns_inferModule {input : Input} {m : Surface.Module} {out : ModuleOutput}
    (h : Returns (inferModule m) (contextOf input) (initial input) (.ok out) s') :
    ∃ k declared finished, Returns (checkDecls true m.decls) (contextOf input) (begun input m) k
        declared ∧ Returns finish (contextOf input) declared ⟨⟩ finished ∧
      Returns (moduleOutput m) (contextOf input) finished (.ok out) s' := by
  unfold inferModule trace openScope at h
  simp only [returns_modify_bind] at h
  obtain ⟨⟨⟩, declared, hdecls, h⟩ := returns_bind.mp h
  rw [returns_get_bind] at h
  split at h
  · cases (returns_pure.mp h).1
  · obtain ⟨⟨⟩, finished, hfinish, h⟩ := returns_bind.mp h
    obtain ⟨k, hdecls⟩ := returns_discard.mp hdecls
    exact ⟨k, declared, finished, hdecls, hfinish, h⟩

/-- Every successful run of a module is of this form, with the discharge of the goals that are left
between its declarations and its end. -/
theorem exists_finishedRun {input : Input} {m : Surface.Module} {out : ModuleOutput}
    (h : (runModule input m).1 = .ok out) :
    ∃ declared finished top, ModuleRun input m out declared finished top ∧
      Returns finish (contextOf input) declared ⟨⟩ finished := by
  obtain ⟨s', h⟩ := returns_of_start h
  obtain ⟨k, declared, finished, hdecls, hfinish, h⟩ := returns_inferModule h
  unfold moduleOutput at h
  obtain ⟨_, _, htop, h⟩ := returns_bind.mp h
  obtain ⟨top, hscopes, rfl, rfl⟩ := returns_closeTop htop
  obtain ⟨content, s₃, hresolve, h⟩ := returns_bind.mp h
  obtain ⟨concluded, s₄, hconclude, h⟩ := returns_bind.mp h
  cases concluded with
  | error f => cases (returns_pure.mp h).1
  | ok ws =>
    obtain ⟨⟨⟩, s₅, -, h⟩ := returns_bind.mp h
    obtain ⟨sd, _, -, h⟩ := returns_bind.mp h
    obtain rfl : out = ⟨content, sd, ws⟩ := Except.ok.inj (returns_pure.mp h).1
    obtain ⟨hcontent, s₁, a, herrors, hchecked⟩ := returns_resolveModule hresolve
    have hnone := returns_conclude_ok hconclude
    refine ⟨declared, finished, top, ⟨⟨k, hdecls⟩, framed_finish.step hfinish,
      hscopes, hcontent, ?_, s₁, a, s₃, hchecked, hnone⟩, hfinish⟩
    have hframe := (framed_checkResolved _).step hchecked
    exact herrors.symm.trans (hframe.errors_eq_nil hnone)

theorem exists_moduleRun {input : Input} {m : Surface.Module} {out : ModuleOutput}
    (h : (runModule input m).1 = .ok out) :
    ∃ declared finished top, ModuleRun input m out declared finished top := by
  obtain ⟨declared, finished, top, hrun, -⟩ := exists_finishedRun h
  exact ⟨declared, finished, top, hrun⟩

end SizedTypes.Infer
