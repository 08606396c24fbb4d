import Mathlib
import SizedTypes.Proofs.Infer.Mirror.Live
import SizedTypes.Proofs.Infer.Provides.Recursion
import SizedTypes.Proofs.Run.Cancelled
import SizedTypes.Proofs.Surface.Regrouping

/-!
# Runs of modules in scope

A run of a module whose declarations refer only to what is external or visible at their places
misses no name. A run that is not cancelled goes as if it could not be; one that is cancelled leaves
out only declarations at the end of the module, as far as it has no blocks. So regrouped
declarations that are in scope can be checked.
-/

set_option autoImplicit false

namespace SizedTypes

open Surface (Blockless Visible bindsOf declsInScope groupDecls subtermsDecls)

/-- What is visible to the first declaration of a module. -/
def Input.visible (input : Input) : Visible := { external := input.external, prims := input.prims }

namespace Infer

variable {r : Course} {c : Context} {s : State} {input : Input} {m : Surface.Module}
  {o : Observations} {e : InternalError} {α : Type}

theorem fails_of_start {act : Infer (Except RunError α)}
    (hinternal : ∀ s', ¬Returns act (contextOf input) (initial input) (.error (.internal e)) s')
    (h : (start input act).1 = .error (.internal e)) :
    Fails act (contextOf input) (initial input) e := by
  unfold start at h
  unfold Fails
  rcases hexec : act.exec (contextOf input) (initial input) with ⟨res, s'⟩
  rw [hexec] at h
  cases res with
  | ok res =>
    obtain rfl : res = .error (.internal e) := h
    exact absurd hexec (hinternal s')
  | error e' =>
    obtain rfl : e' = e := by simpa using h
    rfl

/-- The run of a module after its scope has been opened. -/
def inferBegun (m : Surface.Module) : Infer (Except RunError ModuleOutput) := do
  let _ ← checkDecls true m.decls
  if (← get).cancelled then return .error (.canceled ("checking module " ++ m.name.text))
  concludeModule m

/-! ## Runs that cannot be cancelled -/

theorem nameless_concludeModule (m : Surface.Module) : Nameless (concludeModule m) :=
  nameless_finish.bind fun _ => nameless_moduleOutput m

theorem provides_begun (hsolver : ∀ k b q, (input.solver.ask k b q).cancels = false)
    (hlive : input.cancelled = false) :
    Provides input.visible (contextOf input) (begun input m) where
  external := rfl
  prims := rfl
  uncancelling := hsolver
  uncancelled := hlive
  sorted := List.Pairwise.nil
  values := nofun
  types := nofun
  moduleParams := nofun
  sortedTypeVars := List.Pairwise.nil
  typeVars := nofun

theorem isUnbound_of_uncancelling (hsolver : ∀ k b q, (input.solver.ask k b q).cancels = false)
    (hlive : input.cancelled = false) (hscope : declsInScope input.visible m.decls = true)
    (h : (runModule input m).1 = .error (.internal e)) : e.isUnbound = false := by
  have hfails := fails_of_start (fun _ => not_returns_internal_module) h
  rw [Fails, exec_inferModule] at hfails
  have hbegun : Fails (inferBegun m) (contextOf input) (begun input m) e := hfails
  rcases fails_bind.mp hbegun with hdecls | ⟨k, s₁, -, hrest⟩
  · exact (resolves_checkDecls m.decls hscope).bound (provides_begun hsolver hlive) hdecls
  · exact (Nameless.get.bind fun s => .ite (.pure _) (nameless_concludeModule m)).bound hrest

/-! ## Runs that are not cancelled -/

theorem follows_inferBegun (m : Surface.Module) : Follows r (inferBegun m) :=
  (mirrored_checkDecls m.decls true).toFollows.bind fun _ =>
    (mirrored_concludeModule m).unlessCancelled.toFollows

theorem unaffected_inferBegun (hlive : r.Live) (m : Surface.Module) : Unaffected r (inferBegun m) :=
  (unaffected_checkDecls hlive m.decls true).bind fun _ =>
    .unlessCancelled hlive (mirrored_concludeModule m)

theorem live_course {res : Except RunError ModuleOutput} (h : runModule input m = (res, o))
    (ho : o.cancelled = false) : (input.course o).Live := by
  have hobserved : o = (runModule input m).2 := (congrArg Prod.snd h).symm
  have hrecord :
      (input.course o).At ((inferModule m).exec (contextOf input) (initial input)).2 := by
    rw [exec_inferModule]
    exact (follows_inferBegun m).record (contextOf input) (begun input m) rfl rfl
  rw [hobserved] at ho hrecord ⊢
  exact hrecord.symm.trans ho

theorem mirroredAt_inferModule_of_live (hlive : (input.course o).Live)
    (hq : ((inferModule m).exec (contextOf input) (initial input)).2.queries <+: o.queries) :
    MirroredAt (input.course o) (contextOf input) (initial input) (inferModule m)
      (fun _ : Unit => inferModule m) := by
  rw [exec_inferModule] at hq
  obtain ⟨_, hrun⟩ := (unaffected_inferBegun hlive m).exec_live (contextOf input) (begun input m)
    rfl rfl hq
  refine ⟨⟨⟩, ?_⟩
  rw [exec_inferModule]
  exact (exec_inferModule (input.uncancelled o) m _).trans hrun

/-! ## Internal errors -/

/-- The internal error of a run that leaves nothing out, or of a module without blocks, is that of a
run that gets the same answers and is never cancelled. -/
theorem runModule_uncancelled (h : runModule input m = (.error (.internal e), o))
    (hrun : o.cancelled = false ∨ Blockless (subtermsDecls m.decls)) :
    runModule (input.uncancelled o) m = (.error (.internal e), { o with cancelled := false }) := by
  rcases hrun with ho | hblocks
  · obtain ⟨_, hrun⟩ := exists_start_uncancelled (fun _ => not_returns_internal_module)
      (fun hq _ => mirroredAt_inferModule_of_live (live_course h ho) hq) h
    exact hrun
  · obtain ⟨ds, hds⟩ := exists_start_uncancelled (fun _ => not_returns_internal_module)
      mirroredAt_inferModule h
    rwa [ds.2.eq_of_blockless hblocks] at hds

/-- Declarations in scope are checked without a look for a name that is not there. -/
theorem isUnbound_of_inScope (hscope : declsInScope input.visible m.decls = true)
    (h : runModule input m = (.error (.internal e), o))
    (hrun : o.cancelled = false ∨ Blockless (subtermsDecls m.decls)) : e.isUnbound = false := by
  have hvisible : declsInScope (input.uncancelled o).visible m.decls = true := hscope
  have huncancelled := runModule_uncancelled h hrun
  exact isUnbound_of_uncancelling (fun _ _ _ => rfl) rfl hvisible (congrArg Prod.fst huncancelled)

end Infer

/-- Regrouping keeps declarations in scope exactly if each binding refers only to what is visible
before the first group or bound by a group, not to what only a later declaration of another sort
declares. Then a run of the regrouped declarations misses no name, unless it is cancelled while it
checks a block. -/
theorem groupDecls_resolves {v : Visible} {ds : List Surface.Decl} (h : declsInScope v ds = true) :
    (declsInScope v (groupDecls ds) = true ↔
      ∀ b ∈ bindsOf ds, b.resolvesIn (v.forGroups ds) = true) ∧
    ((∀ b ∈ bindsOf ds, b.resolvesIn (v.forGroups ds) = true) →
      ∀ (input : Input) (m : Surface.Module) (e : InternalError) (o : Observations),
        input.visible = v → m.decls = groupDecls ds →
        runModule input m = (.error (.internal e), o) →
        o.cancelled = false ∨ Blockless (subtermsDecls ds) → e.isUnbound = false) := by
  have hiff := Surface.groupDecls_inScope_iff h
  refine ⟨hiff, fun hbinds input m e o hv hm hrun hlive => ?_⟩
  have hscope : declsInScope input.visible m.decls = true := by
    rw [hv, hm]
    exact hiff.mpr hbinds
  refine Infer.isUnbound_of_inScope hscope hrun (hlive.imp_right fun hblocks x hx => ?_)
  rw [hm] at hx
  exact hblocks x (Surface.subtermsDecls_groupDecls_subset ds hx)

/-- `newtype N {b : ()}; g = N {b = f}; f = (); h = 5`, all bindings in one group. -/
def oneGroup : List Surface.Decl :=
  [.newtype { id := 11, ident := "N" } [] [("b", .tuple [])] none .empty,
    .group true [
      .mk { id := 12, ident := "g" } [] (some (.app (.var { id := 11, ident := "N" })
        (.record [("b", .var { id := 10, ident := "f" })]))) none false false .empty,
      .mk { id := 10, ident := "f" } [] (some (.tuple [])) none false false .empty,
      .mk { id := 13, ident := "h" } [] (some (.num 5 10 1)) none false false .empty]]

/-- `f = (); newtype N {b : ()}; g = N {b = f}`. -/
def newtypeBetween : List Surface.Decl :=
  [.group false [.mk { id := 10, ident := "f" } [] (some (.tuple [])) none false false .empty],
    .newtype { id := 11, ident := "N" } [] [("b", .tuple [])] none .empty,
    .group false [.mk { id := 12, ident := "g" } [] (some (.app (.var { id := 11, ident := "N" })
      (.record [("b", .var { id := 10, ident := "f" })]))) none false false .empty]]

/-- The module of these declarations. -/
def mainModule (ds : List Surface.Decl) : Surface.Module where
  name := { id := 5, ident := "Main" }
  decls := ds

/-- Regrouping splits the group and moves `f` before `g`. Without primitives there is an internal
error all the same, since the literal needs one. -/
theorem groupDecls_resolves_oneGroup : ∃ input : Input, ∃ o e,
    declsInScope input.visible oneGroup = true ∧
    (bindsOf (groupDecls oneGroup)).map (fun b => b.name.ident) = ["h", "f", "g"] ∧
    declsInScope input.visible (groupDecls oneGroup) = true ∧
    runModule input (mainModule (groupDecls oneGroup)) = (.error (.internal e), o) ∧
    o.cancelled = false ∧ e.isUnbound = false := by
  let input : Input := { seeds := ⟨20, 0⟩ }
  have hscope : declsInScope input.visible oneGroup = true := by cbv
  have hnames : (bindsOf (groupDecls oneGroup)).map (fun b => b.name.ident) = ["h", "f", "g"] := by
    cbv
  have hbinds : (bindsOf oneGroup).all (fun b => b.resolvesIn (input.visible.forGroups oneGroup)) =
      true := by cbv
  have hrun : (runModule input (mainModule (groupDecls oneGroup))).1 =
      .error (.internal (.missingPrimitive "number")) := by cbv
  have hlive : (runModule input (mainModule (groupDecls oneGroup))).2.cancelled = false := by cbv
  -- the run must not be evaluated again below
  generalize hres : runModule input (mainModule (groupDecls oneGroup)) = run at hrun hlive
  obtain ⟨hiff, hresolves⟩ := groupDecls_resolves hscope
  have hall := List.all_eq_true.mp hbinds
  exact ⟨input, run.2, _, hscope, hnames, hiff.mpr hall, hres.trans (Prod.ext hrun rfl), hlive,
    hresolves hall input _ _ run.2 rfl rfl (hres.trans (Prod.ext hrun rfl)) (.inl hlive)⟩

/-- The declarations are in scope and the module is accepted. Regrouped, `g` comes before the
newtype whose constructor it calls. -/
theorem newtypeBetween_unbound : ∃ input : Input,
    declsInScope input.visible newtypeBetween = true ∧
    (runModule input (mainModule newtypeBetween)).1.isOk = true ∧
    declsInScope input.visible (groupDecls newtypeBetween) = false ∧
    (runModule input (mainModule (groupDecls newtypeBetween))).1 =
      .error (.internal (.unboundVariable { id := 11, ident := "N" })) := by
  refine ⟨{ seeds := ⟨20, 0⟩ }, ?_, ?_, ?_, ?_⟩ <;> cbv

end SizedTypes
