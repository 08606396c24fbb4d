import SizedTypes.Proofs.Infer.Uses.Recursion
import SizedTypes.Proofs.Run.Module

/-!
# Uses in modules

In a checked module every use of a variable that a definition, a function, a generator or an external
module binds passes types for all its parameters and evidence for all its predicates. The result of a
comprehension is an exception: it uses the definitions of the arms as if they had neither. Nothing is
said here of the uses of constructors and of the parameter functions of a module.
-/

set_option autoImplicit false

namespace SizedTypes

open SizedTypes.Core

/-! ## The end of a run -/

namespace Infer

variable {x : Int} {U : Uses} {input : Input} {m : Surface.Module} {out : ModuleOutput}
  {declared finished : State} {top : Scope}

/-- New binders account for the new uses. -/
theorem Accounted.becomes {ms ms' : List Mention} (h : Accounted x U ms) (hb : Becomes Eq ms ms') :
    Accounted x U ms' := by
  intro n token passed hm hn
  rcases hb.uses hm with ⟨_, hm, rfl⟩ | ⟨htoken, hpassed, hbinder⟩
  · rcases h n token passed hm hn with ⟨htoken, k, p, hbinder, hpassed⟩ | hu
    · exact Or.inl ⟨htoken, k, p, hb.binders hbinder, hpassed⟩
    · exact Or.inr hu
  · exact Or.inl ⟨htoken, 0, 0, hn ▸ hbinder, hpassed⟩

theorem scopeUses_begun : ScopeUses x input.external
    ((begun input m).uses input.external x) (begun input m) where
  tidy := ⟨.nil, List.forall_mem_nil _⟩
  accounted := .nil
  inScope _ _ hu := Or.inr hu

/-- The definitions of a module account for their uses, up to those of the variables from
outside. -/
theorem ModuleRun.accounted (h : ModuleRun input m out declared finished top)
    (hx : ∀ d ∈ m.nested, d.OnlyBinds x) :
    Accounted x ((begun input m).uses input.external x) (mentionsGroups out.content.groups) := by
  obtain ⟨k, hdecls⟩ := h.decls
  have hfinished := (scopeUses_checkDecls m.decls hdecls hx scopeUses_begun).frame h.finish
  have hgroups : finished.groups = top.content.groups := by
    rw [State.groups, h.scopes]
    rfl
  have htop := hfinished.accounted
  rw [hgroups] at htop
  rw [h.content]
  exact htop.becomes ((resolver finished).becomes_groups ..)

end Infer

/-- Every use of a variable in a checked module passes types for all its parameters and evidence
for all its predicates, and no place-holder is left. This is about a variable that has `k`
parameters and `p` predicates wherever it is bound: by a definition, a function, a generator or an
external module, but not as a constructor or a parameter function of this module. It leaves out the
uses in the result of a comprehension of what its arms define with parameters or predicates. -/
theorem passed_of_runModule {input : Input} {m : Surface.Module} {out : ModuleOutput} {x : Int}
    {k p : Nat} (h : (runModule input m).1 = .ok out) (honce : ∀ d ∈ m.nested, d.OnlyBinds x)
    (hbinders : ∀ k' p', Mention.binder x k' p' ∈ mentionsGroups out.content.groups →
      k' = k ∧ p' = p)
    (hexternal : ∀ sc, input.external.vars.find? x = some sc →
      sc.params.length = k ∧ sc.props.length = p) :
    ∀ n token passed, Mention.use n token passed ∈ mentionsGroups out.content.groups → n.id = x →
      token = none ∧ passed = Passed.all k p := by
  intro n token passed hm hn
  obtain ⟨declared, finished, top, hrun⟩ := Infer.exists_moduleRun h
  rcases hrun.accounted honce n token passed hm hn with ⟨htoken, k', p', hb, hpassed⟩ | ⟨v, hv, hu⟩
  · obtain ⟨rfl, rfl⟩ := hbinders k' p' hb
    exact ⟨htoken, hpassed⟩
  · obtain ⟨sc, hsc, rfl⟩ := Option.map_eq_some_iff.mp hv
    obtain ⟨rfl, rfl⟩ := hexternal sc hsc
    exact hu

/-! ## A definition in a comprehension

In `[ x | let x : (fin 3) => (); x = (), let y = x ]` the definition `y` passes evidence to `x`,
the result does not. -/

def letComprehension : Surface.Module where
  name := { id := 1, ident := "Main" }
  decls := [.group false [.mk { id := 2, ident := "z" } []
    (some (.comp (.var { id := 3, ident := "x" })
      [[.define (.mk { id := 3, ident := "x" } [] (some (.tuple []))
          (some { props := [.builtin (.prop .fin) [.num 3]], body := .tuple [] }) false false .empty),
        .define (.mk { id := 4, ident := "y" } [] (some (.var { id := 3, ident := "x" })) none false
          false .empty)]]))
    none false false .empty]]

/-- Whether a definition is a comprehension whose result is its first definition without anything
passed, although that has a predicate. -/
def bareResult : Decl → Bool
  | .mk _ _ (some (.comp _ _ (.var n) [.define d :: _])) _ _ =>
    n == d.name && d.schema.props.length == 1
  | _ => false

/-- Whether the run succeeds, with a bare result and these binders and other uses. -/
def letChecked : Bool :=
  match (runModule { seeds := ⟨1, 0⟩ } letComprehension).1 with
  | .ok out => out.content.decls.any bareResult && mentionsGroups out.content.groups ==
      [.binder 2 0 0, .binder 3 0 1, .binder 4 0 0, .use { id := 3, ident := "x" } none [.proof]]
  | .error _ => false

theorem letChecked_eq_true : letChecked = true := by cbv

theorem exists_letChecked : ∃ out, (runModule { seeds := ⟨1, 0⟩ } letComprehension).1 = .ok out ∧
    (∃ d ∈ out.content.decls, bareResult d = true) ∧ mentionsGroups out.content.groups =
      [.binder 2 0 0, .binder 3 0 1, .binder 4 0 0,
        .use { id := 3, ident := "x" } none [.proof]] := by
  have h := letChecked_eq_true
  unfold letChecked at h
  split at h
  · rename_i out heq
    rw [Bool.and_eq_true, beq_iff_eq] at h
    exact ⟨out, heq, List.any_eq_true.mp h.1, h.2⟩
  · cases h

/-- The use of `x` in `y` passes evidence. -/
theorem passed_of_runModule_letComprehension : ∃ out,
    (runModule { seeds := ⟨1, 0⟩ } letComprehension).1 = .ok out ∧
    Mention.use { id := 3, ident := "x" } none (Passed.all 0 1) ∈
      mentionsGroups out.content.groups ∧
    ∀ n token passed, Mention.use n token passed ∈ mentionsGroups out.content.groups → n.id = 3 →
      token = none ∧ passed = Passed.all 0 1 := by
  obtain ⟨out, hrun, -, hmentions⟩ := exists_letChecked
  refine ⟨out, hrun, by rw [hmentions]; decide, passed_of_runModule hrun ?_ ?_ (fun _ h => nomatch h)⟩
  · intro d hd
    rw [List.mem_singleton.mp hd]
    show List.count 3 [2] ≤ 1
    decide
  · intro k p hb
    rw [hmentions] at hb
    simpa using hb

/-- The result is `x` without evidence, although `x` has a predicate. -/
theorem let_bare_in_result : ∃ out, (runModule { seeds := ⟨1, 0⟩ } letComprehension).1 = .ok out ∧
    ∃ d ∈ out.content.decls, ∃ len elem x quals,
      d.body = some (.comp len elem (.var x.name) [.define x :: quals]) ∧
      x.schema.props.length = 1 := by
  obtain ⟨out, hrun, ⟨d, hd, hbare⟩, -⟩ := exists_letChecked
  refine ⟨out, hrun, d, hd, ?_⟩
  unfold bareResult at hbare
  split at hbare
  · rw [Bool.and_eq_true, beq_iff_eq, beq_iff_eq] at hbare
    obtain ⟨rfl, hprops⟩ := hbare
    exact ⟨_, _, _, _, rfl, hprops⟩
  · cases hbare

end SizedTypes
