import Mathlib
import SizedTypes.Proofs.Infer.Generalize

/-!
# Selections in generalized definitions

Generalization closes the types written in a definition over its parameters. A pending selection
has none of its own: the types of its route stand in the solutions of the run, and resolution puts
their final forms into the definition as they are. So a variable that has become a parameter is
back in the resolved definition exactly where a route mentions it, or where the final bindings
lead to it.
-/

set_option autoImplicit false

namespace SizedTypes.Infer

open SizedTypes.Core (AnyType Decl Term)

/-- What resolves the selections of a run that ends in `s`. -/
def resolver (s : State) : Resolver := ⟨zonk s.subst, s.selectorGoals, s.solutions⟩

/-- The types that the routes of the pending selections and updates of a definition carry. -/
def routeTypes (r : Resolver) (d : Decl) : List Ty :=
  d.parts.flatMap fun
    | .type _ => []
    | .node e => r.partTypes (.node e)

theorem anyFinal_iff {r : Resolver} {P : Ty → Prop} {d : Decl} :
    r.AnyFinal P d.parts ↔
      (∃ t ∈ routeTypes r d, P (r.zonk t)) ∨ AnyType (fun t => P (r.zonk t)) d.parts := by
  unfold routeTypes
  induction d.parts with
  | nil => simp
  | cons p ps ih =>
    cases p with
    | type t =>
      simp only [Resolver.anyFinal_cons, Resolver.partTypes_type, ih, List.flatMap_cons,
        List.nil_append, Core.anyType_type, List.mem_singleton, exists_eq_left]
      exact or_left_comm
    | node e =>
      simp only [Resolver.anyFinal_cons, ih, List.flatMap_cons, List.mem_append,
        Core.anyType_node, or_and_right, exists_or, or_assoc]

theorem exists_mem_types_iff {d : Decl} {P : Ty → Prop} :
    (∃ t ∈ d.types, P t) ↔ AnyType P d.parts := by
  obtain ⟨n, sc, body, prim, range⟩ := d
  cases body with
  | none => simp [Core.Decl.types, Core.Decl.parts, Core.Decl.schema, Core.Decl.body]
  | some e =>
    have hterm : AnyType P e.parts ↔ ∃ t ∈ Core.typesOf e.parts, P t := Iff.rfl
    simp [Core.Decl.types, Core.Decl.parts, Core.Decl.schema, Core.Decl.body, or_and_right,
      exists_or, or_assoc, hterm]

/-- The types of a resolved definition: the final forms of its own, and of those on its routes. -/
theorem exists_mem_types_resolved {r : Resolver} {P : Ty → Prop} {d : Decl} {supply : Supply} :
    (∃ t ∈ (r.decl d supply).1.types, P t) ↔
      (∃ t ∈ routeTypes r d, P (r.zonk t)) ∨ ∃ t ∈ d.types, P (r.zonk t) := by
  rw [exists_mem_types_iff, Resolver.anyType_decl, anyFinal_iff, exists_mem_types_iff]

/-- Each variable of a group becomes a parameter of its binding, and the closed definition does
not mention it. The resolved definition mentions it exactly if the final form of a type does that
a route of the definition carries, or that stands in the definition. -/
theorem resolved_mentions_iff {ds out : List Decl} {goals : List Goal} {group : List (Int × Int)}
    {c : Context} {s s' : State} (h : Returns (generalize ds goals group) c s out s') :
    ∃ g : Generalization, g.RunsFrom ds goals group c s ∧ out = g.result ds group ∧
      ∀ e ∈ (g.closings.zip (g.bodies ds)).zip ds, ∀ v ∈ e.1.1.vars, ∀ d,
        d = closeDecl g.simplified.subst group (g.closingOf ds) e.1.1 e.1.2 e.2 →
        (∃ p ∈ d.schema.params, e.1.1.byVar.find? v.id = some p) ∧
        (∀ t ∈ d.types, v.id ∉ t.varIds) ∧
        ∀ (last : State) (supply : Supply),
          (∃ t ∈ ((resolver last).decl d supply).1.types, v.id ∈ t.varIds) ↔
            (∃ t ∈ routeTypes (resolver last) d, v.id ∈ (zonk last.subst t).varIds) ∨
              ∃ t ∈ d.types, v.id ∈ (zonk last.subst t).varIds := by
  obtain ⟨g, hrun, hout, -⟩ := returns_generalize h
  refine ⟨g, hrun, hout, fun e he v hv d hd => ?_⟩
  obtain ⟨_, hdraw⟩ := hrun.draw
  have hdrawn : e.1.1.Drawn := by
    have hmem := (List.of_mem_zip (List.of_mem_zip he).1).1
    exact forall_drawn hdraw _ hmem
  refine ⟨?_, ?_, fun last supply => exists_mem_types_resolved⟩
  · subst hd
    exact hdrawn.find? hv
  · intro t ht hmem
    subst hd
    exact not_anyType_closeDecl hdrawn hv (exists_mem_types_iff.mp ⟨t, ht, hmem⟩)

/-! ## A selection from every element

`it xs = xs.0` for `xs : [?n](?a, ?b)`, when its selector goal has been solved through a goal for
the elements. -/

def pairs : Ty :=
  .seq (.free ⟨1, .num, [], none⟩) (.tuple [.free ⟨2, .type, [], none⟩, .free ⟨3, .type, [], none⟩])

def firstOfEach : Decl :=
  .mk { id := 2, ident := "it" } (.mono (.arrow pairs (.free ⟨5, .type, [], none⟩)))
    (some (.abs { id := 1, ident := "xs" } pairs
      (.pendingSelect 0 (.var { id := 1, ident := "xs" })))) false .empty

def emptyContext : Context :=
  { options := {}, solver := Solver.localRules, prims := [], external := {}, range := .empty }

/-- Variable 4 is what is selected from one element, variable 5 the whole result. -/
def afterSelection : State :=
  { supply := .default, nextTypeVar := 6, nextGoal := 2
    subst := { bindings :=
      [(⟨4, .type, [], none⟩, .free ⟨2, .type, [], none⟩),
        (⟨5, .type, [], none⟩,
          .seq (.free ⟨1, .num, [], none⟩) (.free ⟨4, .type, [], none⟩))] }
    solutions :=
      [(0, .overSeq 1 (.free ⟨1, .num, [], none⟩)
          (.tuple [.free ⟨2, .type, [], none⟩, .free ⟨3, .type, [], none⟩])
          (.free ⟨4, .type, [], none⟩)),
        (1, .direct (.component 0)
          (.tuple [.free ⟨2, .type, [], none⟩, .free ⟨3, .type, [], none⟩]))] }

/-- Whether the definition is closed by generalization and mentions its length once resolved. -/
def lengthComesBack : Bool :=
  match (generalize [firstOfEach] [] []).exec emptyContext afterSelection with
  | (.ok [d], s') =>
    d.schema.params.length == 3 && d.types.all (fun t => t.varIds.isEmpty) &&
      ((resolver s').decl d s'.supply).1.types.any fun t => t.varIds.contains 1
  | _ => false

/-- The definition is closed over three parameters and mentions no variable; once its selection is
resolved it mentions the variable of its length again. -/
theorem firstOfEach_resolved_open : ∃ d s',
    Returns (generalize [firstOfEach] [] []) emptyContext afterSelection [d] s' ∧
    d.schema.params.length = 3 ∧ (∀ t ∈ d.types, t.varIds = []) ∧
    ∃ t ∈ ((resolver s').decl d s'.supply).1.types, (1 : Int) ∈ t.varIds := by
  have h : lengthComesBack = true := by decide +kernel
  unfold lengthComesBack at h
  split at h
  · rename_i d s' heq
    simp only [Bool.and_eq_true, beq_iff_eq, List.all_eq_true, List.isEmpty_iff, List.any_eq_true,
      List.contains_iff_mem] at h
    exact ⟨d, s', heq, h.1.1, h.1.2, h.2⟩
  · cases h

/-- What becomes of the variables of `firstOfEach`: each is a parameter of the closed definition,
which does not mention it, and comes back with the final form of a type that does. -/
theorem resolved_mentions_iff_firstOfEach : ∃ d s',
    Returns (generalize [firstOfEach] [] []) emptyContext afterSelection [d] s' ∧
    ∃ g : Generalization, g.RunsFrom [firstOfEach] [] [] emptyContext afterSelection ∧
      [d] = g.result [firstOfEach] [] ∧
      ∀ e ∈ (g.closings.zip (g.bodies [firstOfEach])).zip [firstOfEach], ∀ v ∈ e.1.1.vars,
        ∀ d', d' = closeDecl g.simplified.subst [] (g.closingOf [firstOfEach]) e.1.1 e.1.2 e.2 →
        (∃ p ∈ d'.schema.params, e.1.1.byVar.find? v.id = some p) ∧
        (∀ t ∈ d'.types, v.id ∉ t.varIds) ∧
        ((∃ t ∈ ((resolver s').decl d' s'.supply).1.types, v.id ∈ t.varIds) ↔
          (∃ t ∈ routeTypes (resolver s') d', v.id ∈ (zonk s'.subst t).varIds) ∨
            ∃ t ∈ d'.types, v.id ∈ (zonk s'.subst t).varIds) := by
  have h : lengthComesBack = true := by decide +kernel
  unfold lengthComesBack at h
  split at h
  · rename_i d s' heq
    obtain ⟨g, hg, hout, hall⟩ := resolved_mentions_iff heq
    refine ⟨d, s', heq, g, hg, hout, fun e he v hv d' hd' => ?_⟩
    obtain ⟨hparam, hclosed, hresolved⟩ := hall e he v hv d' hd'
    exact ⟨hparam, hclosed, hresolved s' s'.supply⟩
  · cases h

end SizedTypes.Infer
