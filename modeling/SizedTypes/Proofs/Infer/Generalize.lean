import SizedTypes.Infer.Generalize
import SizedTypes.Proofs.Core.Types
import SizedTypes.Proofs.Infer.Monad
import SizedTypes.Proofs.Quantify
import SizedTypes.Proofs.Subst.Image

/-!
# Generalized groups

What closing a definition over the parameters of a group leaves: no variable that has become a
parameter occurs in the closed definition.
-/

set_option autoImplicit false

namespace SizedTypes

open SizedTypes.Core (AnyType Decl Term)

namespace Infer

/-! ## Closed definitions -/

/-- The parameters of a closing stand for its variables. -/
def Closing.Drawn (c : Closing) : Prop :=
  ∃ next, (c.params, c.byVar) = ((quantifyVars c.vars next).1, (quantifyVars c.vars next).2.1)

theorem Closing.Drawn.find? {c : Closing} (h : c.Drawn) {v : TyVar} (hv : v ∈ c.vars) :
    ∃ p ∈ c.params, c.byVar.find? v.id = some p := by
  obtain ⟨next, heq⟩ := h
  obtain ⟨hparams, hby⟩ := Prod.mk.inj heq
  rw [hparams, hby]
  exact find?_quantifyVars hv next

variable {c : Closing} {s : Subst} {group : List (Int × Int)} {closing : Int → Option Closing}
  {body : Ty} {d : Decl} {v : TyVar}

theorem anyType_instantiated {P : Ty → Prop} {e : Term} {args : List Ty} {proofs : Nat} :
    AnyType P (e.instantiated args proofs).parts ↔ AnyType P e.parts ∨ ∃ t ∈ args, P t := by
  have htypes : ∀ (as : List Ty) (e : Term), AnyType P (as.foldl Term.typeApp e).parts ↔
      AnyType P e.parts ∨ ∃ t ∈ as, P t := by
    intro as
    induction as with
    | nil => simp
    | cons a as ih =>
      intro e
      rw [List.foldl_cons, ih]
      simp [Term.parts, or_assoc]
  have hproofs : ∀ (us : List Unit) (e : Term),
      AnyType P (us.foldl (fun e _ => Term.proofApp e) e).parts ↔ AnyType P e.parts := by
    intro us
    induction us with
    | nil => simp
    | cons u us ih =>
      intro e
      rw [List.foldl_cons, ih]
      simp [Term.parts]
  rw [Term.instantiated, hproofs, htypes]

theorem anyType_generalized {P : Ty → Prop} {e : Term} {params : List Param} {props : List Ty} :
    AnyType P (e.generalized params props).parts ↔ AnyType P e.parts ∨ ∃ t ∈ props, P t := by
  have hparams : ∀ e' : Term, AnyType P (params.foldr Term.typeAbs e').parts ↔
      AnyType P e'.parts := by
    intro e'
    induction params with
    | nil => simp
    | cons p ps ih => simpa [Term.parts] using ih
  have hprops : AnyType P (props.foldr Term.proofAbs e).parts ↔
      AnyType P e.parts ∨ ∃ t ∈ props, P t := by
    induction props with
    | nil => simp
    | cons p ps ih =>
      simp only [List.foldr_cons, Term.parts, Core.anyType_node, Core.anyType_type, ih,
        List.exists_mem_cons_iff]
      exact or_left_comm
  rw [Term.generalized, hparams, hprops]

/-- A closed definition mentions no variable that has become a parameter of it. -/
theorem not_anyType_closeDecl (hc : c.Drawn) (hv : v ∈ c.vars) :
    ¬AnyType (fun t => v.id ∈ t.varIds) (closeDecl s group closing c body d).parts := by
  obtain ⟨p, -, hp⟩ := hc.find? hv
  have hquant : ∀ t : Ty, v.id ∉ (t.quantify c.byVar).varIds :=
    fun t => Ty.not_mem_varIds_quantify hp
  have hclose : ∀ t, v.id ∉ (c.close s t).varIds := fun t => hquant _
  -- the arguments of recursive uses are closed types
  have huse : ∀ n token e, recursiveUse group closing (c.close s) n token = some e →
      ¬AnyType (fun t => v.id ∈ t.varIds) e.parts := by
    intro n token e he
    unfold recursiveUse at he
    split at he
    · obtain ⟨callee, -, rfl⟩ := Option.map_eq_some_iff.mp he
      rw [anyType_instantiated]
      simp [Term.parts, hclose]
    · cases he
  unfold closeDecl
  cases hb : d.body with
  | none => simp [Core.Decl.parts, Schema.generalize, hquant]
  | some e =>
    have hterm := e.anyType_substitute hclose huse
    simp [Core.Decl.parts, Schema.generalize, hquant, anyType_generalized, hterm]

/-! ## The run -/

/-- What a run of `generalize` passes through: the state once selectors are solved, the state once
defaults are taken, what simplification leaves of the goals and the state after it, and the
closings with the parameters drawn for them. -/
structure Generalization where
  selected : State
  defaulted : State
  left : List Goal
  simplified : State
  closings : List Closing
  drawn : State

namespace Generalization

variable (g : Generalization) (ds : List Decl) (goals : List Goal) (group : List (Int × Int))

def startBodies : List Ty := ds.map fun d => g.selected.subst.apply d.schema.body

def startGoals : List Goal :=
  goals.map fun e => { e with prop := g.selected.subst.apply e.prop }

/-- The ids of the variables that the group may quantify. -/
def candidates : List Int :=
  (Ty.freeIds (g.startBodies ds ++ (g.startGoals goals).map Goal.prop)).filter fun i =>
    !(environmentIds group g.selected).contains i

def here : List Goal :=
  (g.startGoals goals).filter fun e => e.prop.mentions (g.candidates ds goals group)

def ambiguous : List TyVar :=
  (Ty.freeVars ((g.here ds goals group).map Goal.prop)).filter fun v =>
    (g.candidates ds goals group).contains v.id && !(Ty.freeIds (g.startBodies ds)).contains v.id

/-- The types of the bindings, final as far as the group goes. -/
def bodies : List Ty := (g.startBodies ds).map g.simplified.subst.apply

/-- The predicates that the group keeps. -/
def props : List Ty :=
  (g.left.filter fun e => e.prop.mentions (g.candidates ds goals group)).map Goal.prop

/-- The variables that the group quantifies. -/
def vars : List TyVar :=
  (Ty.freeVars (g.bodies ds ++ g.props ds goals group)).filter fun v =>
    (g.candidates ds goals group).contains v.id

/-- The closing of a binding, by the id of its name. -/
def closingOf (id : Int) : Option Closing :=
  (Table.ofList ((ds.map fun d => d.name.id).zip g.closings)).find? id

def result : List Decl :=
  ((g.closings.zip (g.bodies ds)).zip ds).map fun e =>
    closeDecl g.simplified.subst group (g.closingOf ds) e.1.1 e.1.2 e.2

/-- `g` is what a run passes through from `s`. -/
structure RunsFrom (c : Context) (s : State) : Prop where
  selectors : Returns solveSelectors c s ⟨⟩ g.selected
  defaults : ∃ outer, Returns (defaultVars (g.ambiguous ds goals group) (g.here ds goals group)) c
    { g.selected with goals := g.selected.goals ++ outer } ⟨⟩ g.defaulted
  simplify : Returns (simplifyGoals (g.here ds goals group)) c g.defaulted g.left g.simplified
  draw : ∃ outer, Returns ((Infer.closings (g.bodies ds) (g.vars ds goals group)
    (g.props ds goals group)).mapM Closing.draw) c
    { g.simplified with goals := g.simplified.goals ++ outer } g.closings g.drawn

end Generalization

theorem state_of_draw {cl cl' : Closing} {c : Context} {s s' : State}
    (h : Returns cl.draw c s cl' s') : ∃ nextTypeVar draws, s' = { s with nextTypeVar, draws } := by
  unfold Closing.draw at h
  simp only [returns_bind, returns_get, returns_set, returns_pure] at h
  obtain ⟨_, _, ⟨rfl, rfl⟩, ⟨⟩, _, rfl, -, rfl⟩ := h
  exact ⟨_, _, rfl⟩

theorem drawn_of_returns {cl cl' : Closing} {c : Context} {s s' : State}
    (h : Returns cl.draw c s cl' s') :
    cl'.Drawn ∧ cl' = { cl with params := cl'.params, byVar := cl'.byVar } := by
  unfold Closing.draw at h
  simp only [returns_bind, returns_get, returns_set, returns_pure] at h
  obtain ⟨_, _, ⟨rfl, rfl⟩, ⟨⟩, _, rfl, rfl, rfl⟩ := h
  exact ⟨⟨_, rfl⟩, rfl⟩

/-- Parameters are drawn for one closing after the other. -/
theorem forall₂_drawn {cls cls' : List Closing} {c : Context} {s s' : State}
    (h : Returns (cls.mapM Closing.draw) c s cls' s') :
    List.Forall₂ (fun cl cl' => cl'.Drawn ∧
      cl' = { cl with params := cl'.params, byVar := cl'.byVar }) cls cls' := by
  induction cls generalizing cls' s with
  | nil =>
    rw [(returns_mapM_nil.mp h).1]
    exact .nil
  | cons cl cls ih =>
    rw [returns_mapM_cons] at h
    obtain ⟨cl', s₁, rest, hcl, hrest, rfl⟩ := h
    exact .cons (drawn_of_returns hcl) (ih hrest)

theorem forall_drawn {cls cls' : List Closing} {c : Context} {s s' : State}
    (h : Returns (cls.mapM Closing.draw) c s cls' s') : ∀ cl ∈ cls', cl.Drawn := by
  have hdrawn := forall₂_drawn h
  clear h
  induction hdrawn with
  | nil => exact List.forall_mem_nil _
  | cons h _ ih => exact List.forall_mem_cons.mpr ⟨h.1, ih⟩

theorem state_of_draws {cls cls' : List Closing} {c : Context} {s s' : State}
    (h : Returns (cls.mapM Closing.draw) c s cls' s') :
    ∃ nextTypeVar draws, s' = { s with nextTypeVar, draws } := by
  induction cls generalizing cls' s with
  | nil => exact ⟨s.nextTypeVar, s.draws, (returns_mapM_nil.mp h).2⟩
  | cons cl cls ih =>
    rw [returns_mapM_cons] at h
    obtain ⟨cl', s₁, rest, hcl, hrest, -⟩ := h
    obtain ⟨next, draws, rfl⟩ := state_of_draw hcl
    obtain ⟨last, total, rfl⟩ := ih hrest
    exact ⟨last, total, rfl⟩

theorem state_of_traces {α : Type} {event : α → Event} {xs : List α} {a : Unit} {c : Context}
    {s s' : State} (h : Returns (xs.forM fun x => trace (event x)) c s a s') :
    ∃ events, s' = { s with events } := by
  induction xs generalizing s with
  | nil =>
    simp only [List.forM_eq_forM, List.forM_nil, returns_pure] at h
    exact ⟨s.events, h.2⟩
  | cons x xs ih =>
    rw [List.forM_eq_forM, List.forM_cons, returns_bind] at h
    obtain ⟨⟨⟩, s₁, hx, h⟩ := h
    obtain rfl := returns_modify.mp hx
    obtain ⟨events, rfl⟩ := ih h
    exact ⟨events, rfl⟩

/-- Goals about none of the candidates go to the store, those of the bindings before defaults are
taken and those that simplification leaves at the end. -/
theorem stores_generalize {ds out : List Decl} {goals : List Goal} {group : List (Int × Int)}
    {c : Context} {s s' : State} (h : Returns (generalize ds goals group) c s out s') :
    ∃ g : Generalization, g.RunsFrom ds goals group c s ∧ out = g.result ds group ∧
      Returns (defaultVars (g.ambiguous ds goals group) (g.here ds goals group)) c
        { g.selected with goals := g.selected.goals ++ (g.startGoals goals).filter fun e =>
          !e.prop.mentions (g.candidates ds goals group) } ⟨⟩ g.defaulted ∧
      ∃ events, s' = { g.simplified with
        goals := g.simplified.goals ++
          g.left.filter fun e => !e.prop.mentions (g.candidates ds goals group)
        nextTypeVar := g.drawn.nextTypeVar
        draws := g.drawn.draws
        events } := by
  unfold generalize at h
  simp only [returns_bind, returns_get, returns_modify, returns_pure,
    List.partition_eq_filter_filter] at h
  obtain ⟨⟨⟩, st, hst, _, _, ⟨rfl, rfl⟩, ⟨⟩, _, rfl, ⟨⟩, s₁, hdefault, left, s₂, hsimplify, _, _,
    ⟨rfl, rfl⟩, ⟨⟩, _, rfl, cs, s₃, hdraw, ⟨⟩, _, htrace, hout, rfl⟩ := h
  obtain ⟨next, draws, hdrawn⟩ := state_of_draws hdraw
  obtain ⟨events, hlast⟩ := state_of_traces htrace
  refine ⟨⟨_, s₁, left, _, cs, s₃⟩, ⟨hst, ⟨_, hdefault⟩, hsimplify, ⟨_, hdraw⟩⟩, hout, hdefault,
    events, ?_⟩
  rw [hlast, hdrawn]
  rfl

theorem returns_generalize {ds out : List Decl} {goals : List Goal} {group : List (Int × Int)}
    {c : Context} {s s' : State} (h : Returns (generalize ds goals group) c s out s') :
    ∃ g : Generalization, g.RunsFrom ds goals group c s ∧ out = g.result ds group ∧
      s'.subst = g.simplified.subst := by
  obtain ⟨g, hrun, hout, -, events, hlast⟩ := stores_generalize h
  exact ⟨g, hrun, hout, by rw [hlast]⟩

end Infer
end SizedTypes
