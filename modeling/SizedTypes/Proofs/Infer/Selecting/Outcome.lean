import SizedTypes.Proofs.Infer.Selecting.Settling

/-!
# What comes of a selector goal

A goal for a selection from a closed type is solved whatever comes of the goals next to it. Its
variable then stands for the type of the lifted selection, and resolution puts well-typed selections
and updates in place of the terms that wait for it. This takes that all parameters involved are in
scope, and that no other goal is about the variable. Other goals can have errors of their own.
-/

set_option autoImplicit false

namespace SizedTypes

open SizedTypes.Core (Env Term Typed)

namespace Resolver

/-- Whatever waits for the goal is well typed once it is resolved: a selection out of a term of type
`rec` has type `t`, an update of it with a term of type `t` has type `rec`. Resolution can draw as
many names as are asked for. -/
structure Selects (r : Resolver) (goal : Int) (names : ℕ) (rec t : Ty) : Prop where
  select : ∀ {R : Shape → Shape → Prop}, Shape.SizeEquality R → ∀ {Γ : Env} {e : Term}
    {supply : Supply}, (r.term e supply).2.Spare names Γ → Typed R Γ (r.term e supply).1 rec →
    Typed R Γ (r.term (.pendingSelect goal e) supply).1 t
  update : ∀ {R : Shape → Shape → Prop}, Shape.SizeEquality R → ∀ {Γ : Env} {e v : Term}
    {supply : Supply}, (r.term v (r.term e supply).2).2.Spare names Γ →
    Typed R Γ (r.term e supply).1 rec → Typed R Γ (r.term v (r.term e supply).2).1 t →
    Typed R Γ (r.term (.pendingUpdate goal e v) supply).1 rec

end Resolver

namespace Infer

variable {c : Context} {s : State} {g : SelectorGoal} {f : TyVar}

theorem selects_of_route {last : State} {goal : Int} {sel : Selector} {lifts : List Lift}
    {record rec t : Ty} {names : ℕ} (hnames : 2 * lifts.length ≤ names)
    (hlen : lifts.length ≤ last.solutions.length)
    (hroute : ∀ fuel, lifts.length < fuel →
      (resolver last).route fuel goal = ⟨lifts, sel, record⟩)
    (hspans : ∀ R, Shape.SizeEquality R →
      Resolver.Spans R (zonk last.subst) sel record lifts rec t) :
    (resolver last).Selects goal names rec t := by
  have hrouteOf : (resolver last).routeOf goal = ⟨lifts, sel, record⟩ :=
    hroute _ (Nat.lt_succ_of_le hlen)
  constructor
  · intro R hR Γ e supply hspare he
    have heq : ((resolver last).term (.pendingSelect goal e) supply).1 =
        ((resolver last).select goal ((resolver last).term e supply).1
          ((resolver last).term e supply).2).1 := rfl
    rw [heq, Resolver.select, hrouteOf]
    exact (hspans R hR).typed_select hR.toCongruence he (hspare.mono (by omega))
  · intro R hR Γ e v supply hspare he hv
    have heq : ((resolver last).term (.pendingUpdate goal e v) supply).1 =
        ((resolver last).update goal ((resolver last).term e supply).1
          ((resolver last).term v ((resolver last).term e supply).2).1
          ((resolver last).term v ((resolver last).term e supply).2).2).1 := rfl
    rw [heq, Resolver.update, hrouteOf]
    exact (hspans R hR).typed_update hR he hv (hspare.mono hnames)

/-- What comes of a goal for a selection in `n` rounds. It is solved through the goals `ids`, and
none of these is pending any more. If the selector can be lifted to the type of the record, no error
is recorded for these goals, the variable of the goal stands for the type of the lifted selection
from then on, and selections and updates that wait for the goal are resolved at these types.
Otherwise there is one error, for the missing part. -/
structure SelectionSettled (c : Context) (n : ℕ) (s : State) (g : SelectorGoal) (f : TyVar)
    (visits : List Visit) (ids : List Int) (s' : State) : Prop where
  rounds : SelectorRounds c n s visits s'
  errors : s'.errors = s.errors ++ visits.flatMap Visit.errors
  solved : s'.SolvedThrough g.id ids
  done : ∀ h ∈ s'.pending, h.id ∉ ids
  found : ∀ t, g.record.lift g.sel = some t → errorsOf ids visits = [] ∧
    ∀ last, s'.KeptBy last → (last.subst.apply (.free f)).shape = t.shape ∧
      (resolver last).Selects g.id (2 * g.record.size) g.record t
  missing : g.record.lift g.sel = none → ∃ record,
    errorsOf ids visits = [⟨g.range.orElse c.range, .missingField g.sel record⟩]

theorem Settles.settled {I : Set Int} {n : ℕ} {visits : List Visit} {ids : List Int} {s' : State}
    (h : Settles c I n s g f visits ids s') : SelectionSettled c n s g f visits ids s' where
  rounds := h.rounds
  errors := h.rounds.errors
  solved := h.solved
  done x hx := (h.done x hx).2
  found t ht := by
    obtain ⟨herrors, lifts, record, hlen, hsize, hleads⟩ := h.found t ht
    refine ⟨herrors, fun last hlast => ?_⟩
    obtain ⟨hpart, hroute, hspans⟩ := hleads last hlast
    have hkept := hlast.length
    exact ⟨hpart, selects_of_route (by omega) (by omega) hroute hspans⟩
  missing := h.missing

def table : Ty := .seq (.num 3) (.arrow .bit (.tuple [.bit, .integer]))

section Store

variable {gs : List SelectorGoal} {h : SelectorGoal} {i : Int} {W K I : Set Int}

end Store

end Infer
end SizedTypes
