import SizedTypes.Infer.Expect

/-!
# Selector goals

A selection is solved once the type of its record is known. Selecting from a sequence selects
from each element, and from a function from its results; the goal is then solved through a goal
for the inner type.
-/

set_option autoImplicit false

namespace SizedTypes.Infer

def setSolution (id : Int) (soln : Solution) : Infer Unit :=
  modify fun s => { s with solutions := s.solutions.insert id soln }

/-- The component of a type that a selector picks without lifting. -/
def component? (sel : Selector) (record : Ty) : Option Ty :=
  match sel, record with
  | .field l, .record fields => Table.find? l fields
  | .field l, .newtype _ ps fields args => Table.find? l (Newtype.fieldsAt ps fields args)
  | .component i, .con (.tuple _) ts => if i < 0 then none else ts[i.toNat]?
  | .element _, .con .seq (_ :: a :: _) => some a
  | _, _ => none

/-- Picking an element requires a finite sequence that is long enough. -/
def componentGoals (sel : Selector) (record : Ty) : List Ty :=
  match sel, record with
  | .element i, .con .seq (n :: _) => [.fin n, .geq n (.num (Word.next i))]
  | _, _ => []

/-- Select from each element of a sequence. -/
def liftSeq (g : SelectorGoal) (len elem : Ty) : Infer Unit := do
  let inner ← freshType .type .seqElement
  unifyFrom .selector ⟨g.field, .seqElement⟩ (.seq len inner)
  let sub ← newSelectorGoal g.sel elem inner
  setSolution g.id (.overSeq sub len elem inner)

/-- Select from the results of a function. -/
def liftArrow (g : SelectorGoal) (arg res : Ty) : Infer Unit := do
  let inner ← freshType .type .result
  unifyFrom .selector ⟨g.field, .result⟩ (.arrow arg inner)
  let sub ← newSelectorGoal g.sel res inner
  setSolution g.id (.overArrow sub arg)

/-- Solve a selector goal whose record type, under the bindings so far, is `record`. -/
def solveSelectorAt (g : SelectorGoal) (record : Ty) : Infer Unit := do
  match component? g.sel record.expand, record.expand with
  | some t, r =>
    unifyFrom .selector ⟨g.field, .recordField g.sel.text⟩ t
    addGoals .selector (componentGoals g.sel r)
    setSolution g.id (.direct g.sel record)
  | none, .con .seq (n :: a :: _) => liftSeq g n a
  | none, .con .arrow (a :: b :: _) => liftArrow g a b
  | none, _ =>
    recordError (.missingField g.sel record)
    setSolution g.id (.direct g.sel record)

/-- Solve a selector goal if the type of its record is known. -/
def solveSelector (g : SelectorGoal) : Infer Bool := do
  let record ← applied g.record
  match record.expand with
  | .free _ => return false
  | _ =>
    withRange g.range (solveSelectorAt g record)
    return true

/-- Try each of the goals; those that are not solved go back to the pending ones. -/
def solveSelectorsOnce : List SelectorGoal → Infer Bool
  | [] => return false
  | g :: gs => do
    let solved ← solveSelector g
    if !solved then modify fun s => { s with pending := s.pending ++ [g] }
    let more ← solveSelectorsOnce gs
    return solved || more

/-- Rounds over the pending goals until one makes no progress. -/
def solveSelectorRounds : Nat → Infer Unit
  | 0 => return ()
  | fuel + 1 => do
    let goals := (← get).pending
    modify fun s => { s with pending := [] }
    if ← solveSelectorsOnce goals then solveSelectorRounds fuel

/-- A bound on the rounds of the selector solver. A round that goes on takes goals apart at
smaller types, so the nodes of the record types bound the rounds while these are known. The
constant leaves room for records that become known on the way; only a record type that unfolds
without end uses it up. -/
def selectorRounds (s : State) : Nat :=
  100000 + Ty.sizeList (s.pending.map fun g => s.subst.apply g.record)

/-- Solve the selector goals whose record types are known by now. -/
def solveSelectors : Infer Unit := do
  let s ← get
  solveSelectorRounds (selectorRounds s)

end SizedTypes.Infer
