import SizedTypes.Infer.Monad
import SizedTypes.Unify

/-!
# Expected types

A term is checked against the type that its surroundings expect. Unification records a failure
as an error and goes on; equalities of sizes that it cannot decide become goals.
-/

set_option autoImplicit false

namespace SizedTypes

/-- The type that a term must have, and why. -/
structure Expected where
  type : Ty
  source : TypeSource
deriving Inhabited

namespace Infer

/-- The error of a failed unification. -/
def unifyFailure (src : TypeSource) : UnifyError → TypeError
  | .kindMismatch _ _ lk rk => .kindMismatch (some src) lk rk
  | .recursive l r => .recursiveType (some src) l r
  | .escape _ r ps => .escapedParams (some src) r ps
  | .typeMismatch l r | .lengthMismatch l r => .typeMismatch (some src) l r

/-- Unify the expected with the actual type of a term. -/
def unifyFrom (src : GoalSource) (exp : Expected) (actual : Ty) : Infer Unit := do
  let s := (← get).subst
  match unify s (s.apply exp.type) (s.apply actual) with
  | .error e => recordError (unifyFailure exp.source e)
  | .ok u =>
    mergeSubst u.subst
    addGoals src u.props

def unifyExact (exp : Expected) (actual : Ty) : Infer Unit := unifyFrom .exactType exp actual

/-- Split an expected function type into argument types, counted from `i`, and a result. -/
def expectArrow (src : TypeSource) : Nat → Nat → Ty → Infer (List Ty × Ty)
  | 0, _, res => return ([], res)
  | n + 1, i, res => do
    match (← applied res).asArrow? with
    | some (a, b) =>
      let (args, res) ← expectArrow src n (i + 1) b
      return (a :: args, res)
    | none =>
      let a ← freshType .type (.argument i)
      let b ← freshType .type .result
      unifyExact ⟨res, src⟩ (.arrow a b)
      let (args, res) ← expectArrow src n (i + 1) b
      return (a :: args, res)

/-- The element types of an expected tuple of `n` elements. -/
def expectTuple (n : Nat) (exp : Expected) : Infer (List Ty) := do
  match (← applied exp.type).asTuple?.filter fun ts => ts.length == n with
  | some ts => return ts
  | none =>
    let ts ← (List.range n).mapM fun (i : Nat) => freshType .type (.tupleField i)
    unifyExact exp (.tuple ts)
    return ts

/-- The field types of an expected record with exactly these labels. -/
def expectRecord (labels : List String) (exp : Expected) : Infer (Table String Ty) := do
  let known := (← applied exp.type).asRecord?.filter fun fs =>
    fs.length == labels.length && labels.all fun l => Table.has l fs
  match known with
  | some fs => return fs
  | none =>
    let fields ← labels.mapM fun l => return (l, ← freshType .type (.recordField l))
    let fs := Table.ofList fields
    unifyExact exp (.record fs)
    return fs

/-- Length and element type of an expected sequence. -/
def expectSeq (exp : Expected) : Infer (Ty × Ty) := do
  match (← applied exp.type).asSeq? with
  | some r => return r
  | none =>
    let n ← freshType .num .seqLength
    let elem ← freshType .type .seqElement
    unifyExact exp (.seq n elem)
    return (n, elem)

end Infer
end SizedTypes
