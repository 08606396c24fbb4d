import SizedTypes.Infer.Generalize
import SizedTypes.Infer.Patterns
import SizedTypes.Surface.Expr

/-!
# Bindings and groups

How a binding is checked, given a way to check its body. Bindings with signatures are checked
against them. The others of a group are generalized together, unless the group is monomorphic. In
a recursive group the generalized bindings come first and see each other at their types so far;
the remaining ones then see the generalized schemas.
-/

set_option autoImplicit false

namespace SizedTypes.Infer

open Surface (Bind Pattern)
open SizedTypes.Core (Decl Group Term)

/-- A way to check a body against an expected type. -/
abbrev Checker : Type := Expected → Infer Term

/-! ## Functions -/

/-- Check the parameters of a function from position `i` on; each is in scope for those after
it. -/
def checkParams : Nat → List Pattern → List Ty → Infer (List Matched)
  | i, p :: ps, t :: ts => do
    let m ← checkPattern p ⟨t, .argument i⟩
    m.vars.forM fun v => declareMono v.1 v.2
    return m :: (← checkParams (i + 1) ps ts)
  | _, _, _ => return []

/-- Local definitions around a term. -/
def underDecls (ds : List Decl) (e : Term) : Term :=
  if ds.isEmpty then e else .block e (Group.singles ds)

/-- Check a function: its parameters are monomorphic variables of the body. -/
def checkLambda (params : List Pattern) (exp : Expected) (body : Checker) : Infer Term := do
  if params.isEmpty then body exp
  else
    let (ts, res) ← expectArrow exp.source params.length 0 exp.type
    let ms ← checkParams 0 params ts
    let out ← body ⟨res, .result⟩
    unstash (ms.flatMap Matched.vars).length
    let out := underDecls (ms.flatMap Matched.decls) out
    return (ms.zip ts).foldr (fun e body => .abs e.1.name e.2 body) out

/-! ## Bindings -/

/-- Open a scope for existential variables. -/
def withExistentials {α : Type} (act : Infer α) : Infer α := do
  modify fun s => { s with existentials := [] :: s.existentials }
  let a ← act
  modify fun s => { s with existentials := s.existentials.tail }
  return a

/-- Check a binding at a type. -/
def checkMono (b : Bind) (t : Ty) (body : Checker) : Infer Decl :=
  withRange b.range do
    let e ← body ⟨t, .definition b.name⟩
    return .mk b.name (.mono t) (some e) false b.range

/-- Check a binding against its signature. -/
def checkSigned (b : Bind) (sc : Schema) (body : Checker) : Infer Decl :=
  withRange b.range do
    if b.prim then return .mk b.name sc none true b.range
    let e ← withParams sc.params sc.props do
      let (e, goals) ← collectGoals do
        let e ← body ⟨sc.body, .definition b.name⟩
        simplifyStore false
        return e
      proveSignature (.signature b.name) sc.params goals
      return e
    return .mk b.name sc (some (e.generalized sc.params sc.props)) false b.range

/-- Check a binding that is never generalized. -/
def checkSingle (b : Bind) (body : Checker) : Infer Decl := do
  match b.signature with
  | some sig => checkSigned b (← checkSignature sig) body
  | none => checkMono b (← freshType .type (.definition b.name)) body

/-! ## Groups -/

/-- What is known about the bindings of a group before their bodies are checked. Tables are by
the ids of names. -/
structure Plan where
  mono : Bool
  signatures : Table Int Schema := []
  /-- Types of the bindings that are not generalized. -/
  monos : Table Int Ty := []
  /-- Tokens and types of the bindings to generalize. -/
  general : Table Int (Int × Ty) := []
  /-- The number of variables declared for recursive uses. -/
  declared : Nat := 0
deriving Inhabited

/-- Whether a binding is to be generalized. -/
def Plan.generalizes (plan : Plan) (b : Bind) : Bool := b.signature.isNone && !plan.mono

/-- Declare a binding for recursive uses. -/
def Plan.declare (plan : Plan) (recursive : Bool) (n : Name) (v : VarType) : Infer Plan := do
  if recursive then
    Infer.declare n v
    return { plan with declared := plan.declared + 1 }
  else return plan

/-- Plan one binding. -/
def Plan.add (plan : Plan) (recursive : Bool) (b : Bind) : Infer Plan :=
  withRange b.range do
    match b.signature with
    | some sig =>
      let sc ← checkSignature sig
      let plan := { plan with signatures := plan.signatures.insert b.name.id sc }
      plan.declare recursive b.name (.known sc)
    | none =>
      if b.prim then throw (.primitiveWithoutSignature b.name)
      let v ← freshVar .type (.definition b.name)
      if plan.mono then
        let plan := { plan with monos := plan.monos.insert b.name.id (.free v) }
        plan.declare recursive b.name (.known (.mono (.free v)))
      else
        let plan := { plan with general := plan.general.insert b.name.id (v.id, .free v) }
        plan.declare recursive b.name (.inGroup v.id b.name (.free v))

/-- Plan a group. Local groups are monomorphic where the options say so, and any group with a
binding marked so. -/
def planGroup (top recursive : Bool) (binds : List Bind) : Infer Plan := do
  let mono := ((← read).options.monoBinds && !top) || binds.any Bind.mono
  trace (.checkingGroup (binds.map fun b => b.name.text) recursive top mono)
  binds.foldlM (fun plan b => plan.add recursive b) { mono }

/-- Check the bindings to generalize, then generalize them together. -/
def generalizeGroup (plan : Plan) (general : Infer (List Decl)) : Infer (List Decl) := do
  if plan.general.isEmpty then return []
  let (ds, goals) ← collectGoals do
    let ds ← general
    simplifyStore false
    return ds
  generalize ds goals (plan.general.map fun e => (e.1, e.2.1))

/-- Check a group, given how to check its bindings to generalize and the others. -/
def checkGroup (plan : Plan) (recursive : Bool) (binds : List Bind)
    (general others : Infer (List Decl)) : Infer (List Decl) := do
  let finish (declared : Nat) (ds : List Decl) : Infer (List Decl) := do
    unstash declared
    simplifyStore true
    let done : Table Int Decl := Table.ofList (ds.map fun d => (d.name.id, d))
    return binds.filterMap fun b => done.find? b.name.id
  if recursive then
    let gs ← generalizeGroup plan general
    gs.forM fun d => declare d.name (.known d.schema)
    let os ← others
    finish (plan.declared + gs.length) (gs ++ os)
  else
    let os ← others
    let gs ← generalizeGroup plan general
    finish plan.declared (os ++ gs)

end SizedTypes.Infer
