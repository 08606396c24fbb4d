import SizedTypes.Schema

/-!
# Fresh instances and quantification

A schema is used at fresh variables, and variables become the parameters of a schema. Variables
and parameters draw their ids from one counter, so no parameter has the id of a variable.
-/

set_option autoImplicit false

namespace SizedTypes

/-- A schema at the given types. -/
structure Instance where
  args : List Ty
  props : List Ty
  body : Ty
deriving Inhabited

/-- The arguments of a schema: the given types, and fresh variables for the other parameters.
`source` says for the parameter at a position where its variable comes from. -/
def freshArgs (given : Table Int Ty) (scope : List Param)
    (source : Nat → Param → Option TypeSource) : Nat → List Param → Int → List Ty × Int
  | _, [], next => ([], next)
  | i, p :: ps, next =>
    match given.find? p.id with
    | some t =>
      let (ts, next) := freshArgs given scope source (i + 1) ps next
      (t :: ts, next)
    | none =>
      let v := TyVar.ofScope next p.kind scope (source i p)
      let (ts, next) := freshArgs given scope source (i + 1) ps (Word.next next)
      (.free v :: ts, next)

/-- A schema at given types and fresh variables, and the next unused id. -/
def Schema.freshInstance (sc : Schema) (given : Table Int Ty) (scope : List Param)
    (source : Nat → Param → Option TypeSource) (next : Int) : Instance × Int :=
  let (args, next) := freshArgs given scope source 0 sc.params next
  let (props, body) := sc.instantiate args
  (⟨args, props, body⟩, next)

/-- Variables in the order of their parameters: sizes first, otherwise as they come. -/
def paramOrder (vs : List TyVar) : List TyVar :=
  (vs.filter fun v => v.kind == .num) ++ vs.filter fun v => v.kind != .num

/-- A fresh parameter for each variable. -/
def freshParams : List TyVar → Int → List Param × Int
  | [], next => ([], next)
  | v :: vs, next =>
    let (ps, last) := freshParams vs (Word.next next)
    ({ id := next, kind := v.kind } :: ps, last)

/-- The parameters that variables become: in order, by variable id, and the next unused id. -/
def quantifyVars (vs : List TyVar) (next : Int) : List Param × Table Int Param × Int :=
  let ordered := paramOrder vs
  let (ps, next) := freshParams ordered next
  (ps, Table.ofList ((ordered.map TyVar.id).zip ps), next)

/-- Close predicates and a body over parameters. -/
def Schema.generalize (params : List Param) (m : Table Int Param) (props : List Ty) (body : Ty) :
    Schema :=
  { params, props := props.map (Ty.quantify m), body := body.quantify m }

end SizedTypes
