import SizedTypes.Infer.Expect
import SizedTypes.Infer.Kinding
import SizedTypes.Core.Term
import SizedTypes.Quantify

/-!
# Uses of variables and primitives

A use instantiates the schema of the variable, with explicit type arguments where they are
written, and emits the predicates of the instance.
-/

set_option autoImplicit false

namespace SizedTypes.Infer

open Surface (TypeArg)
open SizedTypes.Core (Term)

/-- A schema at given types and fresh variables. -/
def instantiate (sc : Schema) (given : Table Int Ty) (source : Nat → Param → TypeSource) :
    Infer Instance := do
  let s ← get
  let (inst, next) := sc.freshInstance given s.params (fun i p => some (source i p)) s.nextTypeVar
  let drawn := sc.params.countP fun p => !given.has p.id
  set { s with nextTypeVar := next, draws := s.draws + drawn }
  return inst

/-! ## Explicit type arguments -/

/-- Arguments by position, from position `i` on. -/
def positionalArgs (callee : Name) (params : List Param) :
    Nat → List TypeArg → Table Int Ty → Infer (Table Int Ty)
  | _, [], given => return given
  | i, a :: as, given => do
    match params[i]? with
    | none =>
      recordError (.tooManyPositionalArgs callee)
      return given
    | some p =>
      let t ← checkType a.type p.kind
      positionalArgs callee params (i + 1) as (given.insert p.id t)

/-- Arguments by name. -/
def namedArgs (callee : Name) (params : List Param) :
    List TypeArg → Table Int Ty → Infer (Table Int Ty)
  | [], given => return given
  | a :: as, given => do
    let label := a.name.getD ""
    match params.find? fun p => p.name.any fun n => n.ident == label with
    | none =>
      recordError (.undefinedTypeParam callee label)
      namedArgs callee params as given
    | some p =>
      let t ← checkType a.type p.kind
      namedArgs callee params as (given.insert p.id t)

/-- The types given for the parameters of a schema, by parameter id. -/
def typeArgs (callee : Name) (sc : Schema) (args : List TypeArg) : Infer (Table Int Ty) := do
  if args.all fun a => a.name.isNone then positionalArgs callee sc.params 0 args []
  else if args.all fun a => a.name.isSome then namedArgs callee sc.params args []
  else
    recordError .mixedTypeArgs
    return []

/-! ## Variables -/

/-- A use of a variable. -/
def checkVar (n : Name) (args : List TypeArg) (exp : Expected) : Infer Term := do
  match ← lookupVar n with
  | .inGroup token name t =>
    match args with
    | [] => pure ()
    | a :: _ =>
      let arg ← checkType a.type .unknown
      recordError (.unexpectedTypeArgs args.length arg.kindOf)
    unifyExact exp t
    return .groupVar name token
  | .known schema =>
    let sc := (← get).subst.applySchema schema
    let given ← typeArgs n sc args
    let inst ← instantiate sc given fun i p => match p.name with
      | some param => .typeArgNamed n param.ident
      | none => .typeArgAt n i
    addGoals (.use n) inst.props
    unifyExact exp inst.body
    return (Term.var n).instantiated inst.args inst.props.length

/-! ## Primitives -/

/-- A call of a primitive at named type arguments. -/
def checkPrim (src : GoalSource) (ident : String) (args : List (String × Ty)) (exp : Expected) :
    Infer Term := do
  let n ← prim ident
  let schema ← match ← lookupVar n with
    | .known schema => pure schema
    | .inGroup _ _ _ => throw (InternalError.primitiveUndefined n)
  let sc := (← get).subst.applySchema schema
  let nameOf (p : Param) : Option String := p.name.map Name.ident
  match args.find? fun a => !sc.params.any fun p => nameOf p == some a.1 with
  | some a => throw (InternalError.primitiveLacksParam ident a.1)
  | none => pure ()
  let given := Table.ofList <| sc.params.filterMap fun p =>
    ((nameOf p).bind fun l => args.lookup l).map fun t => (p.id, t)
  let inst ← instantiate sc given fun i _ => .typeArgAt n i
  addGoals src inst.props
  unifyExact exp inst.body
  return (Term.var n).instantiated inst.args inst.props.length

end SizedTypes.Infer
