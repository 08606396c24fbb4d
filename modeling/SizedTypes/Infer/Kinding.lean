import SizedTypes.Infer.Monad
import SizedTypes.Surface.TypeExpr

/-!
# Checking written types

A written type is checked against the kind that its surroundings expect. Parameters of a
declaration may leave their kinds open; a use fixes them. Functions on sizes that are not defined
everywhere emit their side conditions, and uses of declared types what these require.
-/

set_option autoImplicit false

namespace SizedTypes

open Surface (TypeExpr TypeParam Signature)

namespace Infer

/-- What the check of one written type keeps to itself. -/
structure Kinding where
  /-- Parameters of the declaration, by the ids of their names. -/
  params : Table Int Param := []
  allowWildcards : Bool
  goals : List Goal := []
deriving Inhabited

/-- Checks of written types. -/
abbrev KindInfer (α : Type) : Type := StateT Kinding Infer α

namespace Kinding

/-- Declare parameters; those without a kind get it from their uses. -/
def declare (ps : List TypeParam) : KindInfer (List Param) :=
  ps.mapM fun p => do
    let prev := ((← getThe State).paramNamed p.name.ident).bind Param.name
    match prev with
    | some n =>
      if n.id ≠ p.name.id then recordWarning (.shadowing "type variable" n)
    | none => pure ()
    let tp ← freshParam p.kind (some p.name)
    modify fun k => { k with params := k.params.insert p.name.id tp }
    return tp

/-- Emit the parts of predicates as goals. -/
def emit (src : GoalSource) (ps : List Ty) : KindInfer Unit := do
  let range ← currentRange
  modify fun k => { k with goals := k.goals ++ (Ty.conjunctsList ps).map fun p => ⟨src, range, p⟩ }

/-- A type in place of one that is wrong. -/
def placeholder (hint : Kind) : KindInfer (Ty × Kind) := do
  let k := hint.orElse .type
  return (← freshType k .errorPlaceholder, k)

/-- The type at the expected kind. A kind that is not determined on either side fits. -/
def atKind (k : Kind) (r : Ty × Kind) : KindInfer Ty := do
  if k.isKnown && r.2.isKnown && k != r.2 then
    recordError (.kindMismatch none k r.2)
    freshType k .errorPlaceholder
  else return r.1

/-- The side conditions of a function on sizes. -/
def sideConditions : SizeOp → List Ty → List Ty
  | .sub, a :: b :: _ => [.geq a b, .fin b]
  | .div, a :: b :: _ | .mod, a :: b :: _ | .ceilDiv, a :: b :: _ | .ceilMod, a :: b :: _ =>
    [.fin a, .geq b (.num 1)]
  | .lengthFromThenTo, a :: b :: c :: _ => [.fin a, .fin b, .fin c, .neq a b]
  | _, _ => []

/-- The head of a type application. -/
inductive Head where
  | builtin (c : Con)
  | synonym (s : TypeSynonym)
  | newtype (nt : Newtype)
  | primitive (pt : PrimType)

namespace Head

def kind : Head → Kind
  | builtin c => c.kind
  | synonym s => s.kind
  | newtype nt => nt.kind
  | primitive pt => pt.kind

/-- The type at the given arguments. -/
def build : Head → List Ty → Ty
  | builtin c, args => .con c args
  | synonym s, args => .synonym s.name args (s.body.instantiate (Schema.assignment s.params args))
  | newtype nt, args => nt.applied args
  | primitive pt, args => pt.applied args

/-- What has to hold at the given arguments, and why. -/
def conditions : Head → List Ty → GoalSource × List Ty
  | builtin (.op f), args => (.partialFun f.text, sideConditions f args)
  | builtin c, _ => (.partialFun c.text, [])
  | synonym s, args => (.use s.name, s.props.map (Ty.instantiate (Schema.assignment s.params args)))
  | newtype nt, args =>
    (.use nt.name, nt.props.map (Ty.instantiate (Schema.assignment nt.params args)))
  | primitive pt, _ => (.use pt.name, pt.props)

end Head

/-- What a written name refers to. -/
inductive Referent where
  | param (p : Param)
  | head (h : Head)
  /-- A parameter of the declaration, applied to arguments. -/
  | appliedParam

/-- Find what a name applied to `arity` arguments refers to. The hint fixes the kind of a
parameter whose kind is open. -/
def resolve (n : Name) (arity : Nat) (hint : Kind) : KindInfer Referent := do
  match (← get).params.find? n.id with
  | some p =>
    if arity > 0 then return .appliedParam
    else
      let p := { p with kind := p.kind.orElse hint }
      modify fun k => { k with params := k.params.insert n.id p }
      return .param p
  | none =>
    let outer := (← getThe State).typeVars.find? n.id
    let moduleParam := (← lookupParamType n.id).map ModuleParam.param
    match if arity = 0 then outer.or moduleParam else none with
    | some p => return .param p
    | none => match ← lookupSynonym n.id with
      | some s => return .head (.synonym s)
      | none => match ← lookupNewtype n.id with
        | some nt => return .head (.newtype nt)
        | none => match ← lookupPrimType n.id with
          | some pt => return .head (.primitive pt)
          | none => throw (InternalError.unboundType n)

/-- An existential variable: that of an open scope, or a new one in the innermost. -/
def existential (ident : String) (k : Kind) : KindInfer Ty := do
  let s ← getThe State
  match s.existentials with
  | [] =>
    recordError (.undefinedExistential ident)
    freshType k .errorPlaceholder
  | innermost :: outer =>
    match (innermost :: outer).findSome? fun scope => scope.lookup ident with
    | some t => return t
    | none =>
      match (s.paramNamed ident).bind Param.name with
      | some n => recordWarning (.shadowing "existential type variable" n)
      | none => pure ()
      let t ← freshType k (.existential ident)
      modifyThe State fun s => { s with existentials := ((ident, t) :: innermost) :: outer }
      return t

/-- Lift a change of place to checks of types. -/
def located {α : Type} (r : Range) (act : KindInfer α) : KindInfer α := fun k => withRange r (act k)

mutual
/-- A written type and its kind. The hint is the expected kind where it is known. -/
def infer : TypeExpr → Kind → KindInfer (Ty × Kind)
  | .located r t, hint => located r (infer t hint)
  | .bit, _ => return (.bit, .type)
  | .num n, _ => return (.num n, .num)
  | .char code, _ => return (.num code, .num)
  | .seq len elem, _ => do
    let n ← atKind .num (← infer len .num)
    let a ← atKind .type (← infer elem .type)
    return (.seq n a, .type)
  | .arrow a b, _ => do
    let a ← atKind .type (← infer a .type)
    let b ← atKind .type (← infer b .type)
    return (.arrow a b, .type)
  | .tuple ts, _ => return (.tuple (← checkEach ts), .type)
  | .record fs, _ => return (.record (Table.ofList (← checkFields fs)), .type)
  | .wildcard, hint => do
    let k := hint.orElse .type
    if !(← get).allowWildcards then recordError .unexpectedWildcard
    return (← freshType k .wildcard, k)
  | .existential ident, hint => do
    let t ← existential ident (hint.orElse .type)
    return (t, t.kindOf)
  | .builtin c args, hint => do
    let n : Name := { id := 0, ident := c.text }
    if c.kind.arity ≠ args.length then
      recordError (.typeArityMismatch n c.kind.arity args.length)
      placeholder hint
    else
      let (args, k) ← checkArgs c.kind args
      let (src, props) := Head.conditions (.builtin c) args
      emit src props
      return (.con c args, k)
  | .named n args, hint => do
    match ← resolve n args.length hint with
    | .param p => return (.bound p, p.kind)
    | .appliedParam =>
      recordError (.typeArityMismatch n 0 args.length)
      placeholder hint
    | .head h =>
      if h.kind.arity ≠ args.length then
        recordError (.typeArityMismatch n h.kind.arity args.length)
        placeholder hint
      else
        let (args, k) ← checkArgs h.kind args
        let (src, props) := h.conditions args
        emit src props
        return (h.build args, k)

/-- Types of values. -/
def checkEach : List TypeExpr → KindInfer (List Ty)
  | [] => return []
  | t :: ts => do
    let t ← atKind .type (← infer t .type)
    return t :: (← checkEach ts)

def checkFields : List (String × TypeExpr) → KindInfer (List (String × Ty))
  | [] => return []
  | (l, t) :: fs => do
    let t ← atKind .type (← infer t .type)
    return (l, t) :: (← checkFields fs)

/-- The arguments of a constructor, and the kind that is left of its kind. -/
def checkArgs : Kind → List TypeExpr → KindInfer (List Ty × Kind)
  | k, [] => return ([], k)
  | .arrow dom cod, t :: ts => do
    let t ← atKind dom (← infer t dom)
    let (ts, k) ← checkArgs cod ts
    return (t :: ts, k)
  | k, _ :: _ => return ([], k)
end

/-- Check a type against an expected kind. -/
def check (t : TypeExpr) (k : Kind) : KindInfer Ty := do atKind k (← infer t k)

/-- Check predicates; conjunctions are taken apart. -/
def checkProps : List TypeExpr → KindInfer (List Ty)
  | [] => return []
  | t :: ts => do
    let p ← check t .prop
    return p.conjuncts ++ (← checkProps ts)

/-- The kinds of parameters at the end of a check; a kind that is still open is that of values. -/
def settle (k : Kinding) (ps : List Param) : List Param :=
  ps.map fun p =>
    let known := k.params.values.find? fun q => q.id == p.id
    { p with kind := ((known.getD p).kind).orElse .type }

/-- Give the occurrences of parameters their final kinds. -/
def settleTy (ps : List Param) (t : Ty) : Ty :=
  t.bind .free fun p => .bound ((ps.find? fun q => q.id == p.id).getD p)

end Kinding

/-- Check a type in an expression or a pattern, where wildcards are allowed. -/
def checkType (t : TypeExpr) (k : Kind) : Infer Ty := do
  let (ty, kinding) ← (Kinding.check t k).run { allowWildcards := true }
  modify fun s =>
    { s with goals := s.goals ++ kinding.goals.map fun g => { g with source := .exactType } }
  return ty

/-- Check a signature. Side conditions become part of it. -/
def checkSignature (s : Signature) : Infer Schema :=
  withRange s.range do
    let (ps, k) ← (Kinding.declare s.params).run { allowWildcards := false }
    let (props, k) ← (Kinding.checkProps s.props).run k
    let (body, k) ← (Kinding.check s.body .type).run k
    let ps := k.settle ps
    let fix := Kinding.settleTy ps
    return { params := ps, props := (props ++ k.goals.map Goal.prop).map fix, body := fix body }

end Infer
end SizedTypes
