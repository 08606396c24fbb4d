import SizedTypes.Infer.Defaulting
import SizedTypes.Quantify

/-!
# Generalization

The bindings of a group are generalized together. Variables of the environment stay as they are;
goals about none of the others go up to the enclosing group. Variables that occur in goals only
are defaulted where possible, and the rest become parameters. Each binding abstracts over the
variables of its own type and the goals connected to them.
-/

set_option autoImplicit false

namespace SizedTypes.Infer

open SizedTypes.Core (Decl Term)

/-- The types of a variable in the environment that hold variables fast. -/
def VarType.pinned (group : List (Int × Int)) (id : Int) : VarType → List Ty
  | .known sc =>
    if sc.isMono || !(Ty.freeIds [sc.body]).isEmpty then sc.body :: sc.props else []
  | .inGroup token _ t => if group.lookup id == some token then [] else [t]

/-- The ids of variables that may not be generalized: those of the environment, of pending
selector goals and of goals that belong to enclosing groups. -/
def environmentIds (group : List (Int × Int)) (s : State) : List Int :=
  Ty.freeIds <|
    (s.vars.flatMap fun v => VarType.pinned group v.1 v.2).map s.subst.apply
      ++ s.pending.map (fun g => s.subst.apply g.prop)
      ++ s.goals.map fun g => s.subst.apply g.prop

/-- How one binding of a group is generalized. -/
structure Closing where
  /-- Its variables, in the order of their parameters. -/
  vars : List TyVar
  props : List Ty
  /-- Variables of the group outside its schema, at fixed closed types. -/
  others : Subst
  params : List Param := []
  byVar : Table Int Param := []
deriving Inhabited

/-- A closed type for a variable over which no schema abstracts. -/
def closedFor : Kind → Option Ty
  | .num => some (.num 0)
  | .type => some (.tuple [])
  | _ => none

/-- The variables over which a binding abstracts: those of its type and of the goals connected to
them, starting from those of `seeds` as well. -/
def ownIds (body : Ty) (seeds : List Ty) (vars : List TyVar) (props : List Ty) : List Int :=
  let ids := vars.map TyVar.id
  let fixed := (Ty.freeIds (body :: props)).filter fun i => !ids.contains i
  let start := (Ty.freeIds (body :: seeds)).filter fun i => !fixed.contains i
  connectedVars fixed (props.length + 1) start props

/-- Choose what one binding abstracts over. -/
def Closing.of (body : Ty) (seeds : List Ty) (vars : List TyVar) (props : List Ty) : Closing :=
  let own := ownIds body seeds vars props
  let (mine, theirs) := vars.partition fun v => own.contains v.id
  { vars := paramOrder mine
    props := props.filter (Ty.mentions own)
    others := theirs.foldl (fun s v => match closedFor v.kind with
      | some t => s.extendOrSkip v t
      | none => s) .empty }

/-- Close a type: apply the bindings and put parameters in place of variables. -/
def Closing.close (c : Closing) (s : Subst) (t : Ty) : Ty :=
  (c.others.apply (s.apply t)).quantify c.byVar

/-- What the bindings of a group abstract over. Goals that are connected to no binding's type are
kept by every binding. -/
def closings (bodies : List Ty) (vars : List TyVar) (props : List Ty) : List Closing :=
  let used := bodies.flatMap fun b => ownIds b [] vars props
  let orphans := props.filter fun p => !p.mentions used
  bodies.map fun b => Closing.of b orphans vars props

/-- Draw the parameters of a binding. -/
def Closing.draw (c : Closing) : Infer Closing := do
  let s ← get
  let (params, byVar, next) := quantifyVars c.vars s.nextTypeVar
  set { s with nextTypeVar := next, draws := s.draws + params.length }
  return { c with params, byVar }

/-- The term that a use of a binding in its own group becomes. -/
def recursiveUse (group : List (Int × Int)) (closing : Int → Option Closing) (close : Ty → Ty)
    (n : Name) (token : Int) : Option Term :=
  if group.lookup n.id == some token then
    (closing n.id).map fun callee =>
      (Term.var n).instantiated (callee.vars.map fun v => close (.free v)) callee.props.length
  else none

/-- Generalize one binding of a group. -/
def closeDecl (s : Subst) (group : List (Int × Int)) (closing : Int → Option Closing)
    (c : Closing) (body : Ty) (d : Decl) : Decl :=
  let sc := Schema.generalize c.params c.byVar c.props body
  let close := c.close s
  let term := d.body.map fun e =>
    (e.substitute close (recursiveUse group closing close)).generalized c.params sc.props
  .mk d.name sc term d.prim d.range

/-- Generalize the bindings of a group over the goals that they emitted. `group` pairs the ids of
names with the tokens of the bindings under way. -/
def generalize (ds : List Decl) (goals : List Goal) (group : List (Int × Int)) :
    Infer (List Decl) := do
  solveSelectors
  let st ← get
  let envIds := environmentIds group st
  let bodies := ds.map fun d => st.subst.apply d.schema.body
  let goals := goals.map fun g => { g with prop := st.subst.apply g.prop }
  let candidates := (Ty.freeIds (bodies ++ goals.map Goal.prop)).filter fun i => !envIds.contains i
  let (here, outer) := goals.partition fun g => g.prop.mentions candidates
  modify fun s => { s with goals := s.goals ++ outer }
  let inBodies := Ty.freeIds bodies
  let ambiguous := (Ty.freeVars (here.map Goal.prop)).filter fun v =>
    candidates.contains v.id && !inBodies.contains v.id
  defaultVars ambiguous here
  let here ← simplifyGoals here
  let subst := (← get).subst
  let bodies := bodies.map subst.apply
  let (kept, outer) := here.partition fun g => g.prop.mentions candidates
  modify fun s => { s with goals := s.goals ++ outer }
  let props := kept.map Goal.prop
  let vars := (Ty.freeVars (bodies ++ props)).filter fun v => candidates.contains v.id
  let cs ← (closings bodies vars props).mapM Closing.draw
  let byName : Table Int Closing := Table.ofList ((ds.map fun d => d.name.id).zip cs)
  let out := ((cs.zip bodies).zip ds).map fun e =>
    closeDecl subst group (fun id => byName.find? id) e.1.1 e.1.2 e.2
  out.forM fun d => trace (.generalized d.name.text d.schema.text)
  return out

end SizedTypes.Infer
