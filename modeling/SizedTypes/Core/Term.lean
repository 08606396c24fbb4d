import SizedTypes.Schema

/-!
# Elaborated terms and modules

Every term is explicitly typed: polymorphic definitions abstract over their type parameters and
over evidence for their predicates, and every use applies them. A module holds the elaborated
definitions in groups, and shows an interface to the modules that import it.

While a run is under way a term can hold two sorts of place-holders: uses of a binding whose
group is not generalized yet, and selections that wait for the type of their record.
-/

set_option autoImplicit false

namespace SizedTypes.Core

mutual

inductive Term where
  | var (name : Name)
  /-- A use of a binding of the group under way. `token` tells the binding from others with the
  same name. -/
  | groupVar (name : Name) (token : Int)
  | typeApp (e : Term) (t : Ty)
  | proofApp (e : Term)
  | app (fn arg : Term)
  | abs (name : Name) (t : Ty) (body : Term)
  | typeAbs (p : Param) (body : Term)
  | proofAbs (prop : Ty) (body : Term)
  | tuple (elems : List Term)
  | record (fields : List (String × Term))
  | select (e : Term) (sel : Selector)
  /-- `t` is the type of the updated value. -/
  | update (t : Ty) (e : Term) (sel : Selector) (value : Term)
  | list (elems : List Term) (elemType : Ty)
  | comp (len elem : Ty) (result : Term) (arms : List (List Match))
  | ifThenElse (cond yes no : Term)
  | block (e : Term) (groups : List Group)
  | located (range : Range) (e : Term)
  /-- A selection that waits for a selector goal. -/
  | pendingSelect (goal : Int) (e : Term)
  /-- An update that waits for a selector goal. -/
  | pendingUpdate (goal : Int) (e value : Term)

/-- A qualifier of a comprehension. -/
inductive Match where
  | draw (name : Name) (len t : Ty) (e : Term)
  | define (d : Decl)

/-- A definition. Primitives have no term. -/
inductive Decl where
  | mk (name : Name) (schema : Schema) (body : Option Term) (prim : Bool) (range : Range)

/-- Definitions that may refer to each other. -/
inductive Group where
  | mk (recursive : Bool) (decls : List Decl)

end

instance : Inhabited Term := ⟨.tuple []⟩
instance : Inhabited Decl := ⟨.mk default default none false .empty⟩
instance : Inhabited Match := ⟨.define default⟩
instance : Inhabited Group := ⟨.mk false []⟩

namespace Decl

def name : Decl → Name
  | mk n _ _ _ _ => n

def schema : Decl → Schema
  | mk _ s _ _ _ => s

def body : Decl → Option Term
  | mk _ _ b _ _ => b

def prim : Decl → Bool
  | mk _ _ _ p _ => p

def range : Decl → Range
  | mk _ _ _ _ r => r

end Decl

namespace Group

def recursive : Group → Bool
  | mk r _ => r

def decls : Group → List Decl
  | mk _ ds => ds

/-- A group of its own for every definition. -/
def singles (ds : List Decl) : List Group := ds.map fun d => mk false [d]

end Group

namespace Term

/-- Apply a term to types, then to evidence for `proofs` predicates. -/
def instantiated (e : Term) (args : List Ty) (proofs : Nat) : Term :=
  (List.replicate proofs ()).foldl (fun e _ => proofApp e) (args.foldl typeApp e)

/-- Abstract a term over parameters and over evidence for predicates. -/
def generalized (e : Term) (params : List Param) (props : List Ty) : Term :=
  params.foldr typeAbs (props.foldr proofAbs e)

/-- The form of a term, as a word. -/
def form : Term → String
  | var _ | groupVar _ _ => "EVar"
  | typeApp _ _ => "ETApp"
  | proofApp _ => "EProofApp"
  | app _ _ => "EApp"
  | abs _ _ _ => "EAbs"
  | typeAbs _ _ => "ETAbs"
  | proofAbs _ _ => "EProofAbs"
  | tuple _ => "ETuple"
  | record _ => "ERec"
  | select _ _ => "ESel"
  | update _ _ _ _ => "ESet"
  | list _ _ => "EList"
  | comp _ _ _ _ => "EComp"
  | ifThenElse _ _ _ => "EIf"
  | block _ _ => "EWhere"
  | located _ _ => "ELocated"
  | pendingSelect _ _ => "EHasSel"
  | pendingUpdate _ _ _ => "EHasSet"

end Term

/-! ## Substitution -/

mutual
/-- Apply `f` to every type and put the terms that `g` has in place of group variables. -/
def Term.substitute (f : Ty → Ty) (g : Name → Int → Option Term) : Term → Term
  | .var n => .var n
  | .groupVar n token => (g n token).getD (.groupVar n token)
  | .typeApp e t => .typeApp (e.substitute f g) (f t)
  | .proofApp e => .proofApp (e.substitute f g)
  | .app fn arg => .app (fn.substitute f g) (arg.substitute f g)
  | .abs n t body => .abs n (f t) (body.substitute f g)
  | .typeAbs p body => .typeAbs p (body.substitute f g)
  | .proofAbs prop body => .proofAbs (f prop) (body.substitute f g)
  | .tuple es => .tuple (substituteList f g es)
  | .record fs => .record (substituteFields f g fs)
  | .select e sel => .select (e.substitute f g) sel
  | .update t e sel v => .update (f t) (e.substitute f g) sel (v.substitute f g)
  | .list es t => .list (substituteList f g es) (f t)
  | .comp len elem result arms =>
    .comp (f len) (f elem) (result.substitute f g) (substituteArms f g arms)
  | .ifThenElse c t e => .ifThenElse (c.substitute f g) (t.substitute f g) (e.substitute f g)
  | .block e gs => .block (e.substitute f g) (substituteGroups f g gs)
  | .located r e => .located r (e.substitute f g)
  | .pendingSelect goal e => .pendingSelect goal (e.substitute f g)
  | .pendingUpdate goal e v => .pendingUpdate goal (e.substitute f g) (v.substitute f g)

def substituteList (f : Ty → Ty) (g : Name → Int → Option Term) : List Term → List Term
  | [] => []
  | e :: es => e.substitute f g :: substituteList f g es

def substituteFields (f : Ty → Ty) (g : Name → Int → Option Term) :
    List (String × Term) → List (String × Term)
  | [] => []
  | (l, e) :: fs => (l, e.substitute f g) :: substituteFields f g fs

def substituteArms (f : Ty → Ty) (g : Name → Int → Option Term) :
    List (List Match) → List (List Match)
  | [] => []
  | arm :: arms => substituteMatches f g arm :: substituteArms f g arms

def substituteMatches (f : Ty → Ty) (g : Name → Int → Option Term) : List Match → List Match
  | [] => []
  | .draw n len t e :: ms => .draw n (f len) (f t) (e.substitute f g) :: substituteMatches f g ms
  | .define d :: ms => .define (d.substitute f g) :: substituteMatches f g ms

def Decl.substitute (f : Ty → Ty) (g : Name → Int → Option Term) : Decl → Decl
  | .mk n sc (some e) prim r => .mk n (sc.mapTypes f) (some (e.substitute f g)) prim r
  | .mk n sc none prim r => .mk n (sc.mapTypes f) none prim r

def substituteDecls (f : Ty → Ty) (g : Name → Int → Option Term) : List Decl → List Decl
  | [] => []
  | d :: ds => d.substitute f g :: substituteDecls f g ds

def substituteGroups (f : Ty → Ty) (g : Name → Int → Option Term) : List Group → List Group
  | [] => []
  | .mk r ds :: gs => .mk r (substituteDecls f g ds) :: substituteGroups f g gs
end

/-! ## Modules -/

/-- What a later module needs in order to refer to a module. Tables are by the ids of names. -/
structure Interface where
  name : Name
  synonyms : Table Int TypeSynonym := []
  newtypes : Table Int Newtype := []
  primTypes : Table Int PrimType := []
  vars : Table Int (Name × Schema) := []
deriving Inhabited

structure Module where
  name : Name
  imports : List Name := []
  synonyms : Table Int TypeSynonym := []
  newtypes : Table Int Newtype := []
  primTypes : Table Int PrimType := []
  paramTypes : Table Int ModuleParam := []
  paramProps : List Ty := []
  paramFuns : Table Int Schema := []
  /-- The interfaces of parameterized submodules. -/
  submodules : Table Int Interface := []
  groups : List Group := []
deriving Inhabited

namespace Module

def empty (name : Name) : Module := { name }

def isParameterized (m : Module) : Bool :=
  !(m.paramTypes.isEmpty && m.paramProps.isEmpty && m.paramFuns.isEmpty)

def decls (m : Module) : List Decl := m.groups.flatMap Group.decls

/-- Definitions and the constructor functions of newtypes are visible from outside. -/
def interface (m : Module) : Interface :=
  { name := m.name, synonyms := m.synonyms, newtypes := m.newtypes, primTypes := m.primTypes,
    vars := Table.ofList
      (m.decls.map (fun d => (d.name.id, (d.name, d.schema)))
        ++ m.newtypes.values.map fun nt => (nt.conName.id, (nt.conName, nt.conSchema))) }

end Module
end SizedTypes.Core
