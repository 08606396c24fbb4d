import SizedTypes.Ty.Printer

/-!
# Schemas and type declarations

A schema quantifies a type over parameters and predicates. Type synonyms, newtypes, primitive
types and the type parameters of modules are declared next to it.
-/

set_option autoImplicit false

namespace SizedTypes

/-- A type with parameters and the predicates that its uses have to prove. -/
structure Schema where
  params : List Param := []
  props : List Ty := []
  body : Ty
deriving Inhabited, Repr

namespace Schema

/-- A type without parameters. -/
def mono (t : Ty) : Schema := { body := t }

def isMono (s : Schema) : Bool := s.params.isEmpty && s.props.isEmpty

/-- Parameters paired with the types given for them, by id; missing types leave a gap. -/
def assignment (params : List Param) (args : List Ty) : Table Int Ty :=
  Table.ofList ((params.zip args).map fun e => (e.1.id, e.2))

/-- Predicates and body at the given types. -/
def instantiate (s : Schema) (args : List Ty) : List Ty × Ty :=
  let m := assignment s.params args
  (s.props.map (Ty.instantiate m), s.body.instantiate m)

def text (s : Schema) : String :=
  (if s.params.isEmpty then ""
    else "\x7b" ++ PrintedTy.commas (s.params.map Param.display) ++ "\x7d ")
  ++ (if s.props.isEmpty then ""
    else "(" ++ PrintedTy.commas (s.props.map Ty.text) ++ ") => ")
  ++ s.body.text

/-- Apply `f` to predicates and body. -/
def mapTypes (f : Ty → Ty) (s : Schema) : Schema :=
  { s with props := s.props.map f, body := f s.body }

end Schema

/-- A synonym: uses expand to `body` and have to prove `props`. -/
structure TypeSynonym where
  name : Name
  params : List Param := []
  props : List Ty := []
  body : Ty
deriving Inhabited, Repr

def TypeSynonym.kind (s : TypeSynonym) : Kind := Kind.arrows (s.params.map Param.kind) s.body.kindOf

/-- A record type of its own, with a constructor function. -/
structure Newtype where
  name : Name
  params : List Param := []
  props : List Ty := []
  fields : Table String Ty
  conName : Name
deriving Inhabited, Repr

namespace Newtype

def kind (nt : Newtype) : Kind := Kind.arrows (nt.params.map Param.kind) .type

/-- The newtype at the given types. -/
def applied (nt : Newtype) (args : List Ty) : Ty := .newtype nt.name nt.params nt.fields args

/-- The schema of the constructor function. -/
def conSchema (nt : Newtype) : Schema :=
  { params := nt.params, props := nt.props,
    body := .arrow (.record nt.fields) (nt.applied (nt.params.map .bound)) }

/-- Fields of a newtype at the given types. -/
def fieldsAt (params : List Param) (fields : Table String Ty) (args : List Ty) : Table String Ty :=
  let m := Schema.assignment params args
  fields.map fun f => (f.1, f.2.instantiate m)

end Newtype

/-- A type without a definition; uses have to prove `props`. -/
structure PrimType where
  name : Name
  kind : Kind
  props : List Ty := []
deriving Inhabited, Repr

/-- The primitive type at the given types. -/
def PrimType.applied (pt : PrimType) (args : List Ty) : Ty := .con (.abstract pt.name pt.kind) args

/-- A type parameter of a module. -/
structure ModuleParam where
  name : Name
  param : Param
deriving Inhabited, Repr

end SizedTypes
