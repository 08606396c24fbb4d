import SizedTypes.Core.Term

/-!
# Visiting terms

All parts of a term in one fixed order: a node comes before its parts, the qualifiers of a
comprehension before its types and its result, the operand of a type application before the type.
-/

set_option autoImplicit false

namespace SizedTypes.Core

/-- A node of a term or a type written in it. -/
inductive Part where
  | node (e : Term)
  | type (t : Ty)

/-- The types of a schema, predicates first. -/
def schemaParts (s : Schema) : List Part := s.props.map .type ++ [.type s.body]

mutual
def Term.parts : Term → List Part
  | .typeApp e t => .node (.typeApp e t) :: (e.parts ++ [.type t])
  | .proofApp e => .node (.proofApp e) :: e.parts
  | .app fn arg => .node (.app fn arg) :: (fn.parts ++ arg.parts)
  | .abs n t body => .node (.abs n t body) :: .type t :: body.parts
  | .typeAbs p body => .node (.typeAbs p body) :: body.parts
  | .proofAbs prop body => .node (.proofAbs prop body) :: .type prop :: body.parts
  | .tuple es => .node (.tuple es) :: partsList es
  | .record fs => .node (.record fs) :: partsFields fs
  | .select e sel => .node (.select e sel) :: e.parts
  | .update t e sel v => .node (.update t e sel v) :: .type t :: (e.parts ++ v.parts)
  | .list es t => .node (.list es t) :: (partsList es ++ [.type t])
  | .comp len elem result arms =>
    .node (.comp len elem result arms)
      :: (partsArms arms ++ .type len :: .type elem :: result.parts)
  | .ifThenElse c t e => .node (.ifThenElse c t e) :: (c.parts ++ (t.parts ++ e.parts))
  | .block e gs => .node (.block e gs) :: (e.parts ++ partsGroups gs)
  | .located r e => .node (.located r e) :: e.parts
  | .pendingSelect goal e => .node (.pendingSelect goal e) :: e.parts
  | .pendingUpdate goal e v => .node (.pendingUpdate goal e v) :: (e.parts ++ v.parts)
  | e => [.node e]

def partsList : List Term → List Part
  | [] => []
  | e :: es => e.parts ++ partsList es

def partsFields : List (String × Term) → List Part
  | [] => []
  | (_, e) :: fs => e.parts ++ partsFields fs

def partsArms : List (List Match) → List Part
  | [] => []
  | arm :: arms => partsMatches arm ++ partsArms arms

def partsMatches : List Match → List Part
  | [] => []
  | .draw _ len t e :: ms => .type len :: .type t :: (e.parts ++ partsMatches ms)
  | .define d :: ms => d.parts ++ partsMatches ms

/-- The parts of a definition, its schema first. -/
def Decl.parts : Decl → List Part
  | .mk _ sc (some e) _ _ => schemaParts sc ++ e.parts
  | .mk _ sc none _ _ => schemaParts sc

def partsDecls : List Decl → List Part
  | [] => []
  | d :: ds => d.parts ++ partsDecls ds

def partsGroups : List Group → List Part
  | [] => []
  | .mk _ ds :: gs => partsDecls ds ++ partsGroups gs
end

/-- The types among parts. -/
def typesOf (parts : List Part) : List Ty :=
  parts.filterMap fun
    | .type t => some t
    | .node _ => none

/-- The types of a definition: the body of its schema, its predicates, then those of its term. -/
def Decl.types (d : Decl) : List Ty :=
  d.schema.body :: (d.schema.props ++ match d.body with
    | some e => typesOf e.parts
    | none => [])

/-- The unification variables anywhere in definitions, in the order of first occurrence. -/
def freeVarsOf (ds : List Decl) : List TyVar := Ty.freeVars (ds.flatMap Decl.types)

end SizedTypes.Core
