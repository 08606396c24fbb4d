import SizedTypes.Surface.TypeExpr

/-!
# Patterns, expressions and declarations

Programs with every identifier resolved. Local declarations make expressions and declarations
one mutual family.
-/

set_option autoImplicit false

namespace SizedTypes.Surface

inductive Pattern where
  | var (name : Name)
  | wildcard
  | typed (p : Pattern) (t : TypeExpr)
  | tuple (ps : List Pattern)
  | record (fields : List (String × Pattern))
  | list (ps : List Pattern)
  /-- A sequence in two parts. -/
  | split (left right : Pattern)
  | located (range : Range) (p : Pattern)
deriving Inhabited, Repr

namespace Pattern

/-- The form of a pattern, as a word. -/
def form : Pattern → String
  | var _ => "PVar"
  | wildcard => "PWild"
  | typed _ _ => "PTyped"
  | tuple _ => "PTuple"
  | record _ => "PRecord"
  | list _ => "PList"
  | split _ _ => "PSplit"
  | located _ _ => "PLocated"

mutual
/-- The variables that a pattern binds, from left to right. -/
def vars : Pattern → List Name
  | var n => [n]
  | wildcard => []
  | typed p _ => vars p
  | tuple ps => varsList ps
  | record fields => varsFields fields
  | list ps => varsList ps
  | split left right => vars left ++ vars right
  | located _ p => vars p

def varsList : List Pattern → List Name
  | [] => []
  | p :: ps => vars p ++ varsList ps

def varsFields : List (String × Pattern) → List Name
  | [] => []
  | (_, p) :: fs => vars p ++ varsFields fs
end

end Pattern

/-- Whether an update replaces a field or applies a function to it. -/
inductive UpdateHow where
  | set
  | modify
deriving DecidableEq, Repr, Inhabited

/-- An enumeration with bounds that are types. With `strict` the last bound is excluded. -/
structure Enumeration where
  first : Option TypeExpr
  next : Option TypeExpr
  last : Option TypeExpr
  stride : Option TypeExpr
  elem : Option TypeExpr
  down : Bool
  strict : Bool
deriving Inhabited, Repr

mutual

inductive Expr where
  | var (name : Name)
  /-- `digits` is the number of digits written, for literals that are not decimal. -/
  | num (value base digits : Int)
  | frac (num den : Int)
  | char (code : Int)
  | string (s : String)
  | tuple (elems : List Expr)
  | record (fields : List (String × Expr))
  | select (e : Expr) (sel : Selector)
  /-- A record with some fields changed. The path of a field is a list of selectors. -/
  | update (rec : Expr) (fields : List (List Selector × UpdateHow × Expr))
  /-- The function that changes the fields of its argument. -/
  | updater (fields : List (List Selector × UpdateHow × Expr))
  | list (elems : List Expr)
  | enumeration (bounds : Enumeration)
  | from (first : Expr)
  | fromThen (first next : Expr)
  /-- The qualifiers of one arm nest; arms run side by side. -/
  | comp (result : Expr) (arms : List (List Match))
  | app (fn arg : Expr)
  | typeApp (fn : Expr) (args : List TypeArg)
  | ifThenElse (cond yes no : Expr)
  | block (body : Expr) (decls : List Decl)
  | typed (e : Expr) (t : TypeExpr)
  /-- A size used as a value. -/
  | typeValue (t : TypeExpr)
  | lambda (params : List Pattern) (body : Expr)
  | located (range : Range) (e : Expr)

/-- A qualifier of a comprehension. -/
inductive Match where
  | draw (p : Pattern) (e : Expr)
  | define (b : Bind)

/-- A value binding. Primitives have no body; `mono` bindings are never generalized. -/
inductive Bind where
  | mk (name : Name) (params : List Pattern) (body : Option Expr) (signature : Option Signature)
    (mono prim : Bool) (range : Range)

inductive Decl where
  | group (recursive : Bool) (binds : List Bind)
  | synonym (name : Name) (params : List TypeParam) (body : TypeExpr) (range : Range)
  /-- Without a constructor name the constructor is named like the type. -/
  | newtype (name : Name) (params : List TypeParam) (fields : List (String × TypeExpr))
    (conName : Option Name) (range : Range)
  | primType (name : Name) (kind : Kind) (props : List TypeExpr) (range : Range)
  | paramType (name : Name) (kind : Kind) (range : Range)
  | paramProps (props : List TypeExpr) (range : Range)
  | paramFun (name : Name) (signature : Signature) (range : Range)
  | submodule (name : Name) (decls : List Decl) (range : Range)

end

instance : Inhabited Expr := ⟨.tuple []⟩
instance : Inhabited Match := ⟨.draw .wildcard default⟩
instance : Inhabited Bind := ⟨.mk default [] none none false false .empty⟩
instance : Inhabited Decl := ⟨.group false []⟩

namespace Bind

def name : Bind → Name
  | mk n _ _ _ _ _ _ => n

def body : Bind → Option Expr
  | mk _ _ b _ _ _ _ => b

def signature : Bind → Option Signature
  | mk _ _ _ s _ _ _ => s

def mono : Bind → Bool
  | mk _ _ _ _ m _ _ => m

def prim : Bind → Bool
  | mk _ _ _ _ _ p _ => p

def range : Bind → Range
  | mk _ _ _ _ _ _ r => r

end Bind

namespace Decl

/-- The form of a declaration, as a word. -/
def form : Decl → String
  | group _ _ => "BindGroup"
  | synonym _ _ _ _ => "TySyn"
  | newtype _ _ _ _ _ => "Newtype"
  | primType _ _ _ _ => "PrimType"
  | paramType _ _ _ => "ParamType"
  | paramProps _ _ => "ParamConstraint"
  | paramFun _ _ _ => "ParamFun"
  | submodule _ _ _ => "Submodule"

/-- A parameter of the enclosing module. -/
def isModuleParam : Decl → Bool
  | paramType _ _ _ | paramProps _ _ | paramFun _ _ _ => true
  | _ => false

/-- A submodule that declares parameters. -/
def isParameterized : Decl → Bool
  | submodule _ ds _ => ds.any isModuleParam
  | _ => false

end Decl

/-- A module with its imports. -/
structure Module where
  name : Name
  imports : List Name := []
  decls : List Decl := []
deriving Inhabited

namespace Expr

/-- The form of an expression, as a word. -/
def form : Expr → String
  | var _ => "Var"
  | num _ _ _ => "Num"
  | frac _ _ => "Frac"
  | char _ => "Char"
  | string _ => "String"
  | tuple _ => "Tuple"
  | record _ => "Record"
  | select _ _ => "Sel"
  | update _ _ => "Upd"
  | updater _ => "Upd"
  | list _ => "List"
  | enumeration _ => "Range"
  | .from _ => "InfFrom"
  | fromThen _ _ => "InfFrom"
  | comp _ _ => "Comp"
  | app _ _ => "App"
  | typeApp _ _ => "AppT"
  | ifThenElse _ _ _ => "If"
  | block _ _ => "Where"
  | typed _ _ => "Typed"
  | typeValue _ => "TypeVal"
  | lambda _ _ => "Fun"
  | located _ _ => "Located"

/-- Strip source ranges from the outermost layer. -/
def unlocated : Expr → Expr
  | located _ e => e.unlocated
  | e => e

/-- The range of an expression that has one. -/
def range : Expr → Range
  | located r _ => r
  | _ => .empty

/-- The number of arguments to which the head of an application is applied. -/
def spineLength : Expr → Nat
  | app f _ => f.spineLength + 1
  | _ => 0

end Expr

/-! ## Traversal -/

mutual
/-- An expression and all expressions inside it, each before its parts. -/
def Expr.subterms : Expr → List Expr
  | .tuple es => .tuple es :: subtermsList es
  | .record fs => .record fs :: subtermsFields fs
  | .select e s => .select e s :: e.subterms
  | .update r fs => .update r fs :: (r.subterms ++ subtermsUpdates fs)
  | .updater fs => .updater fs :: subtermsUpdates fs
  | .list es => .list es :: subtermsList es
  | .from first => .from first :: first.subterms
  | .fromThen first next => .fromThen first next :: (first.subterms ++ next.subterms)
  | .comp result arms => .comp result arms :: (result.subterms ++ subtermsArms arms)
  | .app f a => .app f a :: (f.subterms ++ a.subterms)
  | .typeApp f ts => .typeApp f ts :: f.subterms
  | .ifThenElse c t e => .ifThenElse c t e :: (c.subterms ++ (t.subterms ++ e.subterms))
  | .block body ds => .block body ds :: (body.subterms ++ subtermsDecls ds)
  | .typed e t => .typed e t :: e.subterms
  | .lambda ps body => .lambda ps body :: body.subterms
  | .located r e => .located r e :: e.subterms
  | e => [e]

def subtermsList : List Expr → List Expr
  | [] => []
  | e :: es => e.subterms ++ subtermsList es

def subtermsFields : List (String × Expr) → List Expr
  | [] => []
  | (_, e) :: fs => e.subterms ++ subtermsFields fs

def subtermsUpdates : List (List Selector × UpdateHow × Expr) → List Expr
  | [] => []
  | (_, _, e) :: fs => e.subterms ++ subtermsUpdates fs

def subtermsArms : List (List Match) → List Expr
  | [] => []
  | arm :: arms => subtermsMatches arm ++ subtermsArms arms

def subtermsMatches : List Match → List Expr
  | [] => []
  | .draw _ e :: ms => e.subterms ++ subtermsMatches ms
  | .define b :: ms => b.subterms ++ subtermsMatches ms

/-- The expressions in the body of a binding. -/
def Bind.subterms : Bind → List Expr
  | .mk _ _ (some e) _ _ _ _ => e.subterms
  | .mk _ _ none _ _ _ _ => []

def subtermsBinds : List Bind → List Expr
  | [] => []
  | b :: bs => b.subterms ++ subtermsBinds bs

/-- The expressions in the value bindings of declarations, those of submodules included. -/
def subtermsDecls : List Decl → List Expr
  | [] => []
  | .group _ bs :: ds => subtermsBinds bs ++ subtermsDecls ds
  | .submodule _ inner _ :: ds => subtermsDecls inner ++ subtermsDecls ds
  | _ :: ds => subtermsDecls ds
end

/-- The ids of the variables among expressions, one entry for each occurrence. -/
def varIds (es : List Expr) : List Int :=
  es.filterMap fun
    | .var n => some n.id
    | _ => none

/-- The ids of the variables of an expression, in increasing order. Names are resolved, so locally
bound ones are included. -/
def Expr.freeVars (e : Expr) : List Int := (varIds e.subterms).eraseDups.mergeSort

end SizedTypes.Surface
