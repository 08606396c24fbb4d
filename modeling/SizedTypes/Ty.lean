import SizedTypes.Constructor
import SizedTypes.Source
import SizedTypes.Table

/-!
# Types

Types of values, sizes and predicates are one syntax, told apart by their kinds. A synonym keeps
its name and arguments for messages next to its expansion; an applied newtype carries the
declaration that it refers to.
-/

set_option autoImplicit false

namespace SizedTypes

/-- A parameter of a schema, of a type declaration or of a module. -/
structure Param where
  id : Int
  kind : Kind
  /-- Missing for parameters made by generalization. -/
  name : Option Name := none
deriving DecidableEq, Repr, Inhabited

/-- The written name, or a letter and the id. -/
def Param.display (p : Param) : String :=
  match p.name with
  | some n => n.ident
  | none => "a" ++ toString p.id

/-- A unification variable. `scope` holds the ids of the parameters on which its value may
depend. -/
structure TyVar where
  id : Int
  kind : Kind
  scope : List Int := []
  source : Option TypeSource := none
deriving DecidableEq, Repr, Inhabited

/-- A variable whose value may depend on the given parameters. -/
def TyVar.ofScope (id : Int) (kind : Kind) (scope : List Param)
    (source : Option TypeSource) : TyVar :=
  { id, kind, scope := (scope.map Param.id).eraseDups, source }

def TyVar.mayMention (v : TyVar) (p : Param) : Bool := v.scope.contains p.id

def TyVar.display (v : TyVar) : String :=
  (if v.kind = .num then "?n" else "?a") ++ toString v.id

inductive Ty where
  | free (v : TyVar)
  | bound (p : Param)
  | con (c : Con) (args : List Ty)
  | record (fields : List (String × Ty))
  | synonym (name : Name) (args : List Ty) (body : Ty)
  | newtype (name : Name) (params : List Param) (fields : List (String × Ty)) (args : List Ty)
deriving Inhabited, Repr

namespace Ty

/-! ## Constructors -/

def num (n : Int) : Ty := con (.num n) []

def inf : Ty := con .inf []

def bit : Ty := con .bit []

def integer : Ty := con .integer []

def rational : Ty := con .rational []

/-- Sequences of `n` elements of type `a`. -/
def seq (n a : Ty) : Ty := con .seq [n, a]

/-- Sequences of `n` bits. -/
def word (n : Ty) : Ty := seq n bit

def arrow (a b : Ty) : Ty := con .arrow [a, b]

/-- Functions of several arguments, taken one after the other. -/
def arrows (args : List Ty) (res : Ty) : Ty := args.foldr arrow res

def tuple (ts : List Ty) : Ty := con (.tuple ts.length) ts

def op (f : SizeOp) (args : List Ty) : Ty := con (.op f) args

/-! ## Shape -/

/-- Strip synonyms from the outermost layer. -/
def expand : Ty → Ty
  | synonym _ _ body => body.expand
  | t => t

/-- The form of a type, as a word. -/
def form : Ty → String
  | free _ => "TVFree"
  | bound _ => "TVBound"
  | con _ _ => "TCon"
  | record _ => "TRec"
  | synonym _ _ _ => "TUser"
  | newtype _ _ _ _ => "TNewtype"

/-- Length and element type of a sequence. -/
def asSeq? (t : Ty) : Option (Ty × Ty) :=
  match t.expand with
  | con .seq (n :: a :: _) => some (n, a)
  | _ => none

/-- Argument and result of a function. -/
def asArrow? (t : Ty) : Option (Ty × Ty) :=
  match t.expand with
  | con .arrow (a :: b :: _) => some (a, b)
  | _ => none

def asTuple? (t : Ty) : Option (List Ty) :=
  match t.expand with
  | con (.tuple _) ts => some ts
  | _ => none

def asRecord? (t : Ty) : Option (Table String Ty) :=
  match t.expand with
  | record fields => some fields
  | _ => none

def asNum? (t : Ty) : Option Int :=
  match t.expand with
  | con (.num n) _ => some n
  | _ => none

def asFree? (t : Ty) : Option TyVar :=
  match t.expand with
  | free v => some v
  | _ => none

/-- Exactly the variable with the id `v`, not under a synonym. -/
def isFree (v : Int) : Ty → Bool
  | free w => w.id == v
  | _ => false

def isInf (t : Ty) : Bool :=
  match t.expand with
  | con .inf _ => true
  | _ => false

/-- A free or a bound variable. -/
def isVar (t : Ty) : Bool :=
  match t.expand with
  | free _ | bound _ => true
  | _ => false

/-- An application of a function on sizes. -/
def isOpApp (t : Ty) : Bool :=
  match t.expand with
  | con c _ => c.isOp
  | _ => false

/-- The kind of a well-kinded type. -/
def kindOf : Ty → Kind
  | free v => v.kind
  | bound p => p.kind
  | record _ | newtype _ _ _ _ => .type
  | synonym _ _ body => body.kindOf
  | con c args => c.kind.afterArgs args.length

/-! ## Substitution -/

mutual
/-- Replace the variables and the parameters of a type. -/
def bind (onFree : TyVar → Ty) (onBound : Param → Ty) : Ty → Ty
  | free v => onFree v
  | bound p => onBound p
  | con c args => con c (bindList onFree onBound args)
  | record fields => record (bindFields onFree onBound fields)
  | synonym n args body => synonym n (bindList onFree onBound args) (bind onFree onBound body)
  | newtype n ps fields args => newtype n ps fields (bindList onFree onBound args)

def bindList (onFree : TyVar → Ty) (onBound : Param → Ty) : List Ty → List Ty
  | [] => []
  | t :: ts => bind onFree onBound t :: bindList onFree onBound ts

def bindFields (onFree : TyVar → Ty) (onBound : Param → Ty) :
    List (String × Ty) → List (String × Ty)
  | [] => []
  | (l, t) :: fs => (l, bind onFree onBound t) :: bindFields onFree onBound fs
end

/-- Put `u` in place of the variable with the id `v`. -/
def replace (t : Ty) (v : Int) (u : Ty) : Ty :=
  t.bind (fun w => if w.id = v then u else free w) bound

/-- Put types in place of parameters; a parameter without an entry stays. -/
def instantiate (m : Table Int Ty) (t : Ty) : Ty :=
  t.bind free fun p => (m.find? p.id).getD (bound p)

/-- Put parameters in place of variables; a variable without an entry stays. -/
def quantify (m : Table Int Param) (t : Ty) : Ty :=
  t.bind (fun v => match m.find? v.id with
    | some p => bound p
    | none => free v) bound

/-! ## Variables and parameters -/

mutual
/-- The variables of a type, an entry for each occurrence, from left to right. -/
def vars : Ty → List TyVar
  | free v => [v]
  | bound _ => []
  | con _ args => varsList args
  | record fields => varsFields fields
  | synonym _ _ body => vars body
  | newtype _ _ _ args => varsList args

def varsList : List Ty → List TyVar
  | [] => []
  | t :: ts => vars t ++ varsList ts

def varsFields : List (String × Ty) → List TyVar
  | [] => []
  | (_, t) :: fs => vars t ++ varsFields fs
end

mutual
/-- The parameters of a type, an entry for each occurrence, from left to right. -/
def params : Ty → List Param
  | free _ => []
  | bound p => [p]
  | con _ args => paramsList args
  | record fields => paramsFields fields
  | synonym _ _ body => params body
  | newtype _ _ _ args => paramsList args

def paramsList : List Ty → List Param
  | [] => []
  | t :: ts => params t ++ paramsList ts

def paramsFields : List (String × Ty) → List Param
  | [] => []
  | (_, t) :: fs => params t ++ paramsFields fs
end

/-- The ids of the variables of a type. -/
def varIds (t : Ty) : List Int := t.vars.map TyVar.id

/-- Whether the variable with the id `v` occurs. -/
def occurs (v : Int) (t : Ty) : Bool := t.varIds.contains v

/-- Whether one of the given variables occurs. -/
def mentions (ids : List Int) (t : Ty) : Bool := t.varIds.any ids.contains

/-- Keep the first of several variables with one id. -/
def dedupVars : List Int → List TyVar → List TyVar
  | _, [] => []
  | seen, v :: vs =>
    if seen.contains v.id then dedupVars seen vs else v :: dedupVars (v.id :: seen) vs

/-- The variables of several types in the order of their first occurrence. -/
def freeVars (ts : List Ty) : List TyVar := dedupVars [] (ts.flatMap vars)

/-- The ids of the variables of several types. -/
def freeIds (ts : List Ty) : List Int := (ts.flatMap varIds).eraseDups

/-- The parameters of several types, by id. -/
def boundParams (ts : List Ty) : List Param :=
  ((ts.flatMap params).foldl (fun (m : Table Int Param) p => m.insert p.id p) []).values

mutual
/-- The number of nodes, the arguments of synonyms included. -/
def size : Ty → Nat
  | free _ | bound _ => 1
  | con _ args => 1 + sizeList args
  | record fields => 1 + sizeFields fields
  | synonym _ args body => 1 + sizeList args + size body
  | newtype _ _ _ args => 1 + sizeList args

def sizeList : List Ty → Nat
  | [] => 0
  | t :: ts => size t + sizeList ts

def sizeFields : List (String × Ty) → Nat
  | [] => 0
  | (_, t) :: fs => size t + sizeFields fs
end

/-! ## Equality up to synonyms -/

mutual
/-- Syntactic equality that looks through synonyms. -/
def same : Ty → Ty → Bool
  | free v, b => match b.expand with
    | free w => v.id == w.id
    | _ => false
  | bound p, b => match b.expand with
    | bound q => p.id == q.id
    | _ => false
  | con c as, b => match b.expand with
    | con d bs => c.same d && sameList as bs
    | _ => false
  | newtype n _ _ as, b => match b.expand with
    | newtype m _ _ bs => n.id == m.id && sameList as bs
    | _ => false
  | record fs, b => match b.expand with
    | record gs => sameFields fs gs
    | _ => false
  | synonym _ _ body, b => same body b

def sameList : List Ty → List Ty → Bool
  | [], [] => true
  | a :: as, b :: bs => same a b && sameList as bs
  | _, _ => false

def sameFields : List (String × Ty) → List (String × Ty) → Bool
  | [], [] => true
  | (l, t) :: fs, (m, u) :: gs => l == m && same t u && sameFields fs gs
  | _, _ => false
end

end Ty
end SizedTypes
