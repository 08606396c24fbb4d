import SizedTypes.Ty

/-!
# Predicates

Predicates are types of kind `Prop`. Conjunctions are flattened before anything is done with
them, and each predicate implies others: a class its ancestors, a prime a bound.
-/

set_option autoImplicit false

namespace SizedTypes.Ty

/-! ## Constructors -/

def compare (r : Comparison) (a b : Ty) : Ty := con (.prop (.compare r)) [a, b]

/-- `a == b` on sizes. -/
def equal (a b : Ty) : Ty := compare .equal a b

/-- `a != b` on sizes. -/
def neq (a b : Ty) : Ty := compare .neq a b

/-- `a >= b` on sizes. -/
def geq (a b : Ty) : Ty := compare .geq a b

/-- The size is finite. -/
def fin (n : Ty) : Ty := con (.prop .fin) [n]

def prime (n : Ty) : Ty := con (.prop .prime) [n]

/-- `rec` has the component `sel`, of type `field`. -/
def has (sel : Selector) (rec field : Ty) : Ty := con (.prop (.has sel)) [rec, field]

def cls (c : TyClass) (args : List Ty) : Ty := con (.prop (.cls c)) args

def conj (a b : Ty) : Ty := con (.prop .conj) [a, b]

def trivial : Ty := con (.prop .trivial) []

/-! ## Shape -/

/-- Constructor and arguments of a predicate. -/
def asProp? (t : Ty) : Option (PropCon × List Ty) :=
  match t.expand with
  | con (.prop p) args => some (p, args)
  | _ => none

/-- The sides of a comparison of the given sort. -/
def asCompare? (r : Comparison) (t : Ty) : Option (Ty × Ty) :=
  match t.asProp? with
  | some (.compare r', a :: b :: _) => if r = r' then some (a, b) else none
  | _ => none

/-- The selector, the record type and the field type of a selector predicate. -/
def asHas? (t : Ty) : Option (Selector × Ty × Ty) :=
  match t.asProp? with
  | some (.has sel, rec :: field :: _) => some (sel, rec, field)
  | _ => none

/-- About sizes only. -/
def isNumericProp (t : Ty) : Bool :=
  match t.asProp? with
  | some (p, _) => p.isNumeric
  | none => false

/-- A conjunction or the trivial predicate. -/
def isJunction (t : Ty) : Bool :=
  match t.asProp? with
  | some (.conj, _) | some (.trivial, _) => true
  | _ => false

mutual
/-- The parts of a predicate: conjunctions are taken apart and trivial parts dropped. -/
def conjuncts : Ty → List Ty
  | con (.prop .conj) args => conjunctsList args
  | con (.prop .trivial) _ => []
  | synonym n args body => if body.isJunction then conjuncts body else [synonym n args body]
  | t => [t]

/-- The parts of several predicates, in order. -/
def conjunctsList : List Ty → List Ty
  | [] => []
  | t :: ts => conjuncts t ++ conjunctsList ts
end

/-- The predicates that follow directly from one, itself first. -/
def implied (p : Ty) : List Ty :=
  p :: match p.asProp? with
    | some (.cls c, args) => c.ancestors.map fun d => cls d args
    | some (.prime, n :: _) => [fin n, geq n (num 2)]
    | _ => []

end SizedTypes.Ty
