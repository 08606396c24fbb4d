import SizedTypes.Infer.Goals

/-!
# Defaulting

A variable that only goals mention gets a default: types of values become `Integer`, or
`Rational` where fractions are required, and sizes their largest constant lower bound. A default
is taken only if every goal about the variable stays solvable.
-/

set_option autoImplicit false

namespace SizedTypes.Infer

/-- The constant below which a goal keeps the size `v`. -/
def lowerBound (v : Int) (p : Ty) : Option Int :=
  match p.asCompare? .geq with
  | some (x, bound) =>
    match x.asFree?, bound.eval with
    | some w, some (.finite n) => if w.id = v then some n else none
    | _, _ => none
  | none => none

/-- The default of a size: its largest lower bound, and at least zero. -/
def defaultSize (v : Int) (goals : List Ty) : Ty :=
  .num ((goals.filterMap (lowerBound v)).foldl (fun a b => if a < b then b else a) 0)

/-- The class of a goal whose type is `v`, where `v` occurs nowhere else in it. -/
def classOf (v : Int) (p : Ty) : Option TyClass :=
  match p.asProp? with
  | some (.cls c, args) =>
    match args.getLast?.bind Ty.asFree? with
    | some w =>
      if w.id = v ∧ !(args.dropLast.any (Ty.occurs v)) then some c else none
    | none => none
  | _ => none

/-- Classes whose members have fractions. -/
def isFractional : TyClass → Bool
  | .fractionLiteral | .field | .round => true
  | _ => false

/-- The default of a type of values, if all goals are classes of it. -/
def defaultValueType (v : Int) (goals : List Ty) : Option Ty :=
  (goals.mapM (classOf v)).map fun cs => if cs.any isFractional then .rational else .integer

/-- The default of a variable with respect to the goals that mention it. -/
def defaultFor (v : TyVar) (goals : List Ty) : Option Ty :=
  if goals.isEmpty then none
  else match v.kind with
    | .num => some (defaultSize v.id goals)
    | .type => defaultValueType v.id goals
    | _ => none

/-- The substitution with a default for `v`, if one can be taken. -/
def defaulted? (s : Subst) (asmps : Assumptions) (goals : List Goal) (v : TyVar) :
    Option (Subst × Ty) := do
  if (s.lookup v.id).isSome then none
  let relevant := (goals.map fun g => s.apply g.prop).filter (Ty.mentions [v.id])
  let t ← defaultFor v relevant
  let trial ← (s.extend v t).toOption
  if relevant.all fun p => (simplify (trial.apply p) asmps).isOk then some (trial, t) else none

/-- Give one variable a default. -/
def defaultVar (goals : List Goal) (v : TyVar) : Infer Unit := do
  let s ← get
  match defaulted? s.subst s.assumptions goals v with
  | none => return ()
  | some (subst, t) =>
    set { s with subst }
    recordWarning (.defaulting v t)
    trace (.defaulted v.display t.text)

/-- Give variables defaults, one after the other. -/
def defaultVars (vs : List TyVar) (goals : List Goal) : Infer Unit :=
  (Ty.dedupVars [] vs).forM (defaultVar goals)

end SizedTypes.Infer
