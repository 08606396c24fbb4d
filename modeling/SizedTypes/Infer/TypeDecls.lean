import SizedTypes.Infer.Goals
import SizedTypes.Infer.Kinding
import SizedTypes.Surface.Expr

/-!
# Declarations of types and module parameters
-/

set_option autoImplicit false

namespace SizedTypes.Infer

open Surface (TypeExpr TypeParam)

/-- A type synonym; side conditions of its body are conditions of its uses. -/
def checkSynonym (n : Name) (params : List TypeParam) (body : TypeExpr) (range : Range) :
    Infer Unit :=
  withRange range do
    match Scope.shadowedSynonym n (← get).scopes with
    | some prev => recordWarning (.shadowing "type synonym" prev)
    | none => pure ()
    let (ps, k) ← (Kinding.declare params).run { allowWildcards := false }
    let ((t, _), k) ← (Kinding.infer body .unknown).run k
    let ps := k.settle ps
    let fix := Kinding.settleTy ps
    addSynonym { name := n, params := ps, props := k.goals.map fun g => fix g.prop, body := fix t }

/-- A newtype also declares its constructor function. -/
def checkNewtype (n : Name) (params : List TypeParam) (fields : List (String × TypeExpr))
    (conName : Option Name) (range : Range) : Infer Unit :=
  withRange range do
    let (ps, k) ← (Kinding.declare params).run { allowWildcards := false }
    let (fs, k) ← (Kinding.checkFields fields).run k
    let ps := k.settle ps
    let fix := Kinding.settleTy ps
    let nt : Newtype :=
      { name := n, params := ps, props := k.goals.map fun g => fix g.prop
        fields := (Table.ofList fs).mapValues fix
        conName := (conName.filter fun c => c.ident != "").getD n }
    addNewtype nt
    declare nt.conName (.known nt.conSchema)

def checkPrimType (n : Name) (kind : Kind) (props : List TypeExpr) (range : Range) : Infer Unit :=
  withRange range do
    let (ps, k) ← (Kinding.checkProps props).run { allowWildcards := false }
    addPrimType { name := n, kind, props := ps ++ k.goals.map Goal.prop }

/-- Type parameters of a module are in scope for the rest of it; variables made later may depend
on them. -/
def checkParamType (n : Name) (kind : Kind) : Infer Unit := do
  let p ← freshParam kind (some n)
  modify fun s => { s with params := s.params ++ [p] }
  addParamType { name := n, param := p }

/-- Constraints on the parameters of a module are assumed for the rest of it. Their own side
conditions have to hold under them. -/
def checkParamProps (props : List TypeExpr) (range : Range) : Infer Unit :=
  withRange range do
    let (ps, k) ← (Kinding.checkProps props).run { allowWildcards := false }
    modify fun s => { s with assumptions := s.assumptions.add ps }
    addParamProps ps
    let left ← simplifyGoals (k.goals.map fun g => { g with source := .moduleParam })
    modify fun s => { s with goals := s.goals ++ left }

end SizedTypes.Infer
