import SizedTypes.Infer.Monad

/-!
# Resolving selections

At the end of a run every pending selection becomes a plain one, lifted through sequences and
functions as its goal was solved, and every type gets its final form.
-/

set_option autoImplicit false

namespace SizedTypes

open SizedTypes.Core (Decl Group Match Term)

/-- One step between a selection and the record that it reaches. -/
inductive Lift where
  /-- Over the elements of a sequence; `inner` is what is selected from one of them. -/
  | seq (len elem inner : Ty)
  /-- Over the results of a function. -/
  | arrow (arg : Ty)
deriving Inhabited

/-- How a selection reaches its record: the lifts, then the selector and the type of the record. -/
structure Route where
  lifts : List Lift
  sel : Selector
  record : Ty
deriving Inhabited

/-- What is needed to resolve selections. -/
structure Resolver where
  /-- The final form of a type. -/
  zonk : Ty → Ty
  goals : Table Int SelectorGoal
  solutions : Table Int Solution

namespace Resolver

/-- The route of a goal. A solution refers to a later goal, so the number of solutions bounds the
lifts. A goal without a solution is a plain selection. -/
def route (r : Resolver) : Nat → Int → Route
  | 0, _ => default
  | fuel + 1, goal =>
    match r.solutions.find? goal with
    | some (.direct sel record) => ⟨[], sel, record⟩
    | some (.overSeq sub len elem inner) =>
      let rest := r.route fuel sub
      { rest with lifts := .seq len elem inner :: rest.lifts }
    | some (.overArrow sub arg) =>
      let rest := r.route fuel sub
      { rest with lifts := .arrow arg :: rest.lifts }
    | none => match r.goals.find? goal with
      | some g => ⟨[], g.sel, g.record⟩
      | none => default

def routeOf (r : Resolver) (goal : Int) : Route := r.route (r.solutions.length + 1) goal

/-- A fresh name for a lifted selection. -/
def freshLocal (ident : String) : StateM Supply Name := fun s => s.fresh ident

/-- Select along a route. -/
def selectAlong (zonk : Ty → Ty) (sel : Selector) : List Lift → Term → StateM Supply Term
  | [], e => return .select e sel
  | .seq len elem inner :: lifts, e => do
    let x ← freshLocal "x"
    let result ← selectAlong zonk sel lifts (.var x)
    return .comp (zonk len) (zonk inner) result [[.draw x (zonk len) (zonk elem) e]]
  | .arrow arg :: lifts, e => do
    let x ← freshLocal "x"
    return .abs x (zonk arg) (← selectAlong zonk sel lifts (.app e (.var x)))

/-- Update along a route. -/
def updateAlong (zonk : Ty → Ty) (sel : Selector) (record : Ty) :
    List Lift → Term → Term → StateM Supply Term
  | [], e, v => return .update (zonk record) e sel v
  | .seq len elem inner :: lifts, e, v => do
    let x ← freshLocal "x"
    let y ← freshLocal "y"
    let result ← updateAlong zonk sel record lifts (.var x) (.var y)
    return .comp (zonk len) (zonk elem) result
      [[.draw x (zonk len) (zonk elem) e], [.draw y (zonk len) (zonk inner) v]]
  | .arrow arg :: lifts, e, v => do
    let x ← freshLocal "x"
    return .abs x (zonk arg)
      (← updateAlong zonk sel record lifts (.app e (.var x)) (.app v (.var x)))

def select (r : Resolver) (goal : Int) (e : Term) : StateM Supply Term :=
  let route := r.routeOf goal
  selectAlong r.zonk route.sel route.lifts e

def update (r : Resolver) (goal : Int) (e v : Term) : StateM Supply Term :=
  let route := r.routeOf goal
  updateAlong r.zonk route.sel route.record route.lifts e v

mutual
/-- Resolve a term, its parts first. -/
def term (r : Resolver) : Term → StateM Supply Term
  | .var n => return .var n
  | .groupVar n token => return .groupVar n token
  | .typeApp e t => return .typeApp (← r.term e) (r.zonk t)
  | .proofApp e => return .proofApp (← r.term e)
  | .app fn arg => do
    let fn ← r.term fn
    return .app fn (← r.term arg)
  | .abs n t body => return .abs n (r.zonk t) (← r.term body)
  | .typeAbs p body => return .typeAbs p (← r.term body)
  | .proofAbs prop body => return .proofAbs (r.zonk prop) (← r.term body)
  | .tuple es => return .tuple (← r.terms es)
  | .record fs => return .record (← r.fields fs)
  | .select e sel => return .select (← r.term e) sel
  | .update t e sel v => do
    let e ← r.term e
    return .update (r.zonk t) e sel (← r.term v)
  | .list es t => return .list (← r.terms es) (r.zonk t)
  | .comp len elem result arms => do
    let arms ← r.arms arms
    return .comp (r.zonk len) (r.zonk elem) (← r.term result) arms
  | .ifThenElse c t e => do
    let c ← r.term c
    let t ← r.term t
    return .ifThenElse c t (← r.term e)
  | .block e gs => do
    let e ← r.term e
    return .block e (← r.groups gs)
  | .located range e => return .located range (← r.term e)
  | .pendingSelect goal e => do
    let e ← r.term e
    r.select goal e
  | .pendingUpdate goal e v => do
    let e ← r.term e
    let v ← r.term v
    r.update goal e v

def terms (r : Resolver) : List Term → StateM Supply (List Term)
  | [] => return []
  | e :: es => do
    let e ← r.term e
    return e :: (← r.terms es)

def fields (r : Resolver) : List (String × Term) → StateM Supply (List (String × Term))
  | [] => return []
  | (l, e) :: fs => do
    let e ← r.term e
    return (l, e) :: (← r.fields fs)

def arms (r : Resolver) : List (List Match) → StateM Supply (List (List Match))
  | [] => return []
  | arm :: rest => do
    let arm ← r.quals arm
    return arm :: (← r.arms rest)

def quals (r : Resolver) : List Match → StateM Supply (List Match)
  | [] => return []
  | .draw n len t e :: ms => do
    let e ← r.term e
    return .draw n (r.zonk len) (r.zonk t) e :: (← r.quals ms)
  | .define d :: ms => do
    let d ← r.decl d
    return .define d :: (← r.quals ms)

/-- Resolve a definition. -/
def decl (r : Resolver) : Decl → StateM Supply Decl
  | .mk n sc (some e) prim range => do
    return .mk n (sc.mapTypes r.zonk) (some (← r.term e)) prim range
  | .mk n sc none prim range => return .mk n (sc.mapTypes r.zonk) none prim range

def decls (r : Resolver) : List Decl → StateM Supply (List Decl)
  | [] => return []
  | d :: ds => do
    let d ← r.decl d
    return d :: (← r.decls ds)

/-- Resolve the groups of a module or a block. -/
def groups (r : Resolver) : List Group → StateM Supply (List Group)
  | [] => return []
  | .mk recursive ds :: gs => do
    let ds ← r.decls ds
    return .mk recursive ds :: (← r.groups gs)
end

end Resolver

namespace Infer

/-- The final form of a type: bindings applied, closed sizes evaluated. -/
def zonk (s : Subst) (t : Ty) : Ty := (s.apply t).normalize

/-- Resolve something with what the run has found. -/
def resolving {α : Type} (act : Resolver → StateM Supply α) : Infer α := do
  let s ← get
  let r : Resolver := ⟨zonk s.subst, s.selectorGoals, s.solutions⟩
  let (a, supply) := act r s.supply
  set { s with supply }
  return a

end Infer
end SizedTypes
