import SizedTypes.Options
import SizedTypes.Scope
import SizedTypes.Solver

/-!
# Inference runs

A run threads one state: counters, the substitution, open goals, scopes and messages. An internal
error ends a run, but the state that it leaves can still be observed. What stays the same for a
whole run, and the current source range, are read-only.
-/

set_option autoImplicit false

namespace SizedTypes

/-- The next unused type variable and goal ids. -/
structure Seeds where
  typeVar : Int
  goal : Int
deriving DecidableEq, Repr, Inhabited

/-- A step of a run that can be traced. -/
inductive Event where
  | checkingModule (name : String)
  | moduleDone (name : String) (groups warnings : Nat)
  | checkingGroup (names : List String) (recursive top mono : Bool)
  | generalized (name schema : String)
  | defaulted (var type : String)
  | solverFailed (error : String) (goals : Nat)
  | solverAnswered (goals : Nat) (status : String)
  | unprovedGoals (source : String) (goals : Nat)
deriving Inhabited

/-- The type of a value variable. -/
inductive VarType where
  /-- An import, a finished binding or one with a signature. -/
  | known (schema : Schema)
  /-- A binding of the group under way, with its type so far. -/
  | inGroup (token : Int) (name : Name) (t : Ty)
deriving Inhabited

/-- How a selector goal was solved. -/
inductive Solution where
  /-- Select from the record itself, which has the type `record`. -/
  | direct (sel : Selector) (record : Ty)
  /-- Select from every element: `sub` is the goal for one of them, `inner` its result. -/
  | overSeq (sub : Int) (len elem inner : Ty)
  /-- Select from the result of a function. -/
  | overArrow (sub : Int) (arg : Ty)
deriving Inhabited

namespace Infer

/-- What is fixed while a part of a program is checked. -/
structure Context where
  options : Options
  solver : Solver
  /-- The names of well-known primitives. -/
  prims : List (String × Name)
  external : External
  range : Range

structure State where
  supply : Supply
  nextTypeVar : Int
  nextGoal : Int
  /-- How many ids of variables and parameters the run has drawn. It does not wrap around. -/
  draws : Nat := 0
  /-- Value variables in scope, by id. -/
  vars : Table Int VarType := []
  /-- What declarations have shadowed, newest first. -/
  stash : List (Int × Option VarType) := []
  /-- Parameters on which new type variables may depend. -/
  params : List Param := []
  /-- Parameters that can be referred to, by the ids of their names. -/
  typeVars : Table Int Param := []
  assumptions : Assumptions := {}
  /-- Open scopes of existential variables, innermost first. -/
  existentials : List (List (String × Ty)) := []
  subst : Subst := {}
  goals : List Goal := []
  /-- Selector goals that are not solved yet. -/
  pending : List SelectorGoal := []
  /-- All selector goals, by id. -/
  selectorGoals : Table Int SelectorGoal := []
  solutions : Table Int Solution := []
  /-- Open scopes, innermost first. -/
  scopes : List Scope := []
  errors : List Diagnostic := []
  warnings : List WarningAt := []
  events : List Event := []
  queries : List Query := []
  cancelled : Bool := false
deriving Inhabited

end Infer

/-- Computations of a run. -/
abbrev Infer (α : Type) : Type :=
  ReaderT Infer.Context (ExceptT InternalError (StateM Infer.State)) α

namespace Infer

/-- Run a computation; the state comes back even if it fails. -/
def exec {α : Type} (act : Infer α) (c : Context) (s : State) : Except InternalError α × State :=
  act c s

/-! ## Places, messages, events -/

/-- Work at a place, unless the range says nothing. -/
def withRange {α : Type} (r : Range) (act : Infer α) : Infer α :=
  withReader (fun c => { c with range := r.orElse c.range }) act

def currentRange : Infer Range := return (← read).range

def recordError (e : TypeError) : Infer Unit := do
  let range ← currentRange
  modify fun s => { s with errors := s.errors ++ [⟨range, e⟩] }

def recordWarning (w : Warning) : Infer Unit := do
  if !w.isSilent then
    let range ← currentRange
    modify fun s => { s with warnings := s.warnings ++ [⟨range, w⟩] }

def trace (e : Event) : Infer Unit := modify fun s => { s with events := s.events ++ [e] }

/-! ## Fresh things -/

/-- A variable that may depend on the parameters in scope. -/
def freshVar (k : Kind) (src : TypeSource) : Infer TyVar := do
  let s ← get
  set { s with nextTypeVar := Word.next s.nextTypeVar, draws := s.draws + 1 }
  return TyVar.ofScope s.nextTypeVar k s.params (some src)

def freshType (k : Kind) (src : TypeSource) : Infer Ty := return .free (← freshVar k src)

def freshParam (k : Kind) (name : Option Name) : Infer Param := do
  let s ← get
  set { s with nextTypeVar := Word.next s.nextTypeVar, draws := s.draws + 1 }
  return { id := s.nextTypeVar, kind := k, name }

def freshName (ident : String) : Infer Name := do
  let s ← get
  let (n, supply) := s.supply.fresh ident
  set { s with supply }
  return n

def freshGoal : Infer Int := do
  let s ← get
  set { s with nextGoal := Word.next s.nextGoal }
  return s.nextGoal

/-- The name of a primitive. -/
def prim (ident : String) : Infer Name := do
  match (← read).prims.lookup ident with
  | some n => return n
  | none => throw (.missingPrimitive ident)

/-! ## Substitution and goals -/

/-- A type under the bindings so far. -/
def applied (t : Ty) : Infer Ty := return (← get).subst.apply t

def mergeSubst (delta : Subst) : Infer Unit := do
  match (← get).subst.merge delta with
  | .ok s => modify fun st => { st with subst := s }
  | .error e => throw (.mergeFailed e.message)

/-- A new selector goal; terms refer to it by the id. -/
def newSelectorGoal (sel : Selector) (record field : Ty) : Infer Int := do
  let id ← freshGoal
  let range ← currentRange
  let g : SelectorGoal := { id, range, sel, record, field }
  modify fun s =>
    { s with pending := s.pending ++ [g], selectorGoals := s.selectorGoals.insert id g }
  return id

/-- Record a predicate to prove; a selector predicate becomes a selector goal. -/
def addGoal (src : GoalSource) (p : Ty) : Infer Unit := do
  match p.asHas? with
  | some (sel, record, field) => discard (newSelectorGoal sel record field)
  | none =>
    let range ← currentRange
    modify fun s => { s with goals := s.goals ++ [⟨src, range, p⟩] }

/-- Record predicates to prove, part by part. -/
def addGoals (src : GoalSource) (ps : List Ty) : Infer Unit :=
  (Ty.conjunctsList ps).forM (addGoal src)

/-- Run a computation and take exactly the goals that it emits. -/
def collectGoals {α : Type} (act : Infer α) : Infer (α × List Goal) := do
  let outer := (← get).goals
  modify fun s => { s with goals := [] }
  let a ← act
  let collected := (← get).goals
  modify fun s => { s with goals := outer }
  return (a, collected)

/-! ## Type parameters -/

/-- A parameter in scope with the given identifier. -/
def State.paramNamed (s : State) (ident : String) : Option Param :=
  s.typeVars.values.find? fun p => p.name.any fun n => n.ident == ident

/-- Bring one parameter into scope by its name. -/
def nameParam (p : Param) : Infer Unit := do
  match p.name with
  | none => return ()
  | some n =>
    if (← get).paramNamed n.ident |>.any fun prev => prev.id != p.id then
      recordWarning (.shadowing "type variable" n)
    modify fun s => { s with typeVars := s.typeVars.insert n.id p }

/-- Work under parameters and assumptions. -/
def withParams {α : Type} (ps : List Param) (asmps : List Ty) (act : Infer α) : Infer α := do
  let outer ← get
  modify fun s => { s with params := s.params ++ ps }
  ps.forM nameParam
  if !asmps.isEmpty then
    modify fun s => { s with assumptions := s.assumptions.add asmps }
  let a ← act
  modify fun s =>
    { s with
      typeVars := ps.foldl (fun m p => match p.name with
        | some n => m.erase n.id
        | none => m) s.typeVars
      params := outer.params
      assumptions := outer.assumptions }
  return a

/-! ## Value variables -/

/-- Declare a variable; what it shadows goes to the stash. -/
def declare (n : Name) (v : VarType) : Infer Unit :=
  modify fun s =>
    { s with stash := (n.id, s.vars.find? n.id) :: s.stash, vars := s.vars.insert n.id v }

/-- Declare a variable that is not generalized. -/
def declareMono (n : Name) (t : Ty) : Infer Unit := declare n (.known (.mono t))

/-- Restore one stashed entry. -/
def State.unstash1 (s : State) : State :=
  match s.stash with
  | [] => s
  | (id, some v) :: rest => { s with stash := rest, vars := s.vars.insert id v }
  | (id, none) :: rest => { s with stash := rest, vars := s.vars.erase id }

/-- Restore the last `n` stashed entries. -/
def unstash (n : Nat) : Infer Unit := modify fun s => n.repeat State.unstash1 s

/-- The type of a variable. Names are resolved, so every variable has one. -/
def lookupVar (n : Name) : Infer VarType := do
  match (← get).vars.find? n.id with
  | some v => return v
  | none => match (← read).external.vars.find? n.id with
    | some sc => return .known sc
    | none => throw (.unboundVariable n)

/-! ## Scopes -/

def openScope (kind : ScopeKind) (name : Name) : Infer Unit :=
  modify fun s => { s with scopes := ⟨kind, .empty name⟩ :: s.scopes }

/-- Close the innermost scope, which must be of the given sort. -/
def popScope (kind : ScopeKind) : Infer Core.Module := do
  match (← get).scopes with
  | [] => throw .noOpenScope
  | sc :: rest =>
    if sc.kind = kind then
      modify fun s => { s with scopes := rest }
      return sc.content
    else throw (.wrongScope kind sc.kind)

/-- Change the content of the innermost scope. -/
def modifyScope (f : Core.Module → Core.Module) : Infer Unit := do
  match (← get).scopes with
  | [] => throw .noOpenScope
  | sc :: rest => modify fun s => { s with scopes := { sc with content := f sc.content } :: rest }

/-- Close a block; its groups are in dependency order. -/
def closeBlock : Infer (List Core.Group) := return (← popScope .block).groups

def closeSubmodule : Infer Unit := do
  let child ← popScope .submodule
  modifyScope fun parent => Scope.absorb parent child

/-- Close the top-level module, the only scope that may be open. -/
def closeTop : Infer Core.Module := do
  if (← get).scopes.length ≠ 1 then throw .nestedScopes
  popScope .top

def addGroup (g : Core.Group) : Infer Unit :=
  modifyScope fun m => { m with groups := m.groups ++ [g] }

def addSynonym (ts : TypeSynonym) : Infer Unit :=
  modifyScope fun m => { m with synonyms := m.synonyms.insert ts.name.id ts }

def addNewtype (nt : Newtype) : Infer Unit :=
  modifyScope fun m => { m with newtypes := m.newtypes.insert nt.name.id nt }

def addPrimType (pt : PrimType) : Infer Unit :=
  modifyScope fun m => { m with primTypes := m.primTypes.insert pt.name.id pt }

def addParamType (p : ModuleParam) : Infer Unit :=
  modifyScope fun m => { m with paramTypes := m.paramTypes.insert p.name.id p }

def addParamProps (ps : List Ty) : Infer Unit :=
  modifyScope fun m => { m with paramProps := m.paramProps ++ ps }

def addParamFun (n : Name) (sc : Schema) : Infer Unit :=
  modifyScope fun m => { m with paramFuns := m.paramFuns.insert n.id sc }

def lookupSynonym (id : Int) : Infer (Option TypeSynonym) :=
  return Scope.lookup Core.Module.synonyms (← read).external.synonyms id (← get).scopes

def lookupNewtype (id : Int) : Infer (Option Newtype) :=
  return Scope.lookup Core.Module.newtypes (← read).external.newtypes id (← get).scopes

def lookupPrimType (id : Int) : Infer (Option PrimType) :=
  return Scope.lookup Core.Module.primTypes (← read).external.primTypes id (← get).scopes

def lookupParamType (id : Int) : Infer (Option ModuleParam) :=
  return Scope.lookup Core.Module.paramTypes [] id (← get).scopes

end Infer
end SizedTypes
