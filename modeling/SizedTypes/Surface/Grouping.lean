import SizedTypes.Surface.Expr
import SizedTypes.Graph
import SizedTypes.Table

/-!
# Grouping bindings

Bindings are split into the strongly connected groups of their references, each after the groups
that it refers to. Names are resolved, so a reference is matched by id and scopes play no part.
-/

set_option autoImplicit false

namespace SizedTypes.Surface

/-- The position of each binding by the id of its name; of several with one name the last. -/
def bindPositions (binds : List Bind) : Table Int Nat :=
  Table.ofList (binds.zipIdx.map fun b => (b.1.name.id, b.2))

/-- For each binding the positions of the bindings to which its body refers, itself included. -/
def references (binds : List Bind) : List (List Nat) :=
  let positions := bindPositions binds
  binds.map fun b => (varIds b.subterms).filterMap fun id => positions.find? id

/-- An edge leads from a binding to each other binding that refers to it. -/
def dependencyGraph (binds : List Bind) : Graph :=
  Graph.ofEdges binds.length <| (references binds).zipIdx.flatMap fun r =>
    (r.1.filter fun dep => dep != r.2).map fun dep => (dep, r.2)

/-- Whether the bindings of a component refer to each other or one to itself. -/
def isRecursive (refs : List (List Nat)) (c : List Nat) : Bool :=
  decide (1 < c.length) || c.any fun v => ((refs[v]?).getD []).contains v

/-- The groups of bindings in dependency order; within a group the order is kept. -/
def groupBindings (binds : List Bind) : List (Bool × List Bind) :=
  let refs := references binds
  (dependencyGraph binds).components.map fun c =>
    (isRecursive refs c, c.filterMap fun v => binds[v]?)

/-- All bindings of the groups among declarations. -/
def bindsOf : List Decl → List Bind
  | [] => []
  | .group _ bs :: ds => bs ++ bindsOf ds
  | _ :: ds => bindsOf ds

/-- Declarations without their groups. -/
def withoutGroups : List Decl → List Decl
  | [] => []
  | .group _ _ :: ds => withoutGroups ds
  | d :: ds => d :: withoutGroups ds

/-- Put the groups of all bindings in place of the first group, and drop the others. -/
def regroup (groups : List (Bool × List Bind)) : List Decl → List Decl
  | [] => []
  | .group _ _ :: ds => groups.map (fun g => .group g.1 g.2) ++ withoutGroups ds
  | d :: ds => d :: regroup groups ds

/-- Split the groups among declarations into strongly connected ones. Other declarations keep
their places. -/
def groupDecls (ds : List Decl) : List Decl := regroup (groupBindings (bindsOf ds)) ds

end SizedTypes.Surface
