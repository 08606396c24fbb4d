/-!
# Directed graphs and their components

Vertices are numbered from zero. The strongly connected components are found by one depth-first
search, Tarjan's: a vertex waits on a stack until it is known whether the search can get back from it
to a vertex that was met earlier and waits as well. If it cannot, everything above it on the stack
is its component. Components are found last ones first, so in the end their order is reversed: every
edge stays in its component or leads to a later one.
-/

set_option autoImplicit false

namespace SizedTypes

/-- The successors of each vertex, without repetition. -/
structure Graph where
  succs : List (List Nat)
deriving Inhabited, Repr

namespace Graph

/-- No edges. -/
def empty (size : Nat) : Graph := ⟨List.replicate size []⟩

def size (g : Graph) : Nat := g.succs.length

def succ (g : Graph) (v : Nat) : List Nat := (g.succs[v]?).getD []

def hasEdge (g : Graph) (v w : Nat) : Bool := (g.succ v).contains w

/-- Add an edge, unless it is there already. -/
def addEdge (g : Graph) (v w : Nat) : Graph :=
  if g.hasEdge v w then g else ⟨g.succs.modify v fun ws => ws ++ [w]⟩

def ofEdges (size : Nat) (edges : List (Nat × Nat)) : Graph :=
  edges.foldl (fun g e => g.addEdge e.1 e.2) (empty size)

/-! ## The state of a search -/

/-- A search. Vertices are numbered from one on, in the order in which they are met. -/
structure Search where
  /-- How many vertices have been met. -/
  met : Nat := 0
  /-- The number of each vertex, zero before it is met. -/
  index : List Nat
  /-- For each vertex on the stack the number of another one on it that can be reached. -/
  lowLink : List Nat
  /-- Whether each vertex is on the stack. -/
  onStack : List Bool
  /-- The vertices that wait for their component, the newest first. -/
  stack : List Nat := []
  /-- The components in the order in which they are found. -/
  found : List (List Nat) := []
deriving Repr

namespace Search

/-- No vertex has been met. -/
def start (size : Nat) : Search where
  index := List.replicate size 0
  lowLink := List.replicate size 0
  onStack := List.replicate size false

def indexOf (s : Search) (v : Nat) : Nat := (s.index[v]?).getD 0

def lowOf (s : Search) (v : Nat) : Nat := (s.lowLink[v]?).getD 0

def waits (s : Search) (v : Nat) : Bool := (s.onStack[v]?).getD false

/-- Number a vertex and put it on the stack. -/
def enter (s : Search) (v : Nat) : Search where
  met := s.met + 1
  index := s.index.set v (s.met + 1)
  lowLink := s.lowLink.set v (s.met + 1)
  onStack := s.onStack.set v true
  stack := v :: s.stack
  found := s.found

/-- A vertex with the number `low` can be reached from `v`. -/
def lower (s : Search) (v low : Nat) : Search :=
  { s with lowLink := if low < s.lowOf v then s.lowLink.set v low else s.lowLink }

/-- Split a stack below `v`. -/
def splitBelow (v : Nat) : List Nat → Option (List Nat × List Nat)
  | [] => none
  | w :: ws => if w = v then some ([w], ws) else (splitBelow v ws).map fun e => (w :: e.1, e.2)

/-- Leave a vertex after all of its edges. If no vertex below it on the stack can be reached, take
its component off the stack. -/
def leave (s : Search) (v : Nat) : Option Search :=
  if s.lowOf v ≠ s.indexOf v then some s
  else (splitBelow v s.stack).map fun e =>
    { s with
      onStack := e.1.foldl (fun flags w => flags.set w false) s.onStack
      stack := e.2
      found := s.found ++ [e.1] }

/-- Follow an edge from `v` to `w`, by `visit` if it leads to a new vertex. -/
def follow (visit : Nat → Search → Option Search) (v : Nat) (s : Search) (w : Nat) :
    Option Search :=
  match s.index[w]? with
  | none => none
  | some 0 => (visit w s).map fun s => s.lower v (s.lowOf w)
  | some (i + 1) => some (if s.waits w then s.lower v (i + 1) else s)

end Search

/-! ## Components -/

/-- Visit a new vertex and all that can be reached from it. There is no result if an edge leads out
of the graph, or if the search would go deeper than `depth`. -/
def visit (g : Graph) : Nat → Nat → Search → Option Search
  | 0, _, _ => none
  | depth + 1, v, s =>
    ((g.succ v).foldlM (Search.follow (visit g depth) v) (s.enter v)).bind fun s => s.leave v

/-- Visit those of the vertices that have not been met. -/
def visitAll (g : Graph) (depth : Nat) (vs : List Nat) (s : Search) : Option Search :=
  vs.foldlM (fun s v => if s.indexOf v = 0 then g.visit depth v s else some s) s

/-- The strongly connected components in topological order, by a search that goes no deeper than
`depth`. -/
def scc (g : Graph) (depth : Nat) : Option (List (List Nat)) :=
  (g.visitAll depth (List.range g.size) (.start g.size)).map fun s => s.found.reverse

/-- Vertices in increasing order. -/
def increasing (g : Graph) (c : List Nat) : List Nat := (List.range g.size).filter c.contains

/-- The strongly connected components in topological order, each in increasing order. No search goes
deeper than there are vertices. -/
def components (g : Graph) : List (List Nat) := ((g.scc g.size).getD []).map g.increasing

end Graph
end SizedTypes
