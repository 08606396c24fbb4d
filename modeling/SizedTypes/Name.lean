import SizedTypes.Word

/-!
# Names and source ranges

Programs arrive with every identifier resolved: two names are the same name exactly when their
ids agree. Ranges order the messages of a run.
-/

set_option autoImplicit false

namespace SizedTypes

/-! ## Source ranges -/

/-- A line and a column. -/
structure Position where
  line : Int
  col : Int
deriving DecidableEq, Repr, Inhabited

namespace Position

def text (p : Position) : String := toString p.line ++ ":" ++ toString p.col

/-- By line, then by column. -/
def before (p q : Position) : Bool :=
  if p.line ≠ q.line then decide (p.line < q.line) else decide (p.col < q.col)

end Position

/-- A span of source text; `source` names the text and may be empty. -/
structure Range where
  start : Position
  stop : Position
  source : String
deriving DecidableEq, Repr, Inhabited

namespace Range

/-- The range of terms without a source location. -/
def empty : Range := ⟨⟨0, 0⟩, ⟨0, 0⟩, ""⟩

def isEmpty (r : Range) : Bool := decide (r = empty)

def text (r : Range) : String :=
  if r.isEmpty then "<unknown>"
  else
    let span := r.start.text ++ "--" ++ r.stop.text
    if r.source = "" then span else r.source ++ ":" ++ span

/-- By source, then by start. -/
def before (r o : Range) : Bool :=
  if r.source ≠ o.source then decide (r.source < o.source) else r.start.before o.start

/-- The range that covers a whole line. -/
def ofLine (line : Int) : Range := ⟨⟨line, 1⟩, ⟨line, 80⟩, ""⟩

/-- `r`, or `outer` where `r` says nothing. -/
def orElse (r outer : Range) : Range := if r.isEmpty then outer else r

end Range

/-! ## Names -/

/-- Values and types have separate name spaces. -/
inductive Namespace where
  | value
  | type
deriving DecidableEq, Repr, Inhabited

/-- A resolved identifier. `system` names come from the checker and are never warned about. -/
structure Name where
  id : Int
  ident : String
  qualifier : String := ""
  space : Namespace := .value
  system : Bool := false
deriving DecidableEq, Repr, Inhabited

namespace Name

def text (n : Name) : String := if n.qualifier = "" then n.ident else n.qualifier ++ "::" ++ n.ident

/-- The key under which tables store what belongs to a name. -/
def key (n : Name) : Int := n.id

/-- A name of the checker's own. -/
def ofSupply (id : Int) (ident : String) : Name := { id, ident, system := true }

end Name

/-- A name supply is the next id that it hands out. -/
structure Supply where
  next : Int
deriving DecidableEq, Repr, Inhabited

namespace Supply

/-- Where the supply of a run starts unless told otherwise: at `2^30`, far above the ids of a
program. -/
def default : Supply := ⟨1073741824⟩

def fresh (s : Supply) (ident : String) : Name × Supply :=
  (Name.ofSupply s.next ident, ⟨Word.next s.next⟩)

end Supply

/-! ## Resolving identifiers -/

/-- Names handed out for one module. An identifier keeps its name until `fresh` shadows it. -/
structure NameTable where
  qualifier : String
  next : Int
  known : List (String × Name) := []
deriving Repr, Inhabited

namespace NameTable

/-- Identifiers of types are kept apart from those of values by a leading word. -/
def keyOf (ident : String) : Namespace → String
  | .value => ident
  | .type => "type " ++ ident

def find? (key : String) : List (String × Name) → Option Name
  | [] => none
  | (k, n) :: rest => if k = key then some n else find? key rest

private def create (t : NameTable) (ident : String) (space : Namespace) : Name × NameTable :=
  let n : Name := { id := t.next, ident, qualifier := t.qualifier, space }
  (n, { t with next := Word.next t.next, known := (keyOf ident space, n) :: t.known })

/-- The name of an identifier, created on its first use. -/
def resolve (t : NameTable) (ident : String) (space : Namespace) : Name × NameTable :=
  match find? (keyOf ident space) t.known with
  | some n => (n, t)
  | none => t.create ident space

/-- A new name for a value identifier, which shadows any earlier one. -/
def fresh (t : NameTable) (ident : String) : Name × NameTable := t.create ident .value

end NameTable
end SizedTypes
