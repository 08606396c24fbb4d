import SizedTypes.Yaml.ScalarKind
import SizedTypes.Yaml.Token.Lexer

/-!
# Documents as trees

The first document of a text as a tree of scalars, lists and mappings. A reference holds the node
that its anchor names; inside of that node itself there is no end to it.
-/

set_option autoImplicit false

namespace SizedTypes.Yaml

inductive Node where
  /-- A scalar with its tag; the empty tag `!` counts as none. -/
  | scalar (tag : Option String) (plain : Bool) (text : String)
  | list (items : List Node)
  | mapping (entries : List (Node × Node))
  | reference (name : String) (target : Node)
  /-- A reference to a node around it. -/
  | cycle (name : String)
deriving Inhabited, Repr

namespace Node

/-- What stands where nothing is written. -/
def empty : Node := .scalar none true ""

def isMapping : Node → Bool
  | mapping _ => true
  | _ => false

/-- A mapping, or a reference to one: something whose entries can be taken over. -/
def mayMerge : Node → Bool
  | mapping _ => true
  | reference _ n => n.isMapping
  | cycle _ => true
  | _ => false

/-- The key under which a mapping takes over the entries of others. -/
def isMerge : Node → Bool
  | scalar none plain text => plain && text == "<<"
  | scalar (some t) _ text => t == "!!merge" && text == "<<"
  | _ => false

/-- Two keys that one mapping may not have: nodes of one sort with the same text, where lists and
mappings have none. -/
def clashes : Node → Node → Bool
  | scalar _ _ s, scalar _ _ t => s == t
  | list _, list _ => true
  | mapping _, mapping _ => true
  | reference a _, reference b _ | reference a _, cycle b | cycle a, reference b _
  | cycle a, cycle b => a == b
  | _, _ => false

/-- No two of the keys clash. -/
def distinct : List Node → Bool
  | [] => true
  | k :: ks => !ks.any k.clashes && distinct ks

/-! ## What a scalar says -/

/-- What a scalar says to a reader of texts and truth values. -/
inductive Reading where
  | nothing
  | truth (b : Bool)
  | text
  /-- A number or a date. -/
  | other
deriving DecidableEq, Repr, Inhabited

def Reading.ofKind : ScalarKind → Reading
  | .null => nothing
  | .bool b => truth b
  | .text => text
  | .int | .float | .timestamp => other

/-- Whether a tag admits what its scalar looks like. -/
def admits (tag : String) : ScalarKind → Bool
  | .null => tag == "!!null"
  | .bool _ => tag == "!!bool"
  | .int => tag == "!!int" || tag == "!!float"
  | .float => tag == "!!float"
  | .timestamp => tag == "!!timestamp"
  | .text => false

/-- Tags of scalars whose text is looked at. -/
def valueTags : List String := ["!!bool", "!!int", "!!float", "!!null", "!!timestamp"]

/-- Quoted scalars are texts, and so are those with a tag that says so or is not known. Any other
tag has to fit. Binary data is refused. -/
def reading? (tag : Option String) (plain : Bool) (s : String) : Option Reading :=
  match tag with
  | none => some (if plain then .ofKind (kindOf true s) else .text)
  | some t =>
    if t == "!!binary" then none
    else if valueTags.contains t then
      let k := kindOf (t == "!!timestamp") s
      if admits t k then some (.ofKind k) else none
    else some .text

/-! ## Reading tokens -/

/-- The tokens that are left, and the nodes that anchors name; those that are not complete yet have
none. -/
structure Source where
  tokens : List Token
  anchors : List (String × Option Node) := []

abbrev Reader : Type → Type := StateT Source Option

namespace Reader

def peek : Reader Token := do
  match (← get).tokens with
  | t :: _ => return t
  | [] => failure

def drop : Reader Unit := modify fun s => { s with tokens := s.tokens.tail }

/-- Let an anchor name a node. -/
def name (a : String) (n : Option Node) : Reader Unit :=
  modify fun s => { s with anchors := (a, n) :: s.anchors }

def refer (a : String) : Reader Node := do
  match (← get).anchors.lookup a with
  | some (some n) => return .reference a n
  | some none => return .cycle a
  | none => failure

/-- Read a node under an anchor, unless an inner node has taken the name over. -/
def anchored (anchor : Option String) (act : Reader Node) : Reader Node := do
  match anchor with
  | none => act
  | some a =>
    name a none
    let n ← act
    if ((← get).anchors.lookup a).any Option.isNone then name a (some n)
    return n

/-- The full text of a tag, the common ones in short. -/
def tagText (handle suffix : String) : Option String :=
  let common := "tag:yaml.org,2002:"
  if handle == "!!" || handle == "!" then some (handle ++ suffix)
  else if handle != "" then none
  else if suffix.startsWith common then
    some ("!!" ++ String.ofList (suffix.toList.drop common.length))
  else some suffix

def readAnchor : Reader (Option String) := do
  match ← peek with
  | .anchor a =>
    drop
    return some a
  | _ => return none

def readTag : Reader (Option String) := do
  match ← peek with
  | .tag handle suffix =>
    drop
    match tagText handle suffix with
    | some t => return some t
    | none => failure
  | _ => return none

/-- The anchor and the tag before a node, in either order. -/
def properties : Reader (Option String × Option String) := do
  match ← readAnchor with
  | some a => return (some a, ← readTag)
  | none =>
    match ← readTag with
    | some t => return (← readAnchor, some t)
    | none => return (none, none)

/-- One of these tokens is next. -/
def nextIn (ts : List Token) : Reader Bool := return ts.contains (← peek)

/-- `act`, or an empty node if one of the tokens is next. -/
def orEmpty (ts : List Token) (act : Reader Node) : Reader Node := do
  if ← nextIn ts then return .empty else act

mutual
/-- A node. Only a block holds further blocks, and only an entry of a block mapping a list without
indentation of its own. -/
def node : Nat → (block bare : Bool) → Reader Node
  | 0, _, _ => failure
  | fuel + 1, block, bare => do
    match ← peek with
    | .reference a =>
      drop
      refer a
    | _ =>
      let (anchor, tag) ← properties
      anchored anchor (content fuel block bare (anchor.isSome || tag.isSome)
        (tag.filter (· != "!")))

/-- A node behind its properties; if there are some, the node may be empty. -/
def content : Nat → (block bare optional : Bool) → Option String → Reader Node
  | 0, _, _, _, _ => failure
  | fuel + 1, block, bare, optional, tag => do
    match ← peek, block, bare with
    | .blockEntry, _, true => return .list (← bareItems fuel)
    | .scalar plain s, _, _ =>
      drop
      return .scalar tag plain s
    | .flowListStart, _, _ =>
      drop
      return .list (← flowItems fuel true)
    | .flowMapStart, _, _ =>
      drop
      return .mapping (← flowEntries fuel true)
    | .blockListStart, true, _ =>
      drop
      return .list (← blockItems fuel)
    | .blockMapStart, true, _ =>
      drop
      return .mapping (← blockEntries fuel)
    | _, _, _ => if optional then return .scalar tag true "" else failure

def blockItems : Nat → Reader (List Node)
  | 0 => failure
  | fuel + 1 => do
    match ← peek with
    | .blockEntry =>
      drop
      let n ← orEmpty [.blockEntry, .blockEnd] (node fuel true false)
      return n :: (← blockItems fuel)
    | .blockEnd =>
      drop
      return []
    | _ => failure

/-- Items in the column of the mapping around them. -/
def bareItems : Nat → Reader (List Node)
  | 0 => failure
  | fuel + 1 => do
    match ← peek with
    | .blockEntry =>
      drop
      let n ← orEmpty [.blockEntry, .key, .value, .blockEnd] (node fuel true false)
      return n :: (← bareItems fuel)
    | _ => return []

def blockEntries : Nat → Reader (List (Node × Node))
  | 0 => failure
  | fuel + 1 => do
    match ← peek with
    | .key =>
      drop
      let k ← orEmpty [.key, .value, .blockEnd] (node fuel true true)
      let v ← blockValue fuel
      return (k, v) :: (← blockEntries fuel)
    | .blockEnd =>
      drop
      return []
    | _ => failure

def blockValue : Nat → Reader Node
  | 0 => failure
  | fuel + 1 => do
    match ← peek with
    | .value =>
      drop
      orEmpty [.key, .value, .blockEnd] (node fuel true true)
    | _ => return .empty

/-- The items of a list in brackets; a comma may follow the last one. -/
def flowItems : Nat → (first : Bool) → Reader (List Node)
  | 0, _ => failure
  | fuel + 1, first => do
    if !first && (← peek) == .flowEntry then drop
    else if !first && (← peek) != .flowListEnd then failure
    match ← peek with
    | .flowListEnd =>
      drop
      return []
    | .key =>
      drop
      let k ← orEmpty [.value, .flowEntry, .flowListEnd] (node fuel false false)
      let v ← flowValue fuel
      return .mapping [(k, v)] :: (← flowItems fuel false)
    | _ =>
      let n ← node fuel false false
      return n :: (← flowItems fuel false)

/-- The entries of a mapping in braces; a key may stand without a value. -/
def flowEntries : Nat → (first : Bool) → Reader (List (Node × Node))
  | 0, _ => failure
  | fuel + 1, first => do
    if !first && (← peek) == .flowEntry then drop
    else if !first && (← peek) != .flowMapEnd then failure
    match ← peek with
    | .flowMapEnd =>
      drop
      return []
    | .key =>
      drop
      let k ← orEmpty [.value, .flowEntry, .flowMapEnd] (node fuel false false)
      let v ← flowValue fuel
      return (k, v) :: (← flowEntries fuel false)
    | _ =>
      let k ← node fuel false false
      return (k, .empty) :: (← flowEntries fuel false)

def flowValue : Nat → Reader Node
  | 0 => failure
  | fuel + 1 => do
    match ← peek with
    | .value =>
      drop
      orEmpty [.flowEntry, .flowListEnd, .flowMapEnd] (node fuel false false)
    | _ => return .empty
end

/-- A version directive and the mark of a document's start, where they are. -/
def prologue : Reader Bool := do
  let directive ← match ← peek with
    | .version major minor =>
      drop
      if major = 1 ∧ minor = 1 then pure true else failure
    | _ => pure false
  match ← peek with
  | .documentStart =>
    drop
    return true
  | _ => if directive then failure else return false

/-- The first document, if there is one. What follows is looked at, but not read. -/
def document (fuel : Nat) : Reader (Option Node) := do
  if (← peek) == .streamEnd then return none
  let marked ← prologue
  let missing ← match ← peek with
    | .version _ _ | .documentStart | .documentEnd | .streamEnd => pure marked
    | _ => pure false
  let n ← if missing then pure .empty else node fuel true false
  discard peek
  return some n

end Reader

/-- The tree of the first document of a text; a text without a document has none. -/
def parse? (s : String) : Option (Option Node) :=
  let cs := match s.toList with
    | '\ufeff' :: cs => cs
    | cs => cs
  if cs.all isAllowed then
    let tokens := Token.scan (unifyBreaks cs)
    ((Reader.document (4 * tokens.length + 4)).run { tokens }).map Prod.fst
  else none

end Node
end SizedTypes.Yaml
