import SizedTypes.Options
import SizedTypes.Yaml.Node
import SizedTypes.Yaml.Writer

/-!
# Option files

Options are a mapping from their names to values. Names that are not present keep their defaults;
an unknown name, a name given twice and a value of the wrong sort are refused. A mapping can take
over entries of others, which never replace its own.
-/

set_option autoImplicit false

namespace SizedTypes.Options

open Yaml (Node)

/-! ## Values -/

/-- A text, or nothing. -/
def readText : Node → Option (Option String)
  | .scalar tag plain s =>
    (Node.reading? tag plain s).map fun r => if r = .nothing then none else some s
  | .reference _ n => readText n
  | .list _ | .mapping _ | .cycle _ => none

/-- A truth value; nothing keeps what is there. Texts may be the older words for it. -/
def readBool (current : Bool) : Node → Option Bool
  | .scalar tag plain s => do
    match ← Node.reading? tag plain s with
    | .nothing => return current
    | .truth b => return b
    | .text => Yaml.oldBool? s
    | .other => none
  | .reference _ n => readBool current n
  | .list _ | .mapping _ | .cycle _ => none

/-- A list of texts; items that say nothing are left out. -/
def readTexts : Node → Option (List String)
  | .list items => (items.mapM readText).map fun ts => ts.filterMap id
  | .scalar tag plain s => do
    if (← Node.reading? tag plain s) = .nothing then return [] else none
  | .reference _ n => readTexts n
  | .mapping _ | .cycle _ => none

/-- Set the option with a name. -/
def assign (o : Options) (key : String) (v : Node) : Option Options :=
  match key with
  | "mono_binds" => (readBool o.monoBinds v).map fun b => { o with monoBinds := b }
  | "call_stacks" => (readBool o.callStacks v).map fun b => { o with callStacks := b }
  | "search_path" => (readTexts v).map fun ps => { o with searchPath := ps }
  | _ => none

/-! ## Mappings -/

/-- Options while a mapping is read. -/
structure Filling where
  options : Options
  /-- Names that the mapping itself has set. -/
  done : List String := []
  /-- Names that are not taken over any more, while entries of another mapping are read. -/
  taken : Option (List String) := none

/-- Read an entry. A key that says nothing is passed over, and so is one that is taken. -/
def Filling.entry (f : Filling) (e : Node × Node) : Option Filling := do
  if e.1.isMerge then return f
  match ← readText e.1 with
  | none => return f
  | some key =>
    if f.taken.any fun ks => ks.contains key then return f
    if f.done.contains key then none
    return { options := ← assign f.options key e.2, done := key :: f.done
             taken := f.taken.map (key :: ·) }

/-- The names of the entries of a mapping. -/
def namesOf (es : List (Node × Node)) : List String :=
  es.filterMap fun e => (readText e.1).bind id

mutual
/-- Read a mapping, and then those that it takes entries from. `taken` are the names that are
not taken over any more. Several mappings come as a list. -/
def fill (o : Options) (taken : Option (List String)) (merging : Bool) :
    Node → Option (Options × Option (List String))
  | .mapping es => do
    if !Node.distinct (es.map Prod.fst) then none
    let f ← es.foldlM Filling.entry { options := o, taken }
    let (o, taken') ← fillMerged f.options (f.taken.getD (namesOf es)) es
    return (o, taken.map fun _ => taken')
  | .reference _ n => if n.isMapping then fill o taken merging n else none
  | .list items =>
    if merging && items.all Node.mayMerge then do
      let (o, taken) ← fillEach o (taken.getD []) items
      return (o, some taken)
    else none
  | .scalar _ _ _ | .cycle _ => none

/-- The entries that a mapping takes over. -/
def fillMerged (o : Options) (taken : List String) :
    List (Node × Node) → Option (Options × List String)
  | [] => some (o, taken)
  | (k, v) :: es => do
    if k.isMerge then
      let (o, taken') ← fill o (some taken) true v
      fillMerged o (taken'.getD taken) es
    else fillMerged o taken es

def fillEach (o : Options) (taken : List String) : List Node → Option (Options × List String)
  | [] => some (o, taken)
  | n :: ns => do
    let (o, taken') ← fill o (some taken) false n
    fillEach o (taken'.getD taken) ns
end

/-! ## Files -/

/-- Options from a document. One that says nothing changes nothing. -/
def ofNode? : Node → Option Options
  | .scalar tag plain s => do
    if (← Node.reading? tag plain s) = .nothing then return {} else none
  | n => (fill {} none false n).map Prod.fst

/-- Read options. -/
def parse? (s : String) : Option Options := do
  match ← Node.parse? s with
  | none => return {}
  | some n => ofNode? n

private def boolText (b : Bool) : String := if b then "true" else "false"

/-- Write options, one name after the other. -/
def render (o : Options) : String :=
  "mono_binds: " ++ boolText o.monoBinds ++ "\ncall_stacks: " ++ boolText o.callStacks
    ++ "\nsearch_path:"
    ++ (if o.searchPath.isEmpty then " []\n"
      else "\n" ++ String.join (o.searchPath.map (Yaml.textItem 4)))

end SizedTypes.Options
