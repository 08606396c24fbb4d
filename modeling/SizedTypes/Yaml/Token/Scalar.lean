import SizedTypes.Yaml.Cursor

/-!
# Tokens and scalars

A YAML text is a row of tokens. Indentation shows in tokens of its own: a block starts where a
line stands further right than the block around it, and ends before the first line that does not.

Some tokens carry text. A plain or quoted scalar may run over several lines: a single line end reads
as a blank, and of several all but the first are kept. A block scalar keeps its lines, or folds them
in the same way.
-/

set_option autoImplicit false

namespace SizedTypes.Yaml

inductive Token where
  /-- A directive with the version of the format. -/
  | version (major minor : Nat)
  | documentStart
  | documentEnd
  | streamEnd
  | blockListStart
  | blockMapStart
  | blockEnd
  | flowListStart
  | flowListEnd
  | flowMapStart
  | flowMapEnd
  /-- The dash before an item. -/
  | blockEntry
  /-- The comma after an item. -/
  | flowEntry
  /-- Before a key. -/
  | key
  /-- The colon after a key. -/
  | value
  | reference (name : String)
  | anchor (name : String)
  | tag (handle suffix : String)
  | scalar (plain : Bool) (text : String)
deriving DecidableEq, Repr, Inhabited

/-! ## Folding -/

/-- A scalar while it is read: its text, and the gap since its last character. Lists of characters
are in reverse. -/
structure Folded where
  text : List Char := []
  /-- Blanks of a gap within a line. -/
  blanks : List Char := []
  /-- The gap runs over a line end. -/
  broken : Bool := false
  firstBreak : Option Char := none
  moreBreaks : List Char := []
deriving Inhabited

namespace Folded

/-- There is a gap. -/
def pending (f : Folded) : Bool := f.broken || !f.blanks.isEmpty

/-- Read a blank or a break. Blanks around a break do not count. -/
def gap (f : Folded) (c : Char) : Folded :=
  if isBlank c then
    if f.broken then f else { f with blanks := c :: f.blanks }
  else if f.broken then { f with moreBreaks := c :: f.moreBreaks }
  else { f with blanks := [], broken := true, firstBreak := some c }

/-- What a gap stands for. -/
def gapText (f : Folded) : List Char :=
  if !f.broken then f.blanks
  else match f.firstBreak with
    | some '\n' => if f.moreBreaks.isEmpty then [' '] else f.moreBreaks
    | some c => f.moreBreaks ++ [c]
    | none => f.moreBreaks

/-- Close the gap. -/
def join (f : Folded) : Folded := { text := f.gapText ++ f.text }

/-- Add characters, the gap before them. -/
def add (f : Folded) (cs : List Char) : Folded := { text := cs.reverse ++ f.join.text }

def result (f : Folded) : String := String.ofList f.text.reverse

end Folded

/-! ## Plain scalars -/

/-- Characters that end a plain scalar between brackets. -/
def flowIndicators : List Char := [',', '?', '[', ']', '\x7b', '\x7d']

/-- A plain scalar ends before these. -/
def endsPlain (inFlow : Bool) (c : Char) (after : Option Char) : Bool :=
  (c == ':' && endsWord after) || (inFlow && flowIndicators.contains c)

/-- The rest of a plain scalar. Outside of brackets its lines are indented by more than `indent`;
a tab may not stand for indentation. -/
def plainFrom (inFlow : Bool) (indent : Int) (f : Folded) (c : Cursor) :
    Option (Folded × Cursor) :=
  match _h : c.rest with
  | [] => some (f, c)
  | ch :: _ =>
    if isGap ch then
      if f.broken && ch == '\t' && (c.col : Int) ≤ indent then none
      else plainFrom inFlow indent (f.gap ch) c.next
    else if f.pending && (ch == '#' || (!inFlow && (c.col : Int) ≤ indent)) then some (f, c)
    else if c.atMarker || endsPlain inFlow ch (c.ahead 1) then some (f, c)
    else plainFrom inFlow indent (f.add [ch]) c.next
termination_by c.rest.length
decreasing_by all_goals simp [Cursor.length_next, _h]

/-! ## Quoted scalars -/

/-- Single quotes: a quote inside is written twice. -/
def singleFrom (f : Folded) (c : Cursor) : Option (String × Cursor) :=
  match _h : c.rest with
  | [] => none
  | ch :: _ =>
    if isGap ch then singleFrom (f.gap ch) c.next
    else if c.atMarker then none
    else if ch == '\x27' then
      if c.ahead 1 == some '\x27' then singleFrom (f.add ['\x27']) (c.skip 2)
      else some (f.join.result, c.next)
    else singleFrom (f.add [ch]) c.next
termination_by c.rest.length
decreasing_by
  all_goals
    simp only [Cursor.length_next, Cursor.length_skip, _h, List.length_cons]
    omega

/-- Characters behind a backslash that stand for one character. -/
def escapes : List (Char × Char) :=
  [('0', '\x00'), ('a', '\x07'), ('b', '\x08'), ('t', '\t'), ('\t', '\t'), ('n', '\n'),
    ('v', '\x0b'), ('f', '\x0c'), ('r', '\r'), ('e', '\x1b'), (' ', ' '), ('\x22', '\x22'),
    ('\x27', '\x27'), ('\\', '\\'), ('N', '\u0085'), ('_', '\u00a0'), ('L', '\u2028'),
    ('P', '\u2029')]

def hexValue? (cs : List Char) : Option Nat :=
  cs.foldlM (fun n c =>
    if c.isDigit then some (n * 16 + (c.toNat - '0'.toNat))
    else if 'a' ≤ c.toLower && c.toLower ≤ 'f' then
      some (n * 16 + (c.toLower.toNat - 'a'.toNat + 10))
    else none) 0

/-- A character by its code point in `n` hexadecimal digits. -/
def codePoint? (n : Nat) (cs : List Char) : Option Char := do
  if (cs.take n).length < n then none
  let v ← hexValue? (cs.take n)
  if v < 0xd800 || (0xdfff < v && v ≤ 0x10ffff) then some (Char.ofNat v) else none

/-- The character that an escape stands for, and the length of the escape behind its backslash. -/
def escape? : List Char → Option (Char × Nat)
  | [] => none
  | 'x' :: cs => (codePoint? 2 cs).map fun c => (c, 3)
  | 'u' :: cs => (codePoint? 4 cs).map fun c => (c, 5)
  | 'U' :: cs => (codePoint? 8 cs).map fun c => (c, 9)
  | e :: _ => (escapes.lookup e).map fun c => (c, 1)

/-- Double quotes: a backslash starts an escape, and at the end of a line it joins the lines. -/
def doubleFrom (f : Folded) (c : Cursor) : Option (String × Cursor) :=
  match _h : c.rest with
  | [] => none
  | ch :: after =>
    if isGap ch then doubleFrom (f.gap ch) c.next
    else if c.atMarker then none
    else if ch == '\x22' then some (f.join.result, c.next)
    else if ch == '\\' then
      if after.head?.any isBreak then doubleFrom { f.join with broken := true } (c.skip 2)
      else match escape? after with
        | some (e, n) => doubleFrom (f.add [e]) (c.skip (n + 1))
        | none => none
    else doubleFrom (f.add [ch]) c.next
termination_by c.rest.length
decreasing_by
  all_goals
    simp only [Cursor.length_next, Cursor.length_skip, _h, List.length_cons]
    omega

/-! ## Block scalars -/

/-- What a block scalar keeps of the line ends behind its text. -/
inductive Chomp where
  | strip
  | clip
  | keep
deriving DecidableEq, Inhabited

/-- The marks behind the indicator, in either order: what to keep, and by how much the text is
indented. -/
def blockHeader (c : Cursor) : Option (Chomp × Nat × Cursor) :=
  let sign (c : Cursor) : Chomp × Cursor := match c.peek with
    | some '+' => (.keep, c.next)
    | some '-' => (.strip, c.next)
    | _ => (.clip, c)
  let digit (c : Cursor) : Option (Nat × Cursor) := match c.peek with
    | some d =>
      if d == '0' then none
      else if d.isDigit then some (d.toNat - '0'.toNat, c.next) else some (0, c)
    | none => some (0, c)
  let (chomp, after) := sign c
  if chomp ≠ .clip then (digit after).map fun d => (chomp, d.1, d.2)
  else (digit c).map fun d => let (chomp, after) := sign d.2; (chomp, d.1, after)

/-- Blanks and a comment to the end of a line, and the line end. -/
def restOfLine (c : Cursor) : Option Cursor :=
  let c := c.skipWhile isBlank
  let c := if c.peek == some '#' then c.skipWhile (!isBreak ·) else c
  if c.peek.all isBreak then some c.next else none

/-- Indentation and empty lines. An indentation of zero is not known yet: the deepest line counts.
The result is the line ends in reverse, and how deep the lines are. -/
def emptyLines (indent : Nat) : Nat → (deepest : Nat) → List Char → Cursor →
    Option (List Char × Nat × Cursor)
  | 0, _, _, _ => none
  | fuel + 1, deepest, breaks, c =>
    let spaces := (c.rest.takeWhile (· == ' ')).length
    let c := c.skip (if indent = 0 then spaces else min spaces (indent - c.col))
    let deepest := max deepest c.col
    match c.peek with
    | some ch =>
      if ch == '\t' && (indent == 0 || c.col < indent) then none
      else if isBreak ch then emptyLines indent fuel deepest (ch :: breaks) c.next
      else some (breaks, deepest, c)
    | none => some (breaks, deepest, c)

/-- The text so far, the end of its last line and the empty lines after it. -/
structure BlockText where
  text : List Char := []
  lineEnd : List Char := []
  breaks : List Char := []
  /-- The last line starts with a blank. -/
  indented : Bool := false

/-- Add a line. Folding puts a blank in place of a line feed between two lines without further
indentation, and nothing if empty lines follow it. -/
def BlockText.addLine (folds : Bool) (b : BlockText) (line : List Char) : BlockText :=
  let deeper := line.head?.any isBlank
  let between :=
    if folds && !b.indented && !deeper && b.lineEnd == ['\n'] then
      if b.breaks.isEmpty then [' '] else []
    else b.lineEnd
  { text := line.reverse ++ b.breaks ++ between ++ b.text, indented := deeper }

/-- The lines of a block scalar. -/
def blockLines (folds : Bool) (indent : Nat) : Nat → BlockText → Cursor →
    Option (BlockText × Cursor)
  | 0, _, _ => none
  | fuel + 1, b, c =>
    if c.col == indent && !c.rest.isEmpty then do
      let line := c.rest.takeWhile (!isBreak ·)
      let after := c.skip line.length
      let lineEnd := after.peek.toList
      let (breaks, _, next) ← emptyLines indent (after.rest.length + 1) 0 [] after.next
      blockLines folds indent fuel { b.addLine folds line with lineEnd, breaks } next
    else some (b, c)

/-- A block scalar behind its indicator. -/
def blockScalar (folds : Bool) (outer : Int) (c : Cursor) : Option (String × Cursor) := do
  let (chomp, extra, c) ← blockHeader c
  let c ← restOfLine c
  let given := if extra = 0 then 0 else (max outer 0).toNat + extra
  let (breaks, deepest, c) ← emptyLines given (c.rest.length + 1) 0 [] c
  let indent := if given = 0 then max (max deepest (outer + 1).toNat) 1 else given
  let (b, c) ← blockLines folds indent (c.rest.length + 1) { breaks } c
  let tail := match chomp with
    | .strip => []
    | .clip => b.lineEnd
    | .keep => b.breaks ++ b.lineEnd
  return (String.ofList (tail ++ b.text).reverse, c)

end SizedTypes.Yaml
