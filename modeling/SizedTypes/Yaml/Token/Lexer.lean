import SizedTypes.Yaml.Token.Scalar

/-!
# Splitting a text into tokens

Whether a scalar is a key shows only at the colon behind it. So each place where a key may stand is
remembered, one for each level of brackets, and the tokens that start a key or a block are put
before it once the colon is found. A key and its colon stand on one line.
-/

set_option autoImplicit false

namespace SizedTypes.Yaml

/-- A place where a key may have started. -/
structure KeyPlace where
  /-- The number of tokens before it. -/
  number : Nat
  /-- Nothing but a key may stand there. -/
  required : Bool
  line : Nat
  col : Nat
  index : Nat
deriving Inhabited

structure Lexer where
  cursor : Cursor
  tokens : List Token := []
  /-- The column of the innermost block, and those of the blocks around it. -/
  indent : Int := -1
  indents : List Int := []
  /-- Where a key may have started, innermost brackets first. -/
  keys : List (Option KeyPlace) := [none]
  /-- A key may start here. -/
  keyAllowed : Bool := true
  finished : Bool := false
deriving Inhabited

namespace Lexer

/-- Between brackets, where indentation means nothing. -/
def inFlow (l : Lexer) : Bool := decide (1 < l.keys.length)

def put (l : Lexer) (t : Token) : Lexer := { l with tokens := l.tokens ++ [t] }

/-- Pass over `n` characters that make up a token. -/
def take (l : Lexer) (n : Nat) (t : Token) : Lexer :=
  { l.put t with cursor := l.cursor.skip n }

def allowKey (l : Lexer) (allowed : Bool) : Lexer := { l with keyAllowed := allowed }

/-! ## Blocks -/

/-- Start a block if the column is right of the innermost one. Its token goes before the token
with the given number, or to the end. -/
def openBlock (l : Lexer) (col : Nat) (number : Nat) (t : Token) : Lexer :=
  if !l.inFlow && l.indent < col then
    { l with
      tokens := l.tokens.insertIdx number t
      indent := col
      indents := l.indent :: l.indents }
  else l

/-- The blocks that end before a column. -/
def endedBlocks (col : Int) : Int → List Int → List Token × Int × List Int
  | indent, [] => ([], indent, [])
  | indent, outer :: rest =>
    if col < indent then
      let (ts, left) := endedBlocks col outer rest
      (.blockEnd :: ts, left)
    else ([], indent, outer :: rest)

/-- End the blocks that stand right of a column. -/
def closeBlocks (l : Lexer) (col : Int) : Lexer :=
  if l.inFlow then l
  else
    let (ts, indent, indents) := endedBlocks col l.indent l.indents
    { l with tokens := l.tokens ++ ts, indent, indents }

/-! ## Places of keys -/

/-- No key starts at the place remembered last. -/
def dropKey (l : Lexer) : Option Lexer :=
  match l.keys with
  | some k :: ks => if k.required then none else some { l with keys := none :: ks }
  | _ => some l

/-- Remember that a key may start here. -/
def saveKey (l : Lexer) : Option Lexer :=
  if !l.keyAllowed then some l
  else do
    let l ← l.dropKey
    let c := l.cursor
    let k : KeyPlace :=
      { number := l.tokens.length, required := !l.inFlow && l.indent == c.col
        line := c.line, col := c.col, index := c.index }
    return { l with keys := some k :: l.keys.tail }

/-- A key ends on its line and is not too long. -/
def inReach (l : Lexer) (k : KeyPlace) : Bool :=
  k.line == l.cursor.line && l.cursor.index ≤ k.index + 1024

/-! ## Gaps -/

/-- Comments, and what stands between one comment line and the next. -/
def skipComments : Nat → Cursor → Cursor
  | 0, c => c
  | fuel + 1, c =>
    let c := c.skipWhile (!isBreak ·)
    let next := c.skipWhile isGap
    if next.peek == some '#' then skipComments fuel next else c

/-- Pass over blanks, comments and line ends. Outside of brackets a key may start on a new line,
and where one may start no tab is passed over. -/
def skipGaps (flow : Bool) : Nat → (keyAllowed : Bool) → Cursor → Cursor × Bool
  | 0, allowed, c => (c, allowed)
  | fuel + 1, allowed, c =>
    let c := c.skipWhile fun ch => ch == ' ' || (ch == '\t' && (flow || !allowed))
    let c := if c.peek == some '#' then skipComments c.rest.length c else c
    if c.peek.any isBreak then skipGaps flow fuel (allowed || !flow) c.next else (c, allowed)

/-! ## Tokens one by one -/

/-- Leave all blocks; no key is open. -/
def leaveBlocks (l : Lexer) : Option Lexer := do
  let l ← (l.closeBlocks (-1)).dropKey
  return l.allowKey false

def openFlow (l : Lexer) (t : Token) : Option Lexer := do
  let l ← l.saveKey
  return { l.take 1 t with keys := none :: l.keys, keyAllowed := true }

def closeFlow (l : Lexer) (t : Token) : Option Lexer := do
  let l ← l.dropKey
  return { l.take 1 t with keys := if l.inFlow then l.keys.tail else l.keys, keyAllowed := false }

def comma (l : Lexer) : Option Lexer := do
  let l ← l.dropKey
  return (l.take 1 .flowEntry).allowKey true

/-- The dash of an item. -/
def dash (l : Lexer) : Option Lexer := do
  if !l.inFlow && !l.keyAllowed then none
  let l ← (l.openBlock l.cursor.col l.tokens.length .blockListStart).dropKey
  return (l.take 1 .blockEntry).allowKey true

/-- The mark of a key that may be of any form. -/
def keyMark (l : Lexer) : Option Lexer := do
  if !l.inFlow && !l.keyAllowed then none
  let l ← (l.openBlock l.cursor.col l.tokens.length .blockMapStart).dropKey
  return (l.take 1 .key).allowKey (!l.inFlow)

/-- A colon behind a key on the same line. -/
def colonAfter (l : Lexer) (k : KeyPlace) : Lexer :=
  let l := { l with tokens := l.tokens.insertIdx k.number .key, keys := none :: l.keys.tail }
  ((l.openBlock k.col k.number .blockMapStart).take 1 .value).allowKey false

/-- A colon behind a marked key. -/
def colonAlone (l : Lexer) : Option Lexer := do
  if !l.inFlow && !l.keyAllowed then none
  let l := l.openBlock l.cursor.col l.tokens.length .blockMapStart
  return (l.take 1 .value).allowKey (!l.inFlow)

def colon (l : Lexer) : Option Lexer :=
  match l.keys with
  | some k :: ks =>
    if l.inReach k then some (l.colonAfter k)
    else if k.required then none
    else { l with keys := none :: ks }.colonAlone
  | _ => l.colonAlone

/-- The name of an anchor or a reference. -/
def named (l : Lexer) (make : String → Token) : Option Lexer := do
  let l ← l.saveKey
  let name := l.cursor.next.rest.takeWhile isWord
  let after := l.cursor.ahead (name.length + 1)
  if name.isEmpty then none
  if !(endsWord after || after.any "?:,]\x7d%@\x60".toList.contains) then none
  return (l.take (name.length + 1) (make (String.ofList name))).allowKey false

def isUriChar (c : Char) : Bool := isWord c || ";/?:@&=+$,.!~*'()[]".toList.contains c

/-- The text of a tag, and its length. Escapes by percent signs are refused. -/
def tagOf (cs : List Char) : Option (String × String × Nat) :=
  match cs with
  | '<' :: cs =>
    let uri := cs.takeWhile isUriChar
    if uri.isEmpty || cs[uri.length]? != some '>' then none
    else some ("", String.ofList uri, uri.length + 3)
  | cs =>
    let word := cs.takeWhile isWord
    if cs[word.length]? == some '!' then
      let suffix := (cs.drop (word.length + 1)).takeWhile isUriChar
      if suffix.isEmpty then none
      else some ("!" ++ String.ofList word ++ "!", String.ofList suffix,
        word.length + suffix.length + 2)
    else
      let suffix := cs.takeWhile isUriChar
      if suffix.isEmpty then some ("", "!", 1)
      else some ("!", String.ofList suffix, suffix.length + 1)

def tag (l : Lexer) : Option Lexer := do
  let l ← l.saveKey
  let (handle, suffix, n) ← tagOf l.cursor.next.rest
  if !endsWord (l.cursor.ahead n) then none
  return (l.take n (.tag handle suffix)).allowKey false

/-- A quoted scalar. -/
def quoted (l : Lexer) (read : Cursor → Option (String × Cursor)) : Option Lexer := do
  let l ← l.saveKey
  let (s, c) ← read l.cursor.next
  return { l.put (.scalar false s) with cursor := c, keyAllowed := false }

/-- A plain scalar; after its last line a key may start. -/
def plain (l : Lexer) : Option Lexer := do
  let l ← l.saveKey
  let (f, c) ← plainFrom l.inFlow l.indent {} l.cursor
  return { l.put (.scalar true f.result) with cursor := c, keyAllowed := f.broken }

/-- A block scalar. -/
def block (l : Lexer) (folds : Bool) : Option Lexer := do
  let l ← l.dropKey
  let (s, c) ← blockScalar folds l.indent l.cursor.next
  return { l.put (.scalar false s) with cursor := c, keyAllowed := true }

/-- One or two digits. -/
def versionPart (c : Cursor) : Option (Nat × Cursor) :=
  let ds := c.rest.takeWhile Char.isDigit
  if ds.isEmpty || 2 < ds.length then none
  else some (ds.foldl (fun n d => n * 10 + (d.toNat - '0'.toNat)) 0, c.skip ds.length)

/-- A directive. Only the version of the format is known. -/
def directive (l : Lexer) : Option Lexer := do
  let l ← l.leaveBlocks
  if l.cursor.rest.take 5 != "%YAML".toList || !endsWord (l.cursor.ahead 5) then none
  let (major, c) ← versionPart ((l.cursor.skip 5).skipWhile isBlank)
  if c.peek != some '.' then none
  let (minor, c) ← versionPart c.next
  return { l.put (.version major minor) with cursor := ← restOfLine c }

def marker (l : Lexer) (t : Token) : Option Lexer := do
  let l ← l.leaveBlocks
  return l.take 3 t

def finish (l : Lexer) : Option Lexer := do
  let l ← l.leaveBlocks
  return { l.put .streamEnd with finished := true }

/-- Characters with which no plain scalar starts. -/
def indicators : List Char := "-?:,[]\x7b\x7d#&*!|>'\x22%@\x60".toList

/-- A plain scalar starts here: a dash must not stand alone, nor, outside of brackets, a question
mark or a colon. -/
def startsPlain (l : Lexer) (ch : Char) (alone : Bool) : Bool :=
  !(isGap ch || indicators.contains ch) || (ch == '-' && !alone)
    || (!l.inFlow && (ch == '?' || ch == ':') && !alone)

/-- The token that starts with a character. -/
def tokenAt (l : Lexer) (ch : Char) : Option Lexer :=
  let alone := endsWord (l.cursor.ahead 1)
  if l.cursor.col == 0 && ch == '%' then l.directive
  else if l.cursor.startsLine "---" then l.marker .documentStart
  else if l.cursor.startsLine "..." then l.marker .documentEnd
  else if ch == '[' then l.openFlow .flowListStart
  else if ch == '\x7b' then l.openFlow .flowMapStart
  else if ch == ']' then l.closeFlow .flowListEnd
  else if ch == '\x7d' then l.closeFlow .flowMapEnd
  else if ch == ',' then l.comma
  else if ch == '-' && alone then l.dash
  else if ch == '?' && (l.inFlow || alone) then l.keyMark
  else if ch == ':' && (l.inFlow || alone) then l.colon
  else if ch == '*' then l.named .reference
  else if ch == '&' then l.named .anchor
  else if ch == '!' then l.tag
  else if ch == '|' && !l.inFlow then l.block false
  else if ch == '>' && !l.inFlow then l.block true
  else if ch == '\x27' then l.quoted (singleFrom {})
  else if ch == '\x22' then l.quoted (doubleFrom {})
  else if l.startsPlain ch alone then l.plain
  else none

/-- The next token, and the ends of blocks before it. -/
def step (l : Lexer) : Option Lexer :=
  let (c, keyAllowed) := skipGaps l.inFlow (l.cursor.rest.length + 1) l.keyAllowed l.cursor
  let l := { l with cursor := c, keyAllowed }.closeBlocks c.col
  match c.peek with
  | none => l.finish
  | some ch => l.tokenAt ch

/-- All tokens. Every step but the last uses up a character. Before a fault the reader looks two
tokens ahead, so the two last ones are lost with it. -/
def run : Nat → Lexer → List Token
  | 0, l => l.tokens
  | fuel + 1, l =>
    if l.finished then l.tokens
    else match l.step with
      | some l => run fuel l
      | none => l.tokens.take (l.tokens.length - 2)

end Lexer

/-- The tokens of a text. -/
def Token.scan (cs : List Char) : List Token :=
  Lexer.run (cs.length + 2) { cursor := { rest := cs } }

end SizedTypes.Yaml
