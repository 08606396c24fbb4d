import SizedTypes.Text.Quoted
import SizedTypes.Yaml.Cursor
import SizedTypes.Yaml.ScalarKind

/-!
# Writing texts

A text is written plainly if it reads back as the same text. Otherwise it is quoted: doubly if it
would read back as something other than a text or holds characters that cannot be shown, singly if
only its form is in the way. A text with line feeds keeps its lines.
-/

set_option autoImplicit false

namespace SizedTypes.Yaml

/-! ## The form of a text -/

/-- Some character and the one after it satisfy the two tests. -/
def anyPair (p q : Char → Bool) : List Char → Bool
  | c :: d :: cs => (p c && q d) || anyPair p q (d :: cs)
  | _ => false

def isSpace (c : Char) : Bool := c == ' '

/-- Characters that can only be shown by an escape; a tab is dealt with apart. -/
def isHidden (c : Char) : Bool := c != '\t' && !isPlainText c

/-- Characters at the start of a text that would read as something else, alone or always. -/
def startsSpecial : List Char → Bool
  | [] => false
  | c :: cs =>
    "#,[]\x7b\x7d&*!|>'\x22%@\x60".toList.contains c
      || ((c == '?' || c == ':' || c == '-') && cs.head?.all isBlank)

/-- A colon at the end of a word, or a number sign at its start. -/
def holdsSpecial (cs : List Char) : Bool :=
  cs.getLast? == some ':' || anyPair (· == ':') isBlank cs || anyPair isGap (· == '#') cs

def looksLikeMarker (cs : List Char) : Bool :=
  cs.take 3 == "---".toList || cs.take 3 == "...".toList

/-- Spaces beside line ends cannot be kept by plain or singly quoted texts. -/
def singleAllowed (cs : List Char) : Bool :=
  !cs.any (fun c => c == '\t' || isHidden c) && !anyPair isSpace isBreak cs
    && !anyPair isBreak isSpace cs

def plainAllowed (cs : List Char) : Bool :=
  singleAllowed cs && !cs.any isBreak && !cs.head?.any isSpace && !cs.getLast?.any isSpace
    && !looksLikeMarker cs && !startsSpecial cs && !holdsSpecial cs

def blockAllowed (cs : List Char) : Bool :=
  !cs.any isHidden && !anyPair isSpace isBreak cs && !cs.getLast?.any isSpace

/-! ## Forms -/

/-- Characters with an escape of their own. -/
def shortEscapes : List (Char × Char) :=
  [('\x00', '0'), ('\x07', 'a'), ('\x08', 'b'), ('\t', 't'), ('\n', 'n'), ('\x0b', 'v'),
    ('\x0c', 'f'), ('\r', 'r'), ('\x1b', 'e'), ('\x22', '\x22'), ('\\', '\\'), ('\u0085', 'N'),
    ('\u00a0', '_'), ('\u2028', 'L'), ('\u2029', 'P')]

def upperHex (width n : Nat) : List Char := (Text.hex width n).map Char.toUpper

def escaped (c : Char) : List Char :=
  match shortEscapes.lookup c with
  | some e => ['\\', e]
  | none =>
    let n := c.toNat
    if n ≤ 0xff then '\\' :: 'x' :: upperHex 2 n
    else if n ≤ 0xffff then '\\' :: 'u' :: upperHex 4 n
    else '\\' :: 'U' :: upperHex 8 n

/-- Double quotes. Behind a byte order mark at its start every character is escaped. -/
def doubleQuoted (cs : List Char) : List Char :=
  let all := cs.head? == some '\ufeff'
  '\x22' :: cs.flatMap (fun c =>
    if all || !isPlainText c || isBreak c || c == '\x22' || c == '\\' then escaped c else [c])
    ++ ['\x22']

/-- Characters with every line but the first indented, empty lines apart. -/
def indented (indent : Nat) : (lineStart : Bool) → List Char → List Char
  | _, [] => []
  | lineStart, c :: cs =>
    if isBreak c then c :: indented indent true cs
    else if lineStart then List.replicate indent ' ' ++ c :: indented indent false cs
    else c :: indented indent false cs

/-- Single quotes; a quote inside is written twice. -/
def singleQuoted (indent : Nat) (cs : List Char) : List Char :=
  let body := (indented indent false cs).flatMap fun c =>
    if c == '\x27' then ['\x27', '\x27'] else [c]
  '\x27' :: body ++ ['\x27']

/-- Marks of a block: a text that starts with a gap tells the usual indentation, and one that does
not end in exactly one line end tells what to do about it. -/
def blockMarks (step : Nat) (cs : List Char) : List Char :=
  let hint := if cs.head?.any fun c => isSpace c || isBreak c then (toString step).toList else []
  let chomp := match cs.reverse with
    | [] => ['-']
    | [c] => if isBreak c then ['+'] else ['-']
    | c :: d :: _ => if !isBreak c then ['-'] else if isBreak d then ['+'] else []
  hint ++ chomp

/-- Lines under a bar. -/
def blockText (step indent : Nat) (cs : List Char) : List Char :=
  '|' :: blockMarks step cs ++ '\n' :: indented indent true cs

/-- A text reads back as one without quotes. -/
def readsAsText (s : String) : Bool :=
  decide (kindOf true s = .text) && !isBase60 s && (oldBool? s).isNone

/-- A text in the form that suits it. -/
def writtenText (step indent : Nat) (s : String) : List Char :=
  let cs := s.toList
  if cs.contains '\n' then
    if blockAllowed cs then blockText step indent cs else doubleQuoted cs
  else if !readsAsText s then doubleQuoted cs
  else if plainAllowed cs then cs
  else if singleAllowed cs then singleQuoted indent cs
  else doubleQuoted cs

/-- A text as an item of a block list, with its line end. -/
def textItem (step : Nat) (s : String) : String :=
  let cs := writtenText step (step + 2) s
  let lineEnd := if cs.getLast?.any isBreak then [] else ['\n']
  String.ofList (List.replicate step ' ' ++ ['-', ' '] ++ cs ++ lineEnd)

end SizedTypes.Yaml
