/-!
# Characters and places of a YAML text

Line ends are made equal before anything is read: a carriage return, with or without a line feed,
and the next-line character count as line feeds. The line and paragraph separators end a line too
and are kept as they are.
-/

set_option autoImplicit false

namespace SizedTypes.Yaml

/-! ## Classes of characters -/

def isBreak (c : Char) : Bool := c == '\n' || c == '\u2028' || c == '\u2029'

def isBlank (c : Char) : Bool := c == ' ' || c == '\t'

/-- A blank or a break. -/
def isGap (c : Char) : Bool := isBlank c || isBreak c

/-- Characters of anchors and handles. -/
def isWord (c : Char) : Bool := c.isAlphanum || c == '_' || c == '-'

/-- No character, or one that separates words. -/
def endsWord (c : Option Char) : Bool := c.all isGap

/-- Characters that a text may hold at all. -/
def isAllowed (c : Char) : Bool :=
  let n := c.toNat
  c == '\t' || c == '\n' || c == '\r' || (0x20 ≤ n && n ≤ 0x7e) || n == 0x85
    || (0xa0 ≤ n && n ≤ 0xfffd) || 0x10000 ≤ n

/-- Characters that are written as they are. -/
def isPlainText (c : Char) : Bool :=
  let n := c.toNat
  c == '\n' || (0x20 ≤ n && n ≤ 0x7e) || (0xa0 ≤ n && n ≤ 0xfffd && n != 0xfeff)

/-- Make line ends equal. -/
def unifyBreaks : List Char → List Char
  | [] => []
  | '\r' :: '\n' :: cs => '\n' :: unifyBreaks cs
  | c :: cs => (if c == '\r' || c == '\u0085' then '\n' else c) :: unifyBreaks cs

/-! ## Cursors -/

/-- What is left to read, and where it stands. -/
structure Cursor where
  rest : List Char
  line : Nat := 0
  col : Nat := 0
  /-- The number of characters before. -/
  index : Nat := 0
deriving Inhabited

namespace Cursor

def next (c : Cursor) : Cursor :=
  match c.rest with
  | [] => c
  | ch :: rest =>
    { rest
      line := if isBreak ch then c.line + 1 else c.line
      col := if isBreak ch then 0 else c.col + 1
      index := c.index + 1 }

/-- Pass over `n` characters. -/
def skip (c : Cursor) : Nat → Cursor
  | 0 => c
  | n + 1 => c.next.skip n

def skipWhile (p : Char → Bool) (c : Cursor) : Cursor := c.skip (c.rest.takeWhile p).length

/-- The character `n` places ahead. -/
def ahead (c : Cursor) (n : Nat) : Option Char := c.rest[n]?

def peek (c : Cursor) : Option Char := c.ahead 0

/-- A word that stands alone at the start of a line. -/
def startsLine (c : Cursor) (word : String) : Bool :=
  c.col == 0 && c.rest.take word.length == word.toList && endsWord (c.ahead word.length)

/-- At a marker between documents. -/
def atMarker (c : Cursor) : Bool := c.startsLine "---" || c.startsLine "..."

theorem rest_next {c : Cursor} {ch : Char} {rest : List Char} (h : c.rest = ch :: rest) :
    c.next.rest = rest := by
  unfold next
  rw [h]

theorem length_next (c : Cursor) : c.next.rest.length = c.rest.length - 1 := by
  cases h : c.rest with
  | nil => simp [next, h]
  | cons ch rest => simp [rest_next h]

theorem length_skip (c : Cursor) (n : Nat) :
    (c.skip n).rest.length = c.rest.length - n := by
  induction n generalizing c with
  | zero => rfl
  | succ n ih =>
    rw [skip, ih, length_next]
    omega

end Cursor
end SizedTypes.Yaml
