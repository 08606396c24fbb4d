/-!
# Quoted text

A label inside a message stands between double quotes. A quote and a backslash are escaped, the
common controls have a letter of their own, and any other unprintable character is written by its
code point in two, four or eight hexadecimal digits. A character is printable unless it is a control,
a format character, a separator other than the plain space, a private or a reserved code point.
-/

set_option autoImplicit false

namespace SizedTypes.Text

/-- Code points that are never printed as they are, as closed intervals. -/
def unprintableRanges : List (Nat × Nat) :=
  [ -- controls
    (0x0, 0x1f), (0x7f, 0x9f),
    -- separators
    (0xa0, 0xa0), (0x1680, 0x1680), (0x2000, 0x200a), (0x2028, 0x2029), (0x202f, 0x202f),
    (0x205f, 0x205f), (0x3000, 0x3000),
    -- format characters
    (0xad, 0xad), (0x600, 0x605), (0x61c, 0x61c), (0x6dd, 0x6dd), (0x70f, 0x70f), (0x890, 0x891),
    (0x8e2, 0x8e2), (0x180e, 0x180e), (0x200b, 0x200f), (0x202a, 0x202e), (0x2060, 0x206f),
    (0xfeff, 0xfeff), (0xfff0, 0xfffb), (0x110bd, 0x110bd), (0x110cd, 0x110cd),
    (0x13430, 0x1343f), (0x1bca0, 0x1bca3), (0x1d173, 0x1d17a), (0xe0001, 0xe0001),
    (0xe0020, 0xe007f),
    -- private use
    (0xe000, 0xf8ff), (0xf0000, 0xffffd), (0x100000, 0x10fffd),
    -- no characters at all
    (0xfdd0, 0xfdef), (0xfffe, 0xffff), (0x1fffe, 0x1ffff), (0x2fffe, 0x2ffff),
    (0x3fffe, 0x3ffff), (0x4fffe, 0x4ffff), (0x5fffe, 0x5ffff), (0x6fffe, 0x6ffff),
    (0x7fffe, 0x7ffff), (0x8fffe, 0x8ffff), (0x9fffe, 0x9ffff), (0xafffe, 0xaffff),
    (0xbfffe, 0xbffff), (0xcfffe, 0xcffff), (0xdfffe, 0xdffff), (0xefffe, 0xeffff),
    (0xffffe, 0xfffff), (0x10fffe, 0x10ffff) ]

def isPrintable (c : Char) : Bool :=
  !(unprintableRanges.any fun r => decide (r.1 ≤ c.toNat) && decide (c.toNat ≤ r.2))

private def hexDigit (n : Nat) : Char := (Nat.digitChar n)

/-- The last `width` hexadecimal digits of `n`. -/
def hex : Nat → Nat → List Char
  | 0, _ => []
  | width + 1, n => hex width (n / 16) ++ [hexDigit (n % 16)]

/-- How one character is written between double quotes. -/
def quotedChar (c : Char) : List Char :=
  if c = '"' then ['\\', '"']
  else if c = '\\' then ['\\', '\\']
  else if isPrintable c then [c]
  else match c.toNat with
    | 7 => ['\\', 'a']
    | 8 => ['\\', 'b']
    | 9 => ['\\', 't']
    | 10 => ['\\', 'n']
    | 11 => ['\\', 'v']
    | 12 => ['\\', 'f']
    | 13 => ['\\', 'r']
    | n =>
      if n < 0x80 then '\\' :: 'x' :: hex 2 n
      else if n < 0x10000 then '\\' :: 'u' :: hex 4 n
      else '\\' :: 'U' :: hex 8 n

/-- Text between double quotes. -/
def quoted (s : String) : String :=
  String.ofList ('"' :: s.toList.flatMap quotedChar ++ ['"'])

end SizedTypes.Text
