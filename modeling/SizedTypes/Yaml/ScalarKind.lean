/-!
# What a plain scalar stands for

An unquoted scalar may be empty, a truth value, a number or a date; any other one is a text. The
same rules tell which texts must be quoted when they are written.
-/

set_option autoImplicit false

namespace SizedTypes.Yaml

inductive ScalarKind where
  | null
  | bool (b : Bool)
  | int
  | float
  | timestamp
  | text
deriving DecidableEq, Repr, Inhabited

/-! ## Whole numbers -/

def digitValue (c : Char) : Nat :=
  if c.isDigit then c.toNat - '0'.toNat
  else if c.isAlpha then c.toLower.toNat - 'a'.toNat + 10
  else 36

/-- The value of digits in a base. -/
def natIn (base : Nat) (cs : List Char) : Option Nat :=
  cs.foldlM (fun n c =>
    if digitValue c < base then some (n * base + digitValue c) else none) 0

/-- A number without sign. A leading zero and a letter choose base two, eight or sixteen, a leading
zero alone base eight. -/
def unsigned? : List Char → Option Nat
  | [] => none
  | '0' :: p :: d :: ds =>
    match p.toLower with
    | 'b' => natIn 2 (d :: ds)
    | 'o' => natIn 8 (d :: ds)
    | 'x' => natIn 16 (d :: ds)
    | _ => natIn 8 (p :: d :: ds)
  | '0' :: ds => natIn 8 ds
  | ds => natIn 10 ds

/-- The number is a word with the given sign. -/
def fitsSigned (negative : Bool) (n : Option Nat) : Bool :=
  n.any fun n => decide (n ≤ if negative then 9223372036854775808 else 9223372036854775807)

/-- Signed digits in a base. -/
def isSignedIn (base : Nat) : List Char → Bool
  | '-' :: d :: ds => fitsSigned true (natIn base (d :: ds))
  | '+' :: d :: ds => fitsSigned false (natIn base (d :: ds))
  | _ => false

/-- A signed word or an unsigned one; a sign may also follow a lower-case mark of the base. -/
def isInt : List Char → Bool
  | '-' :: ds => fitsSigned true (unsigned? ds)
  | '+' :: ds => fitsSigned false (unsigned? ds)
  | ds =>
    (unsigned? ds).any (fun n => decide (n ≤ 18446744073709551615)) || match ds with
      | '0' :: 'b' :: rest => isSignedIn 2 rest
      | '0' :: 'o' :: rest => isSignedIn 8 rest
      | _ => false

/-! ## Decimal fractions -/

def dropSign : List Char → List Char
  | '-' :: cs | '+' :: cs => cs
  | cs => cs

def digitsOf (cs : List Char) : List Char × List Char := cs.span Char.isDigit

/-- Digits to the end, at least one. -/
def allDigits? (cs : List Char) : Option Nat := if cs.isEmpty then none else natIn 10 cs

/-- An exponent, or nothing. -/
def exponent? : List Char → Option Int
  | [] => some 0
  | e :: cs =>
    if e == 'e' || e == 'E' then
      match cs with
      | '-' :: ds => (allDigits? ds).map fun n => -(n : Int)
      | '+' :: ds | ds => (allDigits? ds).map fun n => (n : Int)
    else none

/-- A decimal number as its digits and a power of ten. -/
def decimal? (cs : List Char) : Option (Nat × Int) := do
  let (whole, rest) := digitsOf (dropSign cs)
  let (fraction, rest) : List Char × List Char := match rest with
    | '.' :: rest => digitsOf rest
    | rest => ([], rest)
  if whole.isEmpty && fraction.isEmpty then none
  let e ← exponent? rest
  return (← natIn 10 (whole ++ fraction), e - fraction.length)

/-- The least number that is too large for a double: halfway between the largest one and the next
power of two. -/
def doubleLimit : Nat := Nat.pow 2 1024 - Nat.pow 2 970

/-- Whether `m * 10 ^ e` is rounded to a finite double. The number of digits decides most cases. -/
def isFiniteDouble (m : Nat) (e : Int) : Bool :=
  let digits : Int := (Nat.toDigits 10 m).length + e
  if m == 0 || digits < 300 then true
  else if 400 < digits then false
  else match e with
    | .ofNat k => decide (m * Nat.pow 10 k < doubleLimit)
    | .negSucc k => decide (m < doubleLimit * Nat.pow 10 (k + 1))

def isFloat (cs : List Char) : Bool := (decimal? cs).any fun d => isFiniteDouble d.1 d.2

/-- Every underscore stands between two digits. -/
def separatesDigits : (afterDigit : Bool) → List Char → Bool
  | _, [] => true
  | afterDigit, '_' :: cs =>
    afterDigit && (cs.head?).any Char.isDigit && separatesDigits false cs
  | _, c :: cs => separatesDigits c.isDigit cs

/-! ## Dates -/

/-- One or two digits. -/
def shortNumber? : List Char → Option (Nat × List Char)
  | c :: d :: cs =>
    if !c.isDigit then none
    else if d.isDigit then some (digitValue c * 10 + digitValue d, cs)
    else some (digitValue c, d :: cs)
  | [c] => if c.isDigit then some (digitValue c, []) else none
  | [] => none

def expect? (c : Char) : List Char → Option (List Char)
  | d :: cs => if d == c then some cs else none
  | [] => none

def daysIn (year month : Nat) : Nat :=
  if month == 2 then
    if year % 4 == 0 && (year % 100 != 0 || year % 400 == 0) then 29 else 28
  else if [4, 6, 9, 11].contains month then 30
  else 31

/-- A day of the calendar, its year with four digits. -/
def date? (cs : List Char) : Option (List Char) := do
  let (year, rest) := digitsOf cs
  if year.length != 4 then none
  let (month, rest) ← shortNumber? (← expect? '-' rest)
  let (day, rest) ← shortNumber? (← expect? '-' rest)
  let y ← natIn 10 year
  if 1 ≤ month && month ≤ 12 && 1 ≤ day && day ≤ daysIn y month then some rest else none

/-- A fraction of a second, if there is one. -/
def dropFraction : List Char → List Char
  | p :: d :: cs =>
    if (p == '.' || p == ',') && d.isDigit then cs.dropWhile Char.isDigit else p :: d :: cs
  | cs => cs

def clock? (cs : List Char) : Option (List Char) := do
  let (hour, rest) ← shortNumber? cs
  let (minute, rest) ← shortNumber? (← expect? ':' rest)
  let (second, rest) ← shortNumber? (← expect? ':' rest)
  if hour < 24 && minute < 60 && second < 60 then some (dropFraction rest) else none

/-- `Z`, or a signed offset in hours and minutes. -/
def isZone : List Char → Bool
  | ['Z'] => true
  | [s, h, h', ':', m, m'] =>
    (s == '+' || s == '-') && [h, h', m, m'].all Char.isDigit
      && digitValue h * 10 + digitValue h' ≤ 24 && digitValue m * 10 + digitValue m' ≤ 60
  | _ => false

/-- A date alone, with a time and a zone after a `T`, or with a time after a blank. -/
def isTimestamp (cs : List Char) : Bool :=
  match date? cs with
  | none => false
  | some [] => true
  | some ('T' :: rest) | some ('t' :: rest) => (clock? rest).any isZone
  | some (' ' :: rest) => (clock? (rest.dropWhile (· == ' '))).any List.isEmpty
  | some _ => false

/-! ## The kind of a scalar -/

def words : List (List String × ScalarKind) :=
  [(["", "~", "null", "Null", "NULL"], .null),
    (["true", "True", "TRUE"], .bool true),
    (["false", "False", "FALSE"], .bool false),
    ([".nan", ".NaN", ".NAN", ".inf", ".Inf", ".INF", "+.inf", "+.Inf", "+.INF", "-.inf", "-.Inf",
      "-.INF"], .float)]

/-- A number, or a date where dates are looked for. -/
def numberKind (dates : Bool) (cs : List Char) : ScalarKind :=
  let bare := cs.filter (· != '_')
  if dates && isTimestamp cs then .timestamp
  else if isInt bare then .int
  else if isFloat bare then .float
  else .text

/-- What an unquoted scalar stands for. -/
def kindOf (dates : Bool) (s : String) : ScalarKind :=
  match words.find? fun w => w.1.contains s with
  | some w => w.2
  | none => match s.toList with
    | '.' :: cs =>
      if separatesDigits false cs && isFloat (('.' :: cs).filter (· != '_')) then .float else .text
    | c :: cs => if c.isDigit || c == '+' || c == '-' then numberKind dates (c :: cs) else .text
    | [] => .text

/-! ## Older rules -/

/-- Words that were truth values once. -/
def oldBool? (s : String) : Option Bool :=
  if ["y", "Y", "yes", "Yes", "YES", "on", "On", "ON"].contains s then some true
  else if ["n", "N", "no", "No", "NO", "off", "Off", "OFF"].contains s then some false
  else none

/-- Groups of minutes or seconds after colons, then perhaps a fraction. -/
def isSixties : List Char → Bool
  | [] => true
  | '.' :: rest => rest.all fun c => c.isDigit || c == '_'
  | ':' :: t :: u :: rest =>
    (t.isDigit && digitValue t ≤ 5 && u.isDigit && isSixties rest)
      || (t.isDigit && isSixties (u :: rest))
  | [':', u] => u.isDigit
  | _ => false

/-- A number in base sixty, as in `12:30`. -/
def isBase60 (s : String) : Bool :=
  match dropSign s.toList with
  | c :: cs =>
    let rest := cs.dropWhile fun d => d.isDigit || d == '_'
    c.isDigit && rest.head? == some ':' && isSixties rest
  | [] => false

end SizedTypes.Yaml
