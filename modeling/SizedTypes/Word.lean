/-!
# Machine words

Identifiers and the literals of numeric types are signed words of 64 bits. A word is kept as the
integer it stands for; every operation returns the representative in `[-2^63, 2^63)`, and a
quotient goes toward zero.
-/

set_option autoImplicit false

namespace SizedTypes.Word

/-- The largest word, `2^63 - 1`. -/
def maxValue : Int := 9223372036854775807

/-- The word that represents `x` modulo `2^64`. -/
def wrap (x : Int) : Int := Int.bmod x 18446744073709551616

/-- `x` is its own representative. -/
def Fits (x : Int) : Prop := -9223372036854775808 ≤ x ∧ x ≤ maxValue

instance (x : Int) : Decidable (Fits x) := inferInstanceAs (Decidable (_ ∧ _))

def add (a b : Int) : Int := wrap (a + b)

def sub (a b : Int) : Int := wrap (a - b)

def mul (a b : Int) : Int := wrap (a * b)

/-- The quotient toward zero. -/
def quot (a b : Int) : Int := wrap (Int.tdiv a b)

/-- The remainder of `quot`, with the sign of the dividend. -/
def rem (a b : Int) : Int := Int.tmod a b

/-- The next identifier of a counter. -/
def next (a : Int) : Int := add a 1

theorem wrap_eq_self {x : Int} (h : Fits x) : wrap x = x := by
  obtain ⟨hlo, hhi⟩ := h
  unfold maxValue at hhi
  unfold wrap Int.bmod
  dsimp only
  split <;> omega

theorem fits_wrap (x : Int) : Fits (wrap x) := by
  unfold Fits maxValue wrap Int.bmod
  dsimp only
  split <;> omega

end SizedTypes.Word
