/-!
# Thirty-two bit words

Arithmetic of a running program is done on signed words of thirty-two bits.  A number of any
size enters it through its low thirty-two bits, read as a signed number, and every result is
brought back into the same range.

* `wrap n`: the number of the range `[-2^31, 2^31)` that agrees with `n` modulo `2^32`.
* `add`, `sub`, `mul`: exact results, wrapped.
* `div`, `rem`: division toward zero and its remainder, which takes the sign of the dividend;
  both answer zero for a zero divisor.
-/

set_option autoImplicit false
namespace Retrace
namespace Word

/-- How many words there are. -/
abbrev modulus : Nat := 0x100000000

/-- The word that agrees with `n` modulo `2^32`, as a signed number. -/
def wrap (n : Int) : Int :=
  Int.bmod n modulus

/-- The sum of two words. -/
def add (a b : Int) : Int :=
  wrap (wrap a + wrap b)

/-- The difference of two words. -/
def sub (a b : Int) : Int :=
  wrap (wrap a - wrap b)

/-- The product of two words. -/
def mul (a b : Int) : Int :=
  wrap (wrap a * wrap b)

/-- The quotient of two words, rounded toward zero; zero if the divisor is zero. -/
def div (a b : Int) : Int :=
  wrap (Int.tdiv (wrap a) (wrap b))

/-- The remainder that belongs to `div`; zero if the divisor is zero. -/
def rem (a b : Int) : Int :=
  if wrap b = 0 then 0 else Int.tmod (wrap a) (wrap b)

/-- A truth value as a word. -/
def ofBool (b : Bool) : Int :=
  if b then 1 else 0

end Word
end Retrace
