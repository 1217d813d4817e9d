import Retrace.Number.Binary64.Arithmetic

/-!
# Numerals

How numbers are written when a place of a text says what they are to look like: whole numbers in
base eight, ten or sixteen, and real numbers with a point, with a power of ten, or in the shorter of
these two ways.  Digits are rounded from the exact value, a half going to the even neighbour.

* `Numeral`: a number as text, in its parts.
* `Numeral.whole`: a whole number.
* `Numeral.real`: a real number.
-/

set_option autoImplicit false
namespace Retrace

/-- A number as text: is it negative, the mark of its base, and the rest. -/
structure Numeral where
  negative : Bool
  mark : String := ""
  body : String
deriving DecidableEq, Inhabited, Repr

namespace Numeral

/-- A character repeated. -/
def fill (c : Char) (count : Nat) : String :=
  "".pushn c count

/-- Digits with zeros in front, so many at least. -/
def padded (count : Nat) (digits : String) : String :=
  fill '0' (count - digits.length) ++ digits

/-- A text in capitals. -/
def capitals (s : String) : String :=
  s.map Char.toUpper

/-- The numeral in capitals. -/
def inCapitals (n : Numeral) : Numeral :=
  { n with mark := capitals n.mark, body := capitals n.body }

/-! ## Whole numbers -/

/-- The digits of a whole number in a base. -/
def digits (base n : Nat) : String :=
  if base = 10 then toString n else String.ofList (Nat.toDigits base n)

/-- A whole number in one of the conversions `d`, `i`, `u`, `o`, `x` and `X`, with so many digits at
least, and with a mark for its base if that is wanted and it is not ten. -/
def whole (conversion : Char) (marked : Bool) (count : Nat) (n : Int) : Numeral :=
  let written (base : Nat) (mark : String) : Numeral :=
    { negative := n < 0, mark := if marked then mark else ""
      body := padded count (digits base n.natAbs) }
  if conversion = 'o' then written 8 "0o"
  else if conversion = 'x' then written 16 "0x"
  else if conversion = 'X' then (written 16 "0x").inCapitals
  else written 10 ""

/-! ## Real numbers -/

/-- The quotient `num / den * 10^e`, rounded to a whole number. -/
def scaled (num den : Nat) (e : Int) : Nat :=
  if 0 ≤ e then Binary64.roundDiv (num * Nat.pow 10 e.toNat) den
  else Binary64.roundDiv num (den * Nat.pow 10 (-e).toNat)

/-- The power of ten of the first digit of `num / den`, which is not zero. -/
def magnitude (num den : Nat) : Int :=
  let e : Int := (digits 10 num).length - (digits 10 den).length
  let (a, b) :=
    if 0 ≤ e then (num, den * Nat.pow 10 e.toNat) else (num * Nat.pow 10 (-e).toNat, den)
  if b ≤ a then e else e - 1

/-- The first `count` digits of `num / den`, rounded, and the power of ten that belongs to the first
of them. -/
def leading (count num den : Nat) : Nat × Int :=
  if num = 0 then (0, 0)
  else
    let e := magnitude num den
    let m := scaled num den (count - 1 - e)
    if m = Nat.pow 10 count then (Nat.pow 10 (count - 1), e + 1) else (m, e)

/-- Digits with a point behind the first ones, which is left out at the end unless it is to be
kept. -/
def pointed (keep : Bool) (front back : String) : String :=
  if back.isEmpty && !keep then front else front ++ "." ++ back

/-- The digits without zeros at the end. -/
def withoutZeros (s : String) : String :=
  String.ofList (s.toList.reverse.dropWhile (· == '0')).reverse

/-- The digits of `m`, of which the last `places` ones stand behind a point. -/
def placed (keep strip : Bool) (places m : Nat) : String :=
  let ds := (padded (places + 1) (digits 10 m)).toList
  let back := String.ofList (ds.drop (ds.length - places))
  pointed keep (String.ofList (ds.take (ds.length - places)))
    (if strip then withoutZeros back else back)

/-- A power of ten as it is written behind digits, with two digits at least. -/
def exponent (e : Int) : String :=
  (if e < 0 then "e-" else "e+") ++ padded 2 (digits 10 e.natAbs)

/-- The quotient `num / den` with a given count of digits behind the first one. -/
def scientific (keep : Bool) (precision num den : Nat) : String :=
  let (m, e) := leading (precision + 1) num den
  placed keep false precision m ++ exponent e

/-- The quotient `num / den` with a given count of digits behind the point. -/
def fixed (keep : Bool) (precision num den : Nat) : String :=
  placed keep false precision (scaled num den precision)

/-- The quotient `num / den` in the shorter of two ways: with all its digits, or with a power of
ten.  Zeros at the end are left out unless the point is to be kept. -/
def general (keep : Bool) (precision num den : Nat) : String :=
  let count := max precision 1
  let (m, e) := leading count num den
  if -4 ≤ e && e < count then placed keep (!keep) (count - 1 - e).toNat m
  else placed keep (!keep) (count - 1) m ++ exponent e

/-- A real number without its sign, in one of the conversions `e`, `f` and `g`. -/
def magnitudeText (kind : Char) (keep : Bool) (precision : Nat) (x : Binary64) : String :=
  if x.isNaN then "nan"
  else if x.isInfinite then "inf"
  else
    let (num, den) := x.ratio
    if kind = 'e' then scientific keep precision num den
    else if kind = 'f' then fixed keep precision num den
    else general keep precision num den

/-- A real number in one of the conversions `e`, `E`, `f`, `F`, `g` and `G`.  What is not a number
has no sign. -/
def real (conversion : Char) (keep : Bool) (precision : Nat) (x : Binary64) : Numeral :=
  let kind := conversion.toLower
  let n : Numeral :=
    { negative := x.negative && !x.isNaN, body := magnitudeText kind keep precision x }
  if conversion = kind then n else n.inCapitals

end Numeral
end Retrace
