import Retrace.Number.Decimal

/-!
# Double precision numbers

Programs as they are written have whole numbers only.  Fractions come up when a division of
constants is worked out before a program runs, and where a value is handed to a program.  Such a
number is kept as its sixty-four bits.

* `ofRatio`: the nearest number to an exact quotient, a half going to the even neighbour.
* `text`: the shortest decimal that reads back as the number, positional for exponents from
  `-4` to `15`.
-/

set_option autoImplicit false
namespace Retrace

/-- A double precision number, by its bits. -/
structure Binary64 where
  bits : UInt64
deriving DecidableEq, Inhabited, Repr

namespace Binary64

/-- The sign bit. -/
def negative (x : Binary64) : Bool :=
  x.bits.toNat / Nat.pow 2 63 == 1

/-- The eleven bits of the exponent. -/
def biased (x : Binary64) : Nat :=
  x.bits.toNat / Nat.pow 2 52 % Nat.pow 2 11

/-- The fifty-two bits of the fraction. -/
def fraction (x : Binary64) : Nat :=
  x.bits.toNat % Nat.pow 2 52

/-- The number with these three parts. -/
def pack (negative : Bool) (biased fraction : Nat) : Binary64 :=
  ⟨UInt64.ofNat ((if negative then Nat.pow 2 63 else 0) + biased * Nat.pow 2 52 + fraction)⟩

/-- Is the number zero, of either sign? -/
def isZero (x : Binary64) : Bool :=
  x.biased == 0 && x.fraction == 0

/-- The whole number `m` and the exponent `q` with `|x| = m * 2^q`, for a finite `x`. -/
def significand (x : Binary64) : Nat × Int :=
  if x.biased = 0 then (x.fraction, -1074)
  else (x.fraction + Nat.pow 2 52, (x.biased : Int) - 1075)

/-! ## Rounding a quotient -/

/-- The quotient rounded to the nearest whole number, a half to the even one. -/
def roundDiv (num den : Nat) : Nat :=
  let q := num / den
  let r := num % den
  if 2 * r < den then q
  else if den < 2 * r then q + 1
  else if q % 2 = 0 then q else q + 1

/-- The fraction `num / den` in units of `2^e`. -/
def inUnits (num den : Nat) (e : Int) : Nat × Nat :=
  if 0 ≤ e then (num, den * Nat.pow 2 e.toNat) else (num * Nat.pow 2 (-e).toNat, den)

/-- The number nearest to `num / den`, with the given sign, or `none` if it is too large.  The
unit `2^e` is chosen so that the rounded multiple has fifty-three bits, but never below the least
positive number. -/
def ofRatio (negative : Bool) (num den : Nat) : Option Binary64 :=
  if num = 0 then some (pack negative 0 0)
  else
    let e₀ : Int := (num.log2 : Int) - den.log2 - 53
    let u₀ := inUnits num den e₀
    let e₁ : Int := if Nat.pow 2 53 ≤ u₀.1 / u₀.2 then e₀ + 1 else e₀
    let e₂ : Int := max e₁ (-1074)
    let u₂ := inUnits num den e₂
    let q := roundDiv u₂.1 u₂.2
    let (q, e) : Nat × Int := if q = Nat.pow 2 53 then (Nat.pow 2 52, e₂ + 1) else (q, e₂)
    if 971 < e then none
    else if q < Nat.pow 2 52 then some (pack negative 0 q)
    else some (pack negative (e + 1075).toNat (q - Nat.pow 2 52))

/-! ## Text -/

/-- The shortest digits of a finite, non-zero number and the power of ten of its last digit.
Half way to the next number is twice as near below a power of two. -/
def shortest (x : Binary64) : Nat × Int :=
  let (m, q) := x.significand
  let tight := x.fraction == 0 && 1 < x.biased
  let num := 4 * m
  let lo := if tight then 4 * m - 1 else 4 * m - 2
  let hi := 4 * m + 2
  let e := q - 2
  let closed := m % 2 == 0
  if 0 ≤ e then
    let s := Nat.pow 2 e.toNat
    Decimal.shortest (num * s) (lo * s) (hi * s) 1 closed
  else
    Decimal.shortest num lo hi (Nat.pow 2 (-e).toNat) closed

/-- Drops the zeros at the end of a decimal, moving them into the exponent. -/
def trim : Nat → Nat × Int → Nat × Int
  | 0, d => d
  | fuel + 1, (m, k) => if m % 10 = 0 ∧ m ≠ 0 then trim fuel (m / 10, k + 1) else (m, k)

/-- A decimal as text: `digits` with the point after the first `point` of them.  Positional
notation is used while the point stands at most sixteen digits after, and at most three zeros
before, the first digit; otherwise the power of ten follows with a sign and two digits. -/
def positional (digits : String) (point : Int) : String :=
  let n : Int := digits.length
  let zeros (k : Int) : String := String.ofList (List.replicate k.toNat '0')
  if -4 < point ∧ point ≤ 16 then
    if point ≤ 0 then "0." ++ zeros (-point) ++ digits
    else if n ≤ point then digits ++ zeros (point - n) ++ ".0"
    else (digits.take point.toNat).toString ++ "." ++ (digits.drop point.toNat).toString
  else
    let e := point - 1
    let mantissa :=
      if n = 1 then digits
      else (digits.take 1).toString ++ "." ++ (digits.drop 1).toString
    let power := toString e.natAbs
    mantissa ++ "e" ++ (if e < 0 then "-" else "+") ++
      (if power.length < 2 then "0" ++ power else power)

/-- The shortest text that reads back as the number. -/
def text (x : Binary64) : String :=
  let sign := if x.negative then "-" else ""
  if x.biased = 2047 then
    if x.fraction = 0 then sign ++ "inf" else "nan"
  else if x.isZero then sign ++ "0.0"
  else
    let (m, k) := trim 20 x.shortest
    let digits := toString m
    sign ++ positional digits (digits.length + k)

end Binary64
end Retrace
