import Retrace.Number.Binary64

/-!
# Arithmetic in double precision

Sums, products and quotients are worked out exactly, as fractions, and then rounded once to the
nearest number.  What has no value gives a number that is not a number: it compares with nothing,
and every result that it takes part in is the same again.

* `add`, `sub`, `mul`, `div`: the operations, rounded.
* `rem`, `floorDiv`: the remainder with the sign of the divisor, and the quotient rounded down.
* `compare?`, `compareInt?`: the order, with another number or with a whole one, both exact.
* `ofInt?`, `toInt?`: from and to whole numbers.
-/

set_option autoImplicit false
namespace Retrace
namespace Binary64

/-! ## Sorts of numbers -/

/-- Is the number finite? -/
def isFinite (x : Binary64) : Bool :=
  x.biased != 2047

/-- Is it one of the two infinite numbers? -/
def isInfinite (x : Binary64) : Bool :=
  x.biased == 2047 && x.fraction == 0

/-- Is it not a number? -/
def isNaN (x : Binary64) : Bool :=
  x.biased == 2047 && x.fraction != 0

/-- The infinite number of a sign. -/
def infinite (negative : Bool) : Binary64 :=
  pack negative 2047 0

/-- Zero, with a sign. -/
def zero (negative : Bool) : Binary64 :=
  pack negative 0 0

/-- One. -/
def one : Binary64 :=
  pack false 1023 0

/-- A half. -/
def half : Binary64 :=
  pack false 1022 0

/-- What an operation without a value gives. -/
def undefined : Binary64 :=
  pack true 2047 (Nat.pow 2 51)

/-- Something that is not a number, as it is passed on: its first bit of fraction is set. -/
def quiet (x : Binary64) : Binary64 :=
  if x.fraction < Nat.pow 2 51 then pack x.negative 2047 (x.fraction + Nat.pow 2 51) else x

/-- The number with the other sign. -/
def neg (x : Binary64) : Binary64 :=
  pack (!x.negative) x.biased x.fraction

/-! ## Exact values -/

/-- The whole number `m` and the exponent `q` with `x = m * 2^q`, for a finite `x`. -/
def exact (x : Binary64) : Int × Int :=
  let (m, q) := x.significand
  (if x.negative then -(m : Int) else m, q)

/-- The fraction with which a finite number agrees: numerator and denominator of `|x|`. -/
def ratio (x : Binary64) : Nat × Nat :=
  let (m, q) := x.significand
  if 0 ≤ q then (m * Nat.pow 2 q.toNat, 1) else (m, Nat.pow 2 (-q).toNat)

/-- The number nearest to `num / den`; beyond the largest number it is infinite. -/
def round (negative : Bool) (num den : Nat) : Binary64 :=
  (ofRatio negative num den).getD (infinite negative)

/-- The number nearest to `m * 2^q`, which is not zero. -/
def scaled (m q : Int) : Binary64 :=
  if 0 ≤ q then round (m < 0) (m.natAbs * Nat.pow 2 q.toNat) 1
  else round (m < 0) m.natAbs (Nat.pow 2 (-q).toNat)

/-- Two finite numbers as multiples of the same power of two, and its exponent. -/
def aligned (x y : Binary64) : Int × Int × Int :=
  let (m, p) := x.exact
  let (n, q) := y.exact
  let e := min p q
  (m * Nat.pow 2 (p - e).toNat, n * Nat.pow 2 (q - e).toNat, e)

/-! ## Whole numbers -/

/-- The number nearest to a whole number, unless that is too large. -/
def ofInt? (n : Int) : Option Binary64 :=
  ofRatio (n < 0) n.natAbs 1

/-- A finite number without its fraction. -/
def toInt? (x : Binary64) : Option Int :=
  if x.isFinite then
    let (num, den) := x.ratio
    let n := num / den
    some (if x.negative then -(n : Int) else n)
  else none

/-- The largest whole number that is not larger than a finite number. -/
def floor (x : Binary64) : Int :=
  let (num, den) := x.ratio
  if x.negative then -((num + den - 1) / den : Nat) else (num / den : Nat)

/-! ## Order -/

/-- How two numbers compare, if they are numbers. -/
def compare? (x y : Binary64) : Option Ordering :=
  if x.isNaN || y.isNaN then none
  else if x.isInfinite || y.isInfinite then
    let rank (z : Binary64) : Int := if z.isInfinite then (if z.negative then -1 else 1) else 0
    some (compare (rank x) (rank y))
  else
    let (m, n, _) := aligned x y
    some (compare m n)

/-- How a number compares with a whole number of any size. -/
def compareInt? (x : Binary64) (n : Int) : Option Ordering :=
  if x.isNaN then none
  else if x.isInfinite then some (if x.negative then .lt else .gt)
  else
    let (num, den) := x.ratio
    some (compare (if x.negative then -(num : Int) else num) (n * den))

/-- Is the first number less than the second one? -/
def less (x y : Binary64) : Bool :=
  x.compare? y == some .lt

/-- The whole number that a number is equal to, if there is one. -/
def whole? (x : Binary64) : Option Int :=
  x.toInt?.filter fun n => x.compareInt? n == some .eq

/-! ## Operations -/

/-- The sum.  A sum of zero is positive unless both parts are negative. -/
def add (x y : Binary64) : Binary64 :=
  if x.isNaN then x.quiet
  else if y.isNaN then y.quiet
  else if x.isInfinite then
    if y.isInfinite && x.negative != y.negative then undefined else x
  else if y.isInfinite then y
  else
    let (m, n, e) := aligned x y
    if m + n = 0 then zero (x.negative && y.negative) else scaled (m + n) e

/-- The difference. -/
def sub (x y : Binary64) : Binary64 :=
  if x.isNaN then x.quiet
  else if y.isNaN then y.quiet
  else add x y.neg

/-- The product. -/
def mul (x y : Binary64) : Binary64 :=
  let negative := x.negative != y.negative
  if x.isNaN then x.quiet
  else if y.isNaN then y.quiet
  else if x.isInfinite || y.isInfinite then
    if x.isZero || y.isZero then undefined else infinite negative
  else if x.isZero || y.isZero then zero negative
  else
    let (m, p) := x.exact
    let (n, q) := y.exact
    scaled (m * n) (p + q)

/-- The quotient by a number that is not zero. -/
def div (x y : Binary64) : Binary64 :=
  let negative := x.negative != y.negative
  if x.isNaN then x.quiet
  else if y.isNaN then y.quiet
  else if x.isInfinite then if y.isInfinite then undefined else infinite negative
  else if y.isInfinite then zero negative
  else
    let (a, b) := x.ratio
    let (c, d) := y.ratio
    round negative (a * d) (b * c)

/-- The remainder by a number that is not zero, with the sign of the dividend.  It is exact. -/
def truncRem (x y : Binary64) : Binary64 :=
  if x.isNaN then x.quiet
  else if y.isNaN then y.quiet
  else if x.isInfinite then undefined
  else if y.isInfinite then x
  else
    let (m, n, e) := aligned x y
    let r := Int.tmod m n
    if r = 0 then zero x.negative else scaled r e

/-- Have the remainder `r` by `y` and `y` different signs, so that it has to be moved? -/
def wrongSide (y r : Binary64) : Bool :=
  !r.isZero && (y.less (zero false) != r.less (zero false))

/-- The remainder by a number that is not zero, with the sign of the divisor. -/
def rem (x y : Binary64) : Binary64 :=
  let r := truncRem x y
  if wrongSide y r then r.add y
  else if r.isZero then zero y.negative
  else r

/-- The quotient by a number that is not zero, rounded down.  It is found from the remainder, by
steps that are rounded themselves. -/
def floorDiv (x y : Binary64) : Binary64 :=
  let r := truncRem x y
  let q := (x.sub r).div y
  let q := if wrongSide y r then q.sub one else q
  if q.isZero then zero (x.div y).negative
  else if !q.isFinite then q
  else
    let n := floor q
    let whole := if n = 0 then zero false else scaled n 0
    if half.less (q.sub whole) then whole.add one else whole

end Binary64
end Retrace
