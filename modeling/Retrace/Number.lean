import Retrace.Fault
import Retrace.Number.Binary64.Arithmetic

/-!
# Numbers

A number is whole, and then of any size, or it is real, of double precision.  Whole numbers among
themselves are added, subtracted and multiplied exactly, and they are divided down to a whole
quotient; their plain quotient is real.  As soon as one of two numbers is real, both are, and a
whole number that is too large for that is refused.

* `Number`: the type.
* `add`, `sub`, `mul`, `div`, `rem`, `floorDiv`: the operations.
* `compare?`: the order, which is exact also between a whole and a real number.
* `add_whole`, `sub_whole`, `mul_whole`, `less_whole`: the same on whole numbers.
-/

set_option autoImplicit false
namespace Retrace

/-- A number. -/
inductive Number where
  | whole (n : Int)
  | real (x : Binary64)
deriving DecidableEq, Inhabited, Repr

namespace Number

/-- The name of the sort of a number, as messages use it. -/
def typeName : Number → String
  | .whole _ => "int"
  | .real _ => "float"

/-- A number in double precision. -/
def toReal : Number → Except Fault Binary64
  | .whole n =>
    match Binary64.ofInt? n with
    | some x => .ok x
    | none => .error .wholeTooLarge
  | .real x => .ok x

/-- Is it zero? -/
def isZero : Number → Bool
  | .whole n => n == 0
  | .real x => x.isZero

/-- An operation that is exact on whole numbers and rounded on real ones. -/
def combine (exact : Int → Int → Int) (rounded : Binary64 → Binary64 → Binary64) :
    Number → Number → Except Fault Number
  | .whole a, .whole b => .ok (.whole (exact a b))
  | a, b => do
    let x ← a.toReal
    let y ← b.toReal
    return .real (rounded x y)

/-- The sum. -/
def add : Number → Number → Except Fault Number :=
  combine (· + ·) Binary64.add

/-- The difference. -/
def sub : Number → Number → Except Fault Number :=
  combine (· - ·) Binary64.sub

/-- The product. -/
def mul : Number → Number → Except Fault Number :=
  combine (· * ·) Binary64.mul

/-- An operation on real numbers that is refused for a second number of zero. -/
def partialReal (rounded : Binary64 → Binary64 → Binary64) (fault : Fault) (a b : Number) :
    Except Fault Number := do
  let x ← a.toReal
  let y ← b.toReal
  if y.isZero then throw fault else return .real (rounded x y)

/-- The quotient of two whole numbers, in double precision. -/
def quotient (a b : Int) : Except Fault Number :=
  if b = 0 then .error .divisionByZero
  else
    match Binary64.ofRatio ((decide (a < 0)).xor (decide (b < 0))) a.natAbs b.natAbs with
    | some x => .ok (.real x)
    | none => .error .quotientTooLarge

/-- The quotient. -/
def div : Number → Number → Except Fault Number
  | .whole a, .whole b => quotient a b
  | a, b => partialReal Binary64.div .realDivisionByZero a b

/-- The remainder, with the sign of the divisor. -/
def rem : Number → Number → Except Fault Number
  | .whole a, .whole b =>
    if b = 0 then .error .moduloByZero else .ok (.whole (Int.fmod a b))
  | a, b => partialReal Binary64.rem .realModuloByZero a b

/-- The quotient rounded down. -/
def floorDiv : Number → Number → Except Fault Number
  | .whole a, .whole b =>
    if b = 0 then .error .wholeDivisionByZero else .ok (.whole (Int.fdiv a b))
  | a, b => partialReal Binary64.floorDiv .realWholeDivisionByZero a b

/-- How two numbers compare, if they do. -/
def compare? : Number → Number → Option Ordering
  | .whole a, .whole b => some (compare a b)
  | .whole a, .real y => (y.compareInt? a).map Ordering.swap
  | .real x, .whole b => x.compareInt? b
  | .real x, .real y => x.compare? y

/-- Is the first number less than the second one? -/
def less (a b : Number) : Bool :=
  a.compare? b == some .lt

/-! ## Whole numbers -/

theorem add_whole (a b : Int) : (whole a).add (.whole b) = .ok (.whole (a + b)) := rfl

theorem sub_whole (a b : Int) : (whole a).sub (.whole b) = .ok (.whole (a - b)) := rfl

theorem mul_whole (a b : Int) : (whole a).mul (.whole b) = .ok (.whole (a * b)) := rfl

/-- Whole numbers are in their usual order. -/
theorem less_whole (a b : Int) : (whole a).less (.whole b) = decide (a < b) := by
  rcases Int.lt_trichotomy a b with h | h | h
  · simp [less, compare?, compare, compareOfLessAndEq, h]
  · simp [less, compare?, compare, compareOfLessAndEq, h]
  · have h1 : ¬a < b := by omega
    have h2 : a ≠ b := by omega
    simp [less, compare?, compare, compareOfLessAndEq, h1, h2]

end Number
end Retrace
