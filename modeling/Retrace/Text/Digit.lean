/-!
# Decimal digits of every script

A numeral of the language may be written with the decimal digits of any script.  Each script's
ten digits stand in a row, from its zero upwards, so the zeros alone describe all of them.

* `zeros`: the code point of the zero of every script.
* `value? c`: what `c` counts for, if it is a decimal digit.
* `ofDigits`: the number that a row of digits spells, most significant first.
-/

set_option autoImplicit false
namespace Retrace
namespace Text
namespace Digit

/-- The zero of each script that has decimal digits, in increasing order. -/
def zeros : List Nat :=
  [0x30, 0x660, 0x6f0, 0x7c0, 0x966, 0x9e6, 0xa66, 0xae6,
   0xb66, 0xbe6, 0xc66, 0xce6, 0xd66, 0xde6, 0xe50, 0xed0,
   0xf20, 0x1040, 0x1090, 0x17e0, 0x1810, 0x1946, 0x19d0, 0x1a80,
   0x1a90, 0x1b50, 0x1bb0, 0x1c40, 0x1c50, 0xa620, 0xa8d0, 0xa900,
   0xa9d0, 0xa9f0, 0xaa50, 0xabf0, 0xff10, 0x104a0, 0x10d30, 0x11066,
   0x110f0, 0x11136, 0x111d0, 0x112f0, 0x11450, 0x114d0, 0x11650, 0x116c0,
   0x11730, 0x118e0, 0x11950, 0x11c50, 0x11d50, 0x11da0, 0x16a60, 0x16ac0,
   0x16b50, 0x1d7ce, 0x1d7d8, 0x1d7e2, 0x1d7ec, 0x1d7f6, 0x1e140, 0x1e2f0,
   0x1e950, 0x1fbf0]

/-- The value of a decimal digit of any script, and `none` for every other character.  The
digits that programs are normally written with are looked at first. -/
def value? (c : Char) : Option Nat :=
  if c.toNat < 128 then
    if c.isDigit then some (c.toNat - 48) else none
  else
    (zeros.find? fun z => z ≤ c.toNat && c.toNat < z + 10).map (c.toNat - ·)

/-- Is `c` a decimal digit of some script? -/
def isDigit (c : Char) : Bool :=
  (value? c).isSome

/-- The number spelled by a row of digits; characters that are no digits count for zero. -/
def ofDigits (cs : List Char) : Nat :=
  cs.foldl (fun n c => 10 * n + (value? c).getD 0) 0

end Digit
end Text
end Retrace
