/-!
# Clocks

A clock shows a whole number.  It goes on only when it is read, by a fixed step, and when it is set
forward.

The unit is called a second, but it may be any: readings are only subtracted from each other, and
the difference is compared with a time that is given in the same unit.  A clock that shows fractions
is one with a smaller unit, as long as all its readings are multiples of that.  The fixed step is
for runs that are repeated; where times are what matters, histories are given them one by one and
not by a clock.
-/

set_option autoImplicit false
namespace Retrace

/-- A clock: what it shows, and the step by which a reading moves it. -/
structure Clock where
  now : Int := 0
  tick : Int := 0
deriving Inhabited, Repr, DecidableEq

namespace Clock

/-- The time, and the clock after it was read. -/
def read (c : Clock) : Int × Clock :=
  (c.now, { c with now := c.now + c.tick })

/-- The clock, set forward. -/
def forward (c : Clock) (seconds : Int) : Clock :=
  { c with now := c.now + seconds }

end Clock
end Retrace
