/-!
# Shortest decimals

The fewest decimal digits that single out one value among its neighbours.  A positive value is
given as a fraction `num / den`, and its neighbourhood as the fractions `lo / den` and `hi / den`
between which no other value lies.

* `magnitude num den`: the power of ten of the leading digit of `num / den`.
* `shortest`: the first grid `10^k`, from coarse to fine, that has a point in the neighbourhood,
  and the nearer of the two candidates on it.
-/

set_option autoImplicit false
namespace Retrace
namespace Decimal

/-- The number of decimal digits of `n`, counting one for zero. -/
def width (n : Nat) : Nat :=
  (Nat.toDigits 10 n).length

/-- The exponent `e` with `10^e ≤ num / den < 10^(e + 1)`, for a positive fraction. -/
def magnitude (num den : Nat) : Int :=
  if den ≤ num then
    (width (num / den) : Int) - 1
  else
    let j := width (den / num) - 1
    if den = num * Nat.pow 10 j then -(j : Int) else -(j : Int) - 1

/-- The grid points below and above `num / den` on the grid of step `10^k`, as multiples of the
step, together with the fraction's position: `num' / den'` in units of the step. -/
def onGrid (num den : Nat) (k : Int) : Nat × Nat :=
  if 0 ≤ k then (num, den * Nat.pow 10 k.toNat) else (num * Nat.pow 10 (-k).toNat, den)

/-- Looks for a point of the grid that starts with `count` digits, then for finer grids, at most
`fuel` of them.  The answer is the multiple and the exponent of the grid's step. -/
def search (num lo hi den : Nat) (closed : Bool) (e : Int) : Nat → Nat → Nat × Int
  | 0, count => ((onGrid num den (e + 1 - count)).1 / (onGrid num den (e + 1 - count)).2,
      e + 1 - count)
  | fuel + 1, count =>
    let k := e + 1 - count
    let p := onGrid num den k
    let inside (m : Nat) : Bool :=
      let l := onGrid lo den k
      let h := onGrid hi den k
      if closed then l.1 ≤ m * l.2 && m * h.2 ≤ h.1 else l.1 < m * l.2 && m * h.2 < h.1
    let below := p.1 / p.2
    let above := below + 1
    let r := p.1 % p.2
    match inside below, inside above with
    | true, true =>
      if 2 * r < p.2 || (2 * r == p.2 && below % 2 == 0) then (below, k) else (above, k)
    | true, false => (below, k)
    | false, true => (above, k)
    | false, false => search num lo hi den closed e fuel (count + 1)

/-- The digits and the exponent of ten of the shortest decimal in the neighbourhood; `closed`
says whether its ends belong to it.  Seventeen digits are always enough for a double. -/
def shortest (num lo hi den : Nat) (closed : Bool) : Nat × Int :=
  search num lo hi den closed (magnitude num den) 17 1

end Decimal
end Retrace
