import Retrace.Fault

/-!
# Positions and sizes of sequences

The items of a list are counted from zero, and from the end by negative numbers: the last one is at
`-1`.  Positions of any size may be asked for, but those of more than sixty-four bits are refused
before the list is looked at.  What would be larger than the memory is not made.
-/

set_option autoImplicit false
namespace Retrace
namespace Sequence

/-- Positions and repetitions lie between `-bound` and `bound`. -/
def bound : Int := 0x8000000000000000

/-- So many bytes find no room in the memory. -/
def room : Nat := 0x100000000

/-- Is the number a possible position? -/
def inBounds (n : Int) : Bool :=
  -bound ≤ n && n < bound

/-- The item of a list at a position. -/
def item {α : Type} (xs : List α) (position : Int) : Except Fault α :=
  if !inBounds position then .error .hugeIndex
  else
    let p := if position < 0 then position + xs.length else position
    if p < 0 then .error (.outOfRange "list")
    else
      match xs[p.toNat]? with
      | some x => .ok x
      | none => .error (.outOfRange "list")

/-- Counted from the end, the items come in the order of the list turned around. -/
theorem item_reverse {α : Type} (xs : List α) {k : Nat} (hk : 1 ≤ k) :
    item xs.reverse (-k) =
      if inBounds (-k) then (xs[k - 1]?).elim (.error (.outOfRange "list")) .ok
      else .error .hugeIndex := by
  rw [item]
  cases hb : inBounds (-k) with
  | false => rfl
  | true =>
    have hneg : (-k : Int) < 0 := by omega
    simp only [Bool.not_true, Bool.false_eq_true, if_false, if_true, if_pos hneg,
      List.length_reverse]
    by_cases hlen : k ≤ xs.length
    · have hp : ¬ (-k + xs.length : Int) < 0 := by omega
      have hget : xs.reverse[(-k + xs.length : Int).toNat]? = xs[k - 1]? := by
        rw [List.getElem?_reverse (by omega)]
        congr 1
        omega
      rw [if_neg hp, hget]
      cases xs[k - 1]? <;> rfl
    · have hp : (-k + xs.length : Int) < 0 := by omega
      rw [if_pos hp, List.getElem?_eq_none (by omega)]
      rfl

end Sequence
end Retrace
