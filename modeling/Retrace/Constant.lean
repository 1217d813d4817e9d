import Retrace.Number
import Retrace.Tree.Shape

/-!
# Constant expressions

Before a program runs, operations on constants are worked out, with numbers of any size.  Division
gives a fraction of double precision; whole division rounds down, and the remainder that belongs
to it has the sign of the divisor.  Operators that only compare or combine truth values have no
constant result: `Tree.none` takes the place of the operation.

* `evaluate op a b`: the result of one operation.
* `fold`: a tree with all operations on constants replaced by their results.
-/

set_option autoImplicit false
namespace Retrace
namespace Constant

/-- The tree of a number. -/
def ofNumber : Number → Tree
  | .whole n => .int n
  | .real x => .float x

/-- The result of an operation on two whole numbers. -/
def evaluate (op : Tree) (a b : Int) : Except Fault Tree :=
  match op with
  | .text "plus" => .ok (.int (a + b))
  | .text "minus" => .ok (.int (a - b))
  | .text "times" => .ok (.int (a * b))
  | .text "over" => do return ofNumber (← Number.quotient a b)
  | .text "modulo" => if b = 0 then .error .moduloByZero else .ok (.int (Int.fmod a b))
  | .text "int_div" => if b = 0 then .error .wholeDivisionByZero else .ok (.int (Int.fdiv a b))
  | _ => .ok .none

/-- An operation whose operands have been folded: its result if both are constants, and otherwise
the operation on what they were folded to. -/
def combine (op left right : Tree) : Except Fault Tree :=
  match left.whole?, right.whole? with
  | some a, some b => evaluate op a b
  | _, _ => .ok (.tuple [left, op, right])

mutual

/-- The tree with all operations on constants worked out.  A tuple of one item is that item, and
of a tuple of two only the first one is worked out. -/
def fold : Tree → Except Fault Tree
  | .tuple [left, op, right] => do
    let l ← fold left
    let r ← fold right
    combine op l r
  | .tuple [left, op] => do
    let l ← fold left
    return .tuple [l, op]
  | .tuple [x] => return x
  | .list xs => do
    let ys ← foldItems xs
    return .list ys
  | t => return t

/-- The trees with all operations on constants worked out. -/
def foldItems : List Tree → Except Fault (List Tree)
  | [] => return []
  | x :: rest => do
    let y ← fold x
    let ys ← foldItems rest
    return y :: ys

end
end Constant
end Retrace
