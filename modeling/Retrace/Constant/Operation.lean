import Retrace.Constant
import Retrace.Value.Operator

/-!
# Operations on constants of any sort

Constants that are folded are whole numbers.  An operation can also be asked for on its own, on
constants of any sort, and then it is what the operator is on values, with numbers of any size.
-/

set_option autoImplicit false
namespace Retrace
namespace Constant

/-- The result of an operation on two constants of any sort. -/
def operation (op left right : Tree) : Except Fault Tree :=
  match left.whole?, right.whole? with
  | some a, some b => evaluate op a b
  | _, _ =>
    match Op.ofTree? op with
    | none => .ok .none
    | some op =>
      let (u, n) := Value.ofTree left 0
      let (v, n) := Value.ofTree right n
      match op.arithmetic? {} n u v with
      | none => .ok .none
      | some result => do return (({} : Lists).view (← result)).toTree

end Constant
end Retrace
