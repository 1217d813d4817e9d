import Retrace.Form
import Retrace.Value.View

/-!
# Equality and order of values

Numbers and truth values are equal if they have the same value, whole or real, and they are ordered
by size.  Texts are ordered by their code points, lists and tuples item by item: the first items
that differ decide, and if there are none the shorter one is the smaller one.  Values of different
sorts differ and are not ordered.

* `Op.accepts`: which of the three outcomes of a comparison an operator accepts.
* `View.same`: are two values equal?
* `View.order`: does a relation hold between two values?
-/

set_option autoImplicit false
namespace Retrace

/-- Does the relation hold between two things that compare in this way? -/
def Op.accepts : Op → Ordering → Bool
  | .eq, o => o.isEq
  | .neq, o => o.isNe
  | .lt, o => o.isLT
  | .gt, o => o.isGT
  | .lte, o => o.isLE
  | .gte, o => o.isGE
  | _, _ => false

/-- Does the relation hold between two things that compare in this way, or not at all? -/
def Op.acceptsSome (op : Op) : Option Ordering → Bool
  | some o => op.accepts o
  | none => false

namespace View

/-- Are two values one and the same?  A list is the same as itself, whatever it holds, and so is
what is not a number. -/
def identical : View → View → Bool
  | .float x, .float y => x == y
  | .list i _, .list j _ => i == j
  | .list i _, .again j => i == j
  | .again i, .list j _ => i == j
  | .again i, .again j => i == j
  | _, _ => false

mutual

/-- Are two values equal? -/
def same : View → View → Bool
  | .none, .none => true
  | .text s, .text t => s == t
  | .list i xs, .list j ys => i == j || sameItems xs ys
  | .tuple xs, .tuple ys => sameItems xs ys
  | .thunk a, .thunk b => a == b
  | x, y =>
    match x.number?, y.number? with
    | some a, some b => a.compare? b == some .eq
    | _, _ => identical x y

/-- Are values equal, item by item? -/
def sameItems : List View → List View → Bool
  | [], [] => true
  | x :: xs, y :: ys => (identical x y || same x y) && sameItems xs ys
  | _, _ => false

end

/-- Do two items count as equal when sequences are compared? -/
def sameItem (x y : View) : Bool :=
  identical x y || same x y

mutual

/-- Does the relation `op` hold between two values, given which items count as equal? -/
def orderBy (equal : View → View → Bool) (op : Op) : View → View → Except Fault Bool
  | .text s, .text t => .ok (op.accepts (s.order t))
  | .list _ xs, .list _ ys => orderItemsBy equal op xs ys
  | .tuple xs, .tuple ys => orderItemsBy equal op xs ys
  | x, y =>
    match x.number?, y.number? with
    | some a, some b => .ok (op.acceptsSome (a.compare? b))
    | _, _ => .error (.unordered op.symbol x.typeName y.typeName)

/-- Does the relation `op` hold between two sequences, given which items count as equal? -/
def orderItemsBy (equal : View → View → Bool) (op : Op) :
    List View → List View → Except Fault Bool
  | x :: xs, y :: ys => if equal x y then orderItemsBy equal op xs ys else orderBy equal op x y
  | [], [] => .ok (op.accepts .eq)
  | [], _ :: _ => .ok (op.accepts .lt)
  | _ :: _, [] => .ok (op.accepts .gt)

end

/-- Does the relation `op` hold between two values? -/
def order (op : Op) (x y : View) : Except Fault Bool :=
  orderBy sameItem op x y

end View
end Retrace
