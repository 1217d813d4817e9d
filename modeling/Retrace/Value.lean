import Retrace.Number
import Retrace.Table
import Retrace.Text
import Retrace.Tree

/-!
# Values

What the variables of a running program hold and what its expressions come to: nothing, truth
values, numbers, texts, lists and tuples, and thunks, which are computations that have been put
off.

A list can grow after it was made, and then it has grown wherever it is held.  So every list has a
number of its own, and a value holds the items that the list was made with; the items that came
later are kept apart, under the number of the list.

* `Value.typeName`: the word by which messages call the sort of a value.
* `Value.ofTree`: the value that a tree stands for.
* `Value.number?`: the number that a value is, truth values counting as one and zero.
* `Lists`: which lists have grown, and by what.
* `Lists.contents`: all items of a list; `Lists.extend`: more of them.
* `Lists.isTruthy`: does a condition with this value hold?
-/

set_option autoImplicit false
namespace Retrace

/-- A value of a running program.  A list is known by its number, and so is a thunk, which is kept
in the heap of the machine. -/
inductive Value where
  | none
  | bool (b : Bool)
  | int (n : Int)
  | float (x : Binary64)
  | text (s : Text)
  | list (id : Nat) (items : List Value)
  | tuple (items : List Value)
  | thunk (id : Nat)
deriving Inhabited, BEq, Repr

namespace Value

/-- The name of the sort of a value, as messages use it. -/
def typeName : Value → String
  | .none => "NoneType"
  | .bool _ => "bool"
  | .int _ => "int"
  | .float _ => "float"
  | .text _ => "str"
  | .list _ _ => "list"
  | .tuple _ => "tuple"
  | .thunk _ => "LazyEval"

/-- The value of a text of characters. -/
def ofString (s : String) : Value :=
  .text (.plain s)

/-- The value of a number. -/
def ofNumber : Number → Value
  | .whole n => .int n
  | .real x => .float x

/-- The whole number that a whole number or a truth value counts for. -/
def whole? : Value → Option Int
  | .bool b => some (if b then 1 else 0)
  | .int n => some n
  | _ => Option.none

/-- The number that a number or a truth value counts for. -/
def number? : Value → Option Number
  | .bool b => some (.whole (if b then 1 else 0))
  | .int n => some (.whole n)
  | .float x => some (.real x)
  | _ => Option.none

/-- Is it nothing? -/
def isNone : Value → Bool
  | .none => true
  | _ => false

mutual

/-- The value that a tree stands for.  Its lists take their numbers from a counter. -/
def ofTree : Tree → StateM Nat Value
  | .none => return .none
  | .bool b => return .bool b
  | .int n => return .int n
  | .float x => return .float x
  | .text s => return ofString s
  | .list items => do
    let id ← modifyGet fun n => (n, n + 1)
    let vs ← ofTrees items
    return .list id vs
  | .tuple items => do
    let vs ← ofTrees items
    return .tuple vs
  | .thunk id => return .thunk id

/-- The values that trees stand for. -/
def ofTrees : List Tree → StateM Nat (List Value)
  | [] => return []
  | t :: rest => do
    let v ← ofTree t
    let vs ← ofTrees rest
    return v :: vs

end
end Value

/-! ## Lists that grow -/

/-- The number for the next list, and the items that lists were extended by. -/
structure Lists where
  next : Nat := 0
  added : Table Nat (List Value) := Table.empty
deriving Inhabited, Repr

namespace Lists

/-- The items that a list was extended by. -/
def addedTo (l : Lists) (id : Nat) : List Value :=
  (l.added.get? id).getD []

/-- All items of the list with a number that was made with the given items. -/
def contents (l : Lists) (id : Nat) (items : List Value) : List Value :=
  match l.addedTo id with
  | [] => items
  | more => items ++ more

/-- Extends a list by items. -/
def extend (l : Lists) (id : Nat) (more : List Value) : Lists :=
  { l with added := l.added.insert id (l.addedTo id ++ more) }

/-- Nothing, zero and what is empty do not count as true; all else does. -/
def isTruthy (l : Lists) : Value → Bool
  | .none => false
  | .bool b => b
  | .int n => n != 0
  | .float x => !x.isZero
  | .text s => !s.isEmpty
  | .list id items => !(l.contents id items).isEmpty
  | .tuple items => !items.isEmpty
  | .thunk _ => true

theorem addedTo_extend (l : Lists) (id other : Nat) (more : List Value) :
    (l.extend id more).addedTo other =
      if id = other then l.addedTo id ++ more else l.addedTo other := by
  simp only [extend, addedTo, Table.get?_insert, beq_iff_eq]
  split <;> rfl

/-- After a list was extended it has the items it had and the new ones behind them; other lists are
as they were. -/
theorem contents_extend (l : Lists) (id other : Nat) (more items : List Value) :
    (l.extend id more).contents other items =
      if id = other then l.contents other items ++ more else l.contents other items := by
  have c (l : Lists) : l.contents other items = items ++ l.addedTo other := by
    simp only [contents]
    split <;> simp_all
  rw [c, c, addedTo_extend]
  split
  · next e => subst e; simp
  · rfl

end Lists
end Retrace
