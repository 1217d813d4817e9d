import Retrace.Value

/-!
# Views of values

A view is what a value looks like at one moment: all items of its lists, those that came later
among them, stand in it.  A list that has come to hold itself would have no end; where it comes up
inside of itself the view only refers to it.

Whatever looks at a value as a whole looks at its view: writing, comparing, filling in.

* `View`: the type.
* `Lists.view`: the view of a value.
* `View.write`, `View.quoted`, `View.shown`: a value as text.  Numbers of very many digits are not
  written.
* `View.toTree`: a value as a piece of program.
-/

set_option autoImplicit false
namespace Retrace

/-- What a value looks like.  `again` refers to a list around it. -/
inductive View where
  | none
  | bool (b : Bool)
  | int (n : Int)
  | float (x : Binary64)
  | text (s : Text)
  | list (id : Nat) (items : List View)
  | again (id : Nat)
  | tuple (items : List View)
  | thunk (id : Nat)
deriving Inhabited, BEq, Repr

namespace Lists

mutual

/-- The view of a value, given the views of the items that a list was extended by.  The lists of
the given numbers are around the value. -/
def viewWith (added : List Nat → Nat → List View) (around : List Nat) : Value → View
  | .none => .none
  | .bool b => .bool b
  | .int n => .int n
  | .float x => .float x
  | .text s => .text s
  | .list id items =>
    if around.contains id then .again id
    else .list id (viewsWith added (id :: around) items ++ added (id :: around) id)
  | .tuple items => .tuple (viewsWith added around items)
  | .thunk id => .thunk id

/-- The views of values. -/
def viewsWith (added : List Nat → Nat → List View) (around : List Nat) : List Value → List View
  | [] => []
  | v :: rest => viewWith added around v :: viewsWith added around rest

end

/-- The views of the items that a list was extended by, with at most `n` lists that have grown
inside of each other. -/
def addedWithin (l : Lists) : Nat → List Nat → Nat → List View
  | 0, _, _ => []
  | n + 1, around, id => viewsWith (addedWithin l n) around (l.addedTo id)

/-- The view of a value.  No list is entered inside of itself, so at most all lists that have grown
are inside of each other. -/
def view (l : Lists) (v : Value) : View :=
  viewWith (l.addedWithin l.added.entries.length) [] v

/-- The views of values. -/
def views (l : Lists) (vs : List Value) : List View :=
  vs.map l.view

end Lists

namespace View

/-- The view of a tree whose thunks are known by their numbers. -/
def ofTree (t : Tree) : View :=
  ({} : Lists).view (Value.ofTree t 0).1

/-- The name of the sort of a value, as messages use it. -/
def typeName : View → String
  | .none => "NoneType"
  | .bool _ => "bool"
  | .int _ => "int"
  | .float _ => "float"
  | .text _ => "str"
  | .list _ _ => "list"
  | .again _ => "list"
  | .tuple _ => "tuple"
  | .thunk _ => "LazyEval"

/-- The whole number that a whole number or a truth value counts for. -/
def whole? : View → Option Int
  | .bool b => some (if b then 1 else 0)
  | .int n => some n
  | _ => Option.none

/-- The number that a number or a truth value counts for. -/
def number? : View → Option Number
  | .bool b => some (.whole (if b then 1 else 0))
  | .int n => some (.whole n)
  | .float x => some (.real x)
  | _ => Option.none

/-! ## Text -/

/-- The least number that has too many digits to be written. -/
def digitLimit : Nat := Nat.pow 10 4300

/-- The digits of a whole number, with its sign. -/
def numeral (n : Int) : Except Fault String :=
  if n.natAbs < digitLimit then .ok (toString n) else .error .longNumber

mutual

/-- Writes a value behind a text, as it stands inside a list: a text is quoted, a tuple of one item
has a comma after it. -/
def write (out : String) : View → Except Fault String
  | .none => .ok (out ++ "None")
  | .bool b => .ok (out ++ Tree.boolText b)
  | .int n => do
    let s ← numeral n
    return out ++ s
  | .float x => .ok (out ++ x.text)
  | .text s => .ok (out ++ s.quoted)
  | .list _ items => do
    let s ← writeItems (out ++ "[") items
    return s ++ "]"
  | .again _ => .ok (out ++ "[...]")
  | .tuple [x] => do
    let s ← write (out ++ "(") x
    return s ++ ",)"
  | .tuple items => do
    let s ← writeItems (out ++ "(") items
    return s ++ ")"
  | .thunk _ => .ok (out ++ "<LazyEval>")

/-- Writes values behind a text, with commas between them. -/
def writeItems (out : String) : List View → Except Fault String
  | [] => .ok out
  | [x] => write out x
  | x :: rest => do
    let s ← write out x
    writeItems (s ++ ", ") rest

end

/-- A value as text, as it stands inside a list. -/
def quoted (v : View) : Except Fault String :=
  v.write ""

/-- A value as text on its own: a text appears as it is. -/
def shown : View → Except Fault Text
  | .text s => .ok s
  | v => do
    let s ← v.quoted
    return .plain s

/-! ## Trees -/

mutual

/-- A value as a piece of program. -/
def toTree : View → Tree
  | .none => .none
  | .bool b => .bool b
  | .int n => .int n
  | .float x => .float x
  | .text s => .text s.display
  | .list _ items => .list (toTrees items)
  | .again _ => .list []
  | .tuple items => .tuple (toTrees items)
  | .thunk id => .thunk id

/-- Values as pieces of program. -/
def toTrees : List View → List Tree
  | [] => []
  | v :: rest => toTree v :: toTrees rest

end
end View
end Retrace
