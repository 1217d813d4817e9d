import Retrace.Number.Binary64
import Retrace.Text.Quoted

/-!
# Program trees

A program is a list of statements, and statements and expressions are trees of one shape: a
statement is a tuple that starts with the name of its form, an operation is a tuple of two
operands around the name of an operator, a block is a list.  A name is a bare text; a literal
text keeps the quotes or backticks it was written with.

The parser builds well-formed trees only, but every later stage takes any tree, and says what is
wrong with an ill-formed one when it comes to it.

* `Tree`: the type.
* `Tree.typeName`: the word by which messages call the sort of a tree.
* `Tree.quoted` and `Tree.shown`: a tree as text; they differ on a text at the root only, which
  the first one puts between quotes.
* `Tree.isTruthy`: does the tree stand for something that is not empty and not zero?
-/

set_option autoImplicit false
namespace Retrace

/-- A tree of a program.  A `thunk` stands for a computation that is kept in the heap of a
running machine, under the given number. -/
inductive Tree where
  | none
  | bool (b : Bool)
  | int (n : Int)
  | float (x : Binary64)
  | text (s : String)
  | list (items : List Tree)
  | tuple (items : List Tree)
  | thunk (id : Nat)
deriving Inhabited, BEq, Repr

namespace Tree

/-- The name of the sort of a tree, as messages use it. -/
def typeName : Tree → String
  | .none => "NoneType"
  | .bool _ => "bool"
  | .int _ => "int"
  | .float _ => "float"
  | .text _ => "str"
  | .list _ => "list"
  | .tuple _ => "tuple"
  | .thunk _ => "LazyEval"

/-- Is the tree the text `s`? -/
def isText (s : String) : Tree → Bool
  | .text t => t == s
  | _ => false

/-- Absent, zero and empty trees do not count as true; all others do. -/
def isTruthy : Tree → Bool
  | .none => false
  | .bool b => b
  | .int n => n != 0
  | .float x => !x.isZero
  | .text s => !s.isEmpty
  | .list items => !items.isEmpty
  | .tuple items => !items.isEmpty
  | .thunk _ => true

/-! ## Trees as text -/

/-- A truth value as text. -/
def boolText (b : Bool) : String :=
  if b then "True" else "False"

mutual

/-- Writes a tree behind a text, as it stands inside another tree: a text is quoted, a tuple of one
item has a comma after it. -/
def write (out : String) : Tree → String
  | .none => out ++ "None"
  | .bool b => out ++ boolText b
  | .int n => out ++ toString n
  | .float x => out ++ x.text
  | .text s => out ++ Text.Quoted.quote s
  | .list items => writeItems (out ++ "[") items ++ "]"
  | .tuple [x] => write (out ++ "(") x ++ ",)"
  | .tuple items => writeItems (out ++ "(") items ++ ")"
  | .thunk _ => out ++ "<LazyEval>"

/-- Writes trees behind a text, with commas between them. -/
def writeItems (out : String) : List Tree → String
  | [] => out
  | [x] => write out x
  | x :: rest => writeItems (write out x ++ ", ") rest

end

/-- A tree as text, as it stands inside another tree. -/
def quoted (t : Tree) : String :=
  t.write ""

/-- A tree as text on its own: a text appears as it is. -/
def shown : Tree → String
  | .text s => s
  | t => quoted t

/-! ## Statements and expressions by name -/

/-- An operation on two operands. -/
def binary (left : Tree) (op : String) (right : Tree) : Tree :=
  .tuple [left, .text op, right]

/-- An item of a list that a name stands for. -/
def index (name position : Tree) : Tree :=
  .tuple [name, .text "index", position]

/-- The length of a text or a list. -/
def length (e : Tree) : Tree :=
  .tuple [.text "len", e]

/-- The numbers that a counting loop runs through. -/
def range (start stop step : Tree) : Tree :=
  .tuple [.text "range", start, stop, step]

end Tree
end Retrace
