import Retrace.Tree

/-!
# Forms of statements and operators

The tuples of a program tree are told apart by a text in a fixed place: the first item of a
statement names its form, the middle item of an operation names its operator.

* `Form`, `Form.tag`, `Form.ofTag?`: the forms of statements and their names.
* `Op`, `Op.tag`, `Op.ofTag?`: the operators that a running program knows.
* `Compound`: the four operators that may be joined with an assignment.
* `Tree.assign`, `Tree.reverse`, …: the statements, by name.
-/

set_option autoImplicit false
namespace Retrace

/-! ## Operators -/

/-- The operators on two operands. -/
inductive Op where
  | plus | minus | times | over | modulo | intDiv
  | eq | neq | lt | gt | lte | gte
  | and | or
deriving DecidableEq, Repr, Inhabited

namespace Op

/-- The name of an operator in a program tree. -/
def tag : Op → String
  | .plus => "plus"
  | .minus => "minus"
  | .times => "times"
  | .over => "over"
  | .modulo => "modulo"
  | .intDiv => "int_div"
  | .eq => "eq"
  | .neq => "neq"
  | .lt => "lt"
  | .gt => "gt"
  | .lte => "lte"
  | .gte => "gte"
  | .and => "and"
  | .or => "or"

/-- All operators. -/
def all : List Op :=
  [.plus, .minus, .times, .over, .modulo, .intDiv, .eq, .neq, .lt, .gt, .lte, .gte, .and, .or]

/-- The operator of a given name. -/
def ofTag? (s : String) : Option Op :=
  all.find? fun op => op.tag == s

/-- The operator that a tree names. -/
def ofTree? : Tree → Option Op
  | .text s => ofTag? s
  | _ => none

/-- The operator as it is written in source text. -/
def symbol : Op → String
  | .plus => "+"
  | .minus => "-"
  | .times => "*"
  | .over => "/"
  | .modulo => "%"
  | .intDiv => "//"
  | .eq => "=="
  | .neq => "!="
  | .lt => "<"
  | .gt => ">"
  | .lte => "<="
  | .gte => ">="
  | .and => "and"
  | .or => "or"

end Op

/-- The operators of compound assignments. -/
inductive Compound where
  | plus | minus | times | over
deriving DecidableEq, Repr, Inhabited

/-- The name of the statement that assigns with the operator. -/
def Compound.tag : Compound → String
  | .plus => "plus_assign"
  | .minus => "minus_assign"
  | .times => "times_assign"
  | .over => "over_assign"

/-! ## Statements -/

/-- The forms of statements.  The last one, a length taken for its own sake, is known to the
checker only. -/
inductive Form where
  | assign
  | compound (op : Compound)
  | reverse
  | revtrace
  | branch
  | forLoop
  | whileLoop
  | print
  | breakLoop
  | length
deriving DecidableEq, Repr, Inhabited

namespace Form

/-- The text that a statement of the form starts with. -/
def tag : Form → String
  | .assign => "assign"
  | .compound op => op.tag
  | .reverse => "reverse"
  | .revtrace => "revtrace"
  | .branch => "if"
  | .forLoop => "for"
  | .whileLoop => "while"
  | .print => "print"
  | .breakLoop => "break"
  | .length => "len"

/-- All forms. -/
def all : List Form :=
  [.assign, .reverse, .revtrace, .branch, .forLoop, .whileLoop, .print, .compound .plus,
   .compound .minus, .compound .times, .compound .over, .breakLoop, .length]

/-- The form of a given name. -/
def ofTag? (s : String) : Option Form :=
  all.find? fun form => form.tag == s

/-- The form that a tree names. -/
def ofTree? : Tree → Option Form
  | .text s => ofTag? s
  | _ => none

end Form

namespace Tree

/-- `name = value` -/
def assign (name value : Tree) : Tree :=
  .tuple [.text "assign", name, value]

/-- `name += value` and the like. -/
def compound (op : Compound) (name value : Tree) : Tree :=
  .tuple [.text op.tag, name, value]

/-- `rev name` -/
def reverse (name : Tree) : Tree :=
  .tuple [.text "reverse", name]

/-- `revtrace name position` -/
def revtrace (name position : Tree) : Tree :=
  .tuple [.text "revtrace", name, position]

/-- A choice: condition, block, further conditions with their blocks, last block. -/
def branch (condition : Tree) (yes elifs no : List Tree) : Tree :=
  .tuple [.text "if", condition, .list yes, .list elifs, .list no]

/-- `for name in iterable` with its block. -/
def forLoop (name iterable : Tree) (body : List Tree) : Tree :=
  .tuple [.text "for", name, iterable, .list body]

/-- `while condition` with its block. -/
def whileLoop (condition : Tree) (body : List Tree) : Tree :=
  .tuple [.text "while", condition, .list body]

/-- `print(values)` -/
def print (values : List Tree) : Tree :=
  .tuple [.text "print", .list values]

/-- `break` -/
def breakLoop : Tree :=
  .tuple [.text "break"]

end Tree
end Retrace
