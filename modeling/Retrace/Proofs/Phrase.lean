import Retrace.Grammar.Statement

/-!
# Phrases of the language

A tree can have any shape, but only some shapes come about when a program is read.  Phrases are
those shapes, as types of their own: literals, expressions, what a `for` loop goes through, and
statements.  Each phrase has a tree, and a tree is well-formed if it is the tree of a phrase.

Programs are carried out as trees, and a running program makes no use of phrases: any tree may come
to be carried out, also one that no text stands for.  Statements about all programs that were read
from a text are therefore about the trees of phrases.  The advantage over a predicate on trees is
that the parts are there by name, with their types, and that recursion on a program follows its
statements.

A literal keeps the difference between a name and a text between quotes, which its tree does not
show: both are texts there, and the quotes are a part of the text.  A list of literals may stand as
a statement.  The reader lets it pass, and so it is among the statements.

* `Literal`, `Expression`, `Source`, `Statement`: the phrases.
* `Literal.tree`, …, `Statement.tree`: their trees.
* `Infix`: the operators that may stand between two operands.  The dot is among them, though no
  source text can hold it and a running program does not know it.
-/

set_option autoImplicit false

namespace Retrace
namespace Phrase

/-! ## Expressions -/

/-- A number, a truth value, a name, a text with its quotes, or a list of these. -/
inductive Literal where
  | int (n : Int)
  | bool (b : Bool)
  | name (s : String)
  | string (s : String)
  | list (items : List Literal)
deriving Inhabited, Repr

/-- What may stand between two operands. -/
inductive Infix where
  | known (op : Op)
  | dot
deriving DecidableEq, Inhabited, Repr

/-- An expression. -/
inductive Expression where
  | literal (v : Literal)
  | binary (left : Expression) (op : Infix) (right : Expression)
  | index (name : String) (position : Expression)
  | length (e : Expression)
deriving Inhabited, Repr

/-- What a `for` loop goes through: the items of a value, or numbers, given by one, two or three
expressions. -/
inductive Source where
  | items (e : Expression)
  | upTo (stop : Expression)
  | between (start stop : Expression)
  | steps (start stop step : Expression)
deriving Inhabited, Repr

mutual

/-- The tree of a literal. -/
def Literal.tree : Literal → Tree
  | .int n => .int n
  | .bool b => .bool b
  | .name s => .text s
  | .string s => .text s
  | .list items => .list (Literal.trees items)

/-- The trees of literals. -/
def Literal.trees : List Literal → List Tree
  | [] => []
  | v :: rest => v.tree :: Literal.trees rest

end

/-- The name of an operator in a tree. -/
def Infix.tag : Infix → String
  | .known op => op.tag
  | .dot => "dot"

/-- The tree of an expression. -/
def Expression.tree : Expression → Tree
  | .literal v => v.tree
  | .binary left op right => .binary left.tree op.tag right.tree
  | .index name position => .index (.text name) position.tree
  | .length e => .length e.tree

/-- The trees of expressions. -/
def Expression.trees (es : List Expression) : List Tree :=
  es.map Expression.tree

/-- The tree of what a `for` loop goes through.  Numbers that are given by their end alone start in
a way that no expression can be written. -/
def Source.tree : Source → Tree
  | .items e => e.tree
  | .upTo stop => .range Grammar.implicitStart stop.tree .none
  | .between start stop => .range start.tree stop.tree .none
  | .steps start stop step => .range start.tree stop.tree step.tree

/-! ## Statements -/

mutual

/-- A statement.  A list of literals is one as well, inside of blocks. -/
inductive Statement where
  | assign (name : String) (e : Expression)
  | compound (op : Compound) (name : String) (e : Expression)
  | reverse (name : String)
  | revtrace (name : String) (position : Expression)
  | branch (condition : Expression) (yes : List Statement) (elifs : List Elif)
      (no : List Statement)
  | forLoop (name : String) (source : Source) (body : List Statement)
  | whileLoop (condition : Expression) (body : List Statement)
  | print (first : Expression) (rest : List Expression)
  | breakLoop
  | literals (items : List Literal)

/-- A further condition of a branch, with its block. -/
inductive Elif where
  | mk (condition : Expression) (body : List Statement)

end

mutual

/-- The tree of a statement. -/
def Statement.tree : Statement → Tree
  | .assign name e => .assign (.text name) e.tree
  | .compound op name e => .compound op (.text name) e.tree
  | .reverse name => .reverse (.text name)
  | .revtrace name position => .revtrace (.text name) position.tree
  | .branch condition yes elifs no =>
    .branch condition.tree (Statement.trees yes) (Elif.trees elifs) (Statement.trees no)
  | .forLoop name source body => .forLoop (.text name) source.tree (Statement.trees body)
  | .whileLoop condition body => .whileLoop condition.tree (Statement.trees body)
  | .print first rest => .print (first.tree :: Expression.trees rest)
  | .breakLoop => .breakLoop
  | .literals items => .list (Literal.trees items)

/-- The tree of a further condition. -/
def Elif.tree : Elif → Tree
  | .mk condition body => .tuple [condition.tree, .list (Statement.trees body)]

/-- The trees of statements. -/
def Statement.trees : List Statement → List Tree
  | [] => []
  | s :: rest => s.tree :: Statement.trees rest

/-- The trees of further conditions. -/
def Elif.trees : List Elif → List Tree
  | [] => []
  | x :: rest => x.tree :: Elif.trees rest

end

theorem Literal.trees_eq_map (vs : List Literal) : Literal.trees vs = vs.map Literal.tree := by
  induction vs with
  | nil => rfl
  | cons v rest ih => rw [Literal.trees, ih, List.map_cons]

theorem Statement.trees_eq_map (ss : List Statement) :
    Statement.trees ss = ss.map Statement.tree := by
  induction ss with
  | nil => rfl
  | cons s rest ih => rw [Statement.trees, ih, List.map_cons]

theorem Statement.trees_append (ss ts : List Statement) :
    Statement.trees (ss ++ ts) = Statement.trees ss ++ Statement.trees ts := by
  simp only [Statement.trees_eq_map, List.map_append]

end Phrase
end Retrace
