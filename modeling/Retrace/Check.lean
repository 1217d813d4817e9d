import Retrace.Constant
import Retrace.Name
import Retrace.Table
import Retrace.Text.Numeric

/-!
# Checking a program

Before a program runs it is read through once, from top to bottom, to see that it uses no variable
before an assignment to it.  The checker keeps a table of the declared names, each with the folded
expression that was last assigned to it, and it keeps that table also when it stops with a fault.

Blocks are read through once and in order, whatever the conditions in front of them; a name that
is assigned in one of them counts as declared from there on.  The variable of a `for` loop is
declared inside the loop only, unless it was declared before.

* `Checker α`: a step of the checker.
* `expression`: are all names of an expression declared?
* `node`: one statement, and `program`: all statements of a program.
-/

set_option autoImplicit false
namespace Retrace
namespace Check

/-- A step of the checker, on the table of declared names. -/
abbrev Checker := EStateM Fault (Table Name Tree)

/-- Goes on with a result that may be a fault. -/
def ofExcept {α : Type} : Except Fault α → Checker α
  | .ok a => return a
  | .error e => throw e

/-- An objection. -/
def object {α : Type} (cause : CheckFault) : Checker α :=
  throw (.check cause)

/-! ## Names -/

/-- Declares a name, with what was assigned to it. -/
def declare (name : Name) (value : Tree) : Checker Unit :=
  modify fun names => names.insert name value

/-- Objects to a name that is not declared. -/
def mustBeDeclared (t : Tree) : Checker Unit := do
  let name ← ofExcept (Name.ofTree t)
  if !(← get).contains name then object (.undeclared t)

/-- Folds the operations on constants, for their faults. -/
def fold (t : Tree) : Checker Tree :=
  ofExcept (Constant.fold t)

/-! ## Expressions -/

/-- Is a text a literal in double quotes? -/
def isLiteral (s : String) : Bool :=
  s.startsWith "\"" && s.endsWith "\""

/-- A text in an expression: a literal, a numeral or a name, which has to be declared. -/
def textExpression (s : String) : Checker Unit := do
  if !Tree.isRaw s && !Text.Numeric.isNumeric s && !isLiteral s then
    mustBeDeclared (.text s)

/-- The full name under which a refused computation is reported. -/
def thunkSort : String := "src.core.lazyeval.LazyEval"

mutual

/-- Are all names in an expression declared? -/
def expression : Tree → Checker Unit
  | .list xs => expressions xs
  | .tuple [] => throw (.outOfRange "tuple")
  | .tuple [first, e] => do
    if first.isText "len" then expression e
    else object (.badTuple (.tuple [first, e]))
  | .tuple [left, _, right] => do
    if left.isText "len" then throw (Tree.wrongLength 2 3)
    else
      expression left
      expression right
  | .tuple (first :: rest) => do
    if first.isText "len" then throw (Tree.wrongLength 2 (rest.length + 1))
    else object (.badTuple (.tuple (first :: rest)))
  | .text s => textExpression s
  | .int _ => return ()
  | .bool _ => return ()
  | .thunk _ => object (.badSort thunkSort)
  | t => object (.badSort t.typeName)

/-- Are all names in the expressions declared? -/
def expressions : List Tree → Checker Unit
  | [] => return ()
  | x :: rest => do
    expression x
    expressions rest

end

/-- The expressions of a sequence; a text counts as the sequence of its characters. -/
def sequence : Tree → Checker Unit
  | .list xs => expressions xs
  | .tuple xs => expressions xs
  | .text s => expressions (Tree.characters s)
  | t => throw (.notIterable t.typeName)

/-! ## Statements -/

/-- What a `for` loop goes through. -/
def iterable (t : Tree) : Checker Unit := do
  let first ← ofExcept t.head
  if first.isText "range" then
    let (_, start, stop, step) ← ofExcept t.unpack4
    let _ ← fold start
    let _ ← fold stop
    if step.isTruthy then
      let _ ← fold step
  else
    match t with
    | .list xs =>
      match xs.find? fun x => x.whole?.isNone && !(x matches .text _) with
      | some x => object (.badItem x)
      | none => return ()
    | _ =>
      let _ ← fold t
      if t matches .text _ then mustBeDeclared t

/-- A text in the place of a block.  Its characters would be the statements, and none of them
names a form. -/
def textBlock (s : String) : Checker Unit :=
  match s.toList with
  | [] => return ()
  | c :: _ => object (.unknownForm (.text c.toString))

mutual

/-- One statement. -/
def node : Tree → Checker Unit
  | .tuple xs => form "tuple" xs
  | .list xs => form "list" xs
  | .text s => if s.isEmpty then throw (.outOfRange "string") else textBlock s
  | t => throw (.notSubscriptable t.typeName)

/-- A statement by its items: the name of its form and what belongs to it.  The items of a
sequence of the given name are missing if there are too few. -/
def form (sequenceName : String) : List Tree → Checker Unit
  | [] => throw (.outOfRange sequenceName)
  | tag :: arguments =>
    match Form.ofTree? tag with
    | some .assign =>
      match arguments with
      | [target, value] => do
        let folded ← fold value
        declare (← ofExcept (Name.ofTree target)) folded
      | _ => throw (Tree.wrongLength 3 (arguments.length + 1))
    | some (.compound _) =>
      match arguments with
      | [target, value] => do
        mustBeDeclared target
        let _ ← fold value
      | _ => throw (Tree.wrongLength 3 (arguments.length + 1))
    | some .reverse =>
      match arguments with
      | [target] => mustBeDeclared target
      | _ => throw (Tree.wrongLength 2 (arguments.length + 1))
    | some .revtrace =>
      match arguments with
      | [target, _] => mustBeDeclared target
      | _ => throw (Tree.wrongLength 3 (arguments.length + 1))
    | some .branch =>
      match arguments with
      | condition :: yes :: elifs :: no :: _ => do
        expression condition
        block yes
        elifBranches elifs
        block no
      | _ => throw (.outOfRange sequenceName)
    | some .forLoop =>
      match arguments with
      | [target, source, body] => do
        iterable source
        let name ← ofExcept (Name.ofTree target)
        let known := (← get).contains name
        declare name .none
        block body
        if !known then modify fun names => names.erase name
      | _ => throw (Tree.wrongLength 4 (arguments.length + 1))
    | some .whileLoop =>
      match arguments with
      | [condition, body] => do
        expression condition
        block body
      | _ => throw (Tree.wrongLength 3 (arguments.length + 1))
    | some .print =>
      match arguments with
      | [values] => sequence values
      | _ => throw (Tree.wrongLength 2 (arguments.length + 1))
    | some .breakLoop => return ()
    | some .length =>
      match arguments with
      | [e] => do
        let _ ← fold e
      | _ => throw (Tree.wrongLength 2 (arguments.length + 1))
    | none => object (.unknownForm tag)

/-- The statements of a block. -/
def block : Tree → Checker Unit
  | .list xs => statements xs
  | .tuple xs => statements xs
  | .text s => textBlock s
  | t => throw (.notIterable t.typeName)

/-- Statements, one after the other. -/
def statements : List Tree → Checker Unit
  | [] => return ()
  | x :: rest => do
    node x
    statements rest

/-- The `elif` branches of an `if`. -/
def elifBranches : Tree → Checker Unit
  | .list xs => elifBranchItems xs
  | .tuple xs => elifBranchItems xs
  | .text s => if s.isEmpty then return () else throw (Tree.wrongLength 2 1)
  | t => throw (.notIterable t.typeName)

/-- `elif` branches, one after the other. -/
def elifBranchItems : List Tree → Checker Unit
  | [] => return ()
  | x :: rest => do
    elifBranch x
    elifBranchItems rest

/-- One `elif` branch: a condition and a block. -/
def elifBranch : Tree → Checker Unit
  | .tuple [condition, body] => do
    expression condition
    block body
  | .list [condition, body] => do
    expression condition
    block body
  | .tuple xs => throw (Tree.wrongLength 2 xs.length)
  | .list xs => throw (Tree.wrongLength 2 xs.length)
  | .text s =>
    match s.toList with
    | [c, d] => do
      textExpression c.toString
      textBlock d.toString
    | cs => throw (Tree.wrongLength 2 cs.length)
  | t => throw (.notUnpackable t.typeName)

end

/-- An `if`, and nothing else. -/
def branch (t : Tree) : Checker Unit := do
  if (← ofExcept t.head).isText "if" then node t
  else object .notABranch

/-- A length that is taken for its own sake, by any name. -/
def length (t : Tree) : Checker Unit := do
  let (_, e) ← ofExcept t.unpack2
  let _ ← fold e

/-- All statements of a program. -/
def program (statements : List Tree) : Checker Unit :=
  Check.statements statements

/-- Checks a program from an empty table: its first fault, if it has one, and the table in the
end. -/
def run (statements : List Tree) : EStateM.Result Fault (Table Name Tree) Unit :=
  program statements Table.empty

end Check
end Retrace
