import Retrace.Table
import Retrace.Tree.Shape

/-!
# Profiles

Before a program runs its names are counted, and those that occur often are made eager: what is
assigned to them is worked out at once, while assignments to other names are put off until the
value is asked for.

All texts count, operators and literals among them, that occur in assignments, reversals, traces,
conditions and prints, also inside of `if` and `while` blocks; `for` loops and compound assignments
are not looked into.  The names are judged in batches, after every so many steps of counting, and
once in the end.

* `Profile.count`: counts the texts of a tree.
* `Profile.node`, `Profile.nodes`: counts the texts of statements.
* `Profile.judge`: makes frequent names eager.
-/

set_option autoImplicit false
namespace Retrace

/-- How often each text was counted, the steps of counting since the last batch was full, the size
of a batch, and the eager names. -/
structure Profile where
  counts : Table String Nat := Table.empty
  steps : Nat := 0
  batch : Nat := 250
  eager : List String := []
deriving Inhabited, Repr

namespace Profile

/-- Makes a name eager. -/
def addEager (p : Profile) (name : String) : Profile :=
  if p.eager.contains name then p else { p with eager := p.eager ++ [name] }

/-- Names that occur more often than this are eager. -/
def threshold : Nat := 3

/-- Makes the frequent names eager. -/
def judge (p : Profile) : Profile :=
  p.counts.entries.foldl (fun q entry => if threshold < entry.2 then q.addEager entry.1 else q) p

/-- Counts one text. -/
def countText (p : Profile) (s : String) : Profile :=
  { p with counts := p.counts.insert s ((p.counts.get? s).getD 0 + 1) }

/-- The end of a step of counting; the names are judged when a batch is full. -/
def step (p : Profile) : Profile :=
  if p.batch ≤ p.steps + 1 then judge { p with steps := 0 } else { p with steps := p.steps + 1 }

mutual

/-- Counts the texts of a tree. -/
def count (p : Profile) : Tree → Profile
  | .list xs => step (countItems p xs)
  | .tuple xs => step (countItems p xs)
  | .text s => step (p.countText s)
  | _ => step p

/-- Counts the texts of trees. -/
def countItems (p : Profile) : List Tree → Profile
  | [] => p
  | x :: rest => countItems (count p x) rest

end

/-! ## Statements -/

/-- A step of the profiler. -/
abbrev Profiler := EStateM Fault Profile

/-- Counts the texts of a part of a statement. -/
def part (t : Tree) : Profiler Unit :=
  modify fun p => p.count t

mutual

/-- Counts the texts of a statement. -/
def node : Tree → Profiler Unit
  | .tuple xs => form "tuple" xs
  | .list xs => form "list" xs
  | .text s => if s.isEmpty then throw (.outOfRange "string") else return ()
  | t => throw (.notSubscriptable t.typeName)

/-- Counts the texts of a statement that is given by its items. -/
def form (sequenceName : String) : List Tree → Profiler Unit
  | [] => throw (.outOfRange sequenceName)
  | tag :: arguments =>
    match Form.ofTree? tag with
    | some .assign =>
      match arguments with
      | [target, value] => do
        part target
        part value
      | _ => throw (Tree.wrongLength 3 (arguments.length + 1))
    | some .reverse =>
      match arguments with
      | [target] => part target
      | _ => throw (Tree.wrongLength 2 (arguments.length + 1))
    | some .revtrace =>
      match arguments with
      | [target, position] => do
        part target
        part position
      | _ => throw (Tree.wrongLength 3 (arguments.length + 1))
    | some .branch =>
      match arguments with
      | [condition, yes, elifs, no] => do
        part condition
        block yes
        elifBranches elifs
        block no
      | _ => throw (Tree.wrongLength 5 (arguments.length + 1))
    | some .whileLoop =>
      match arguments with
      | [condition, body] => do
        part condition
        block body
      | _ => throw (Tree.wrongLength 3 (arguments.length + 1))
    | some .print =>
      match arguments with
      | [values] => part values
      | _ => throw (Tree.wrongLength 2 (arguments.length + 1))
    | _ => return ()

/-- Counts the texts of a block.  The characters of a text are no statements that count. -/
def block : Tree → Profiler Unit
  | .list xs => nodes xs
  | .tuple xs => nodes xs
  | .text _ => return ()
  | t => throw (.notIterable t.typeName)

/-- Counts the texts of statements. -/
def nodes : List Tree → Profiler Unit
  | [] => return ()
  | x :: rest => do
    node x
    nodes rest

/-- Counts the texts of the `elif` branches of an `if`. -/
def elifBranches : Tree → Profiler Unit
  | .list xs => elifBranchItems xs
  | .tuple xs => elifBranchItems xs
  | .text s => if s.isEmpty then return () else throw (Tree.wrongLength 2 1)
  | t => throw (.notIterable t.typeName)

/-- Counts the texts of `elif` branches. -/
def elifBranchItems : List Tree → Profiler Unit
  | [] => return ()
  | x :: rest => do
    elifBranch x
    elifBranchItems rest

/-- Counts the texts of an `elif` branch: a condition and a block. -/
def elifBranch : Tree → Profiler Unit
  | .tuple [condition, body] => do
    part condition
    block body
  | .list [condition, body] => do
    part condition
    block body
  | .tuple xs => throw (Tree.wrongLength 2 xs.length)
  | .list xs => throw (Tree.wrongLength 2 xs.length)
  | .text s =>
    match s.toList with
    | [c, _] => part (.text c.toString)
    | cs => throw (Tree.wrongLength 2 cs.length)
  | t => throw (.notUnpackable t.typeName)

end

/-- Counts the texts of a program and judges its names. -/
def program (statements : List Tree) : Profiler Unit := do
  nodes statements
  modify judge

end Profile
end Retrace
