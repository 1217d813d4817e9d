import Retrace.Check
import Retrace.Grammar.Statement
import Retrace.Machine.Statement
import Retrace.Token.Lexer

/-!
# Running programs

A program goes through four stages: its text is cut into tokens, the tokens are read as a tree, the
tree is checked, and then it is carried out.  The last stage prints a title, picks the eager names,
carries out the statements one after the other, shortening the history after each, and prints what
it cost.

* `Stage`: the stages.
* `compile`: the first three of them.
* `Report`, `execute`: the last one, with the machine after each statement.
* `source`: all of them.
-/

set_option autoImplicit false
namespace Retrace

/-- The stages that a program goes through. -/
inductive Stage where
  | lex
  | parse
  | check
  | execute
  | done
deriving DecidableEq, Inhabited, Repr

namespace Run

/-! ## Before a program runs -/

/-- The tree of a program. -/
def read (source : String) : Except (Stage × Fault) (List Tree) := do
  match Token.ofSource source with
  | .error e => throw (.lex, e)
  | .ok tokens =>
    match Grammar.parse tokens with
    | .error e => throw (.parse, e)
    | .ok program => return program

/-- Checks a program. -/
def check (program : List Tree) : Except (Stage × Fault) Unit :=
  match Check.run program with
  | .ok _ _ => .ok ()
  | .error e _ => .error (.check, e)

/-- The tree of a program that was checked. -/
def compile (source : String) : Except (Stage × Fault) (List Tree) := do
  let program ← read source
  check program
  return program

/-! ## Carrying out a program -/

/-- The title in front of what a program prints. -/
def title : String :=
  "\n~~~~~~~~~~~~~~~~~~~~OUTPUT~~~~~~~~~~~~~~~~~~~~\n\n"

/-- The counts of a machine, one on each line. -/
def counts (m : Machine) : List String :=
  ["Assignments: " ++ toString m.assignments, "Evaluations: " ++ toString m.evaluations,
    "Reversals: " ++ toString m.reversals]

/-- What a run cost: what the machine has counted.  A host adds one more line, on the bytes that the
variables take in its memory.  It is left out, since it depends on the host and not on the program
alone. -/
def costs (m : Machine) : String :=
  "\n~~~~~~~~~~~~~~COMPUTATION COSTS~~~~~~~~~~~~~~~~~\n\n" ++
    (counts m).foldl (fun out line => out ++ line ++ "\n") ""

/-- What is known after a run: the fault that ended it, the machine after each statement that was
finished, and the machine in the end. -/
structure Report where
  fault? : Option Fault
  steps : List Machine
  final : Machine
deriving Inhabited

/-- Counts the names of a program and makes the frequent ones eager. -/
def profile (program : List Tree) : Exec Unit := do
  let m ← get
  match Profile.program program m.profile with
  | .ok _ p => set { m with profile := p }
  | .error e p =>
    set { m with profile := p }
    throw e

/-- Carries out a statement of the outermost level under watch. -/
def topLevel (watch : Exec.Watch) (n : Nat) (t : Tree) : Exec Unit := do
  Exec.carryOutWatched watch n t
  Exec.prune

/-- Carries out statements under watch, with the machine after each of them. -/
def statementsWatched (watch : Exec.Watch) (n : Nat) :
    List Tree → Machine → List Machine × Option Fault × Machine
  | [], m => ([], none, m)
  | t :: rest, m =>
    match topLevel watch n t m with
    | .ok _ m =>
      let (steps, fault?, final) := statementsWatched watch n rest m
      (m :: steps, fault?, final)
    | .error e m => ([], some e, m)

/-- Carries out statements, with the machine after each of them. -/
def statements (n : Nat) (program : List Tree) (m : Machine) :
    List Machine × Option Fault × Machine :=
  statementsWatched Exec.unwatched n program m

/-- A run that was given up because a value depends on itself has no meaningful costs. -/
def withCosts (fault? : Option Fault) (m : Machine) : Machine :=
  match fault? with
  | some .circular => m
  | _ => { m with pieces := ⟨.machine, costs m⟩ :: m.pieces }

/-- Carries out a program.  Statements nest and loops repeat at most `n` times. -/
def execute (n : Nat) (program : List Tree) (m : Machine) : Report :=
  match (do Exec.put .machine title; profile program : Exec Unit) m with
  | .error e m => { fault? := some e, steps := [], final := withCosts (some e) m }
  | .ok _ m =>
    let (steps, fault?, final) := statements n program m
    { fault?, steps, final := withCosts fault? final }

/-- More passes than a loop has that comes to an end. -/
def plenty : Nat := 0x10000000000

/-- Reads, checks and carries out a program. -/
def source (text : String) : Except (Stage × Fault) Report := do
  let program ← compile text
  return execute plenty program (Machine.new {})

end Run
end Retrace
