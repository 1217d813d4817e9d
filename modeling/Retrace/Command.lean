import Retrace.Folder
import Retrace.Run
import Retrace.Text.Lines

/-!
# The command

The command takes the name of one program file, runs the program, and adds the counts of the run to
a log.  It is described here without touching any file: how a file is read is given, and the
outcome says what was printed, how the command ended and what is to be added to the log.

* `run`: the outcome for the arguments of the command.
* `Outcome.logText?`, `countLines`: what the log holds then.
-/

set_option autoImplicit false
namespace Retrace
namespace Command

/-- The ending of the names of program files. -/
def extension : String := ".ul"

/-- The file that collects the counts of all runs. -/
def logFile : String := "execution_log.txt"

/-- How the command ended: an exit code or a fault, what was printed, and the counts for the log if
a program was carried out. -/
structure Outcome where
  result : Except Fault Nat
  stdout : String := ""
  counts? : Option (List String) := none
deriving Inhabited

/-- The outcome for the text of a program. -/
def perform (text : String) : Outcome :=
  match Run.source (Text.Lines.unified text) with
  | .error (_, e) => { result := .error e }
  | .ok report =>
    { result := match report.fault? with
        | none => .ok 0
        | some e => .error e
      stdout := report.final.output
      counts? := some (Run.counts report.final) }

/-- The outcome of the command for its arguments, given how files are read. -/
def run (read : String → Except Fault String) : List String → Outcome
  | [name] =>
    if name.endsWith extension then
      match read name with
      | .error e => { result := .error e }
      | .ok text => perform text
    else { result := .ok 1, stdout := "Error: The file must have a .ul extension\n" }
  | _ => { result := .ok 1, stdout := "Usage: ulto <filename>.ul\n" }

/-! ## The log -/

/-- What is added to the log for a run: a heading, the counts, and an empty line. -/
def record (counts : List String) : String :=
  "Execution Details:\n" ++ String.join (counts.map (· ++ "\n")) ++ "\n"

/-- The log after the command, given the log before it; there need not be one. -/
def Outcome.logText? (outcome : Outcome) (before? : Option String) : Option String :=
  match outcome.counts? with
  | none => before?
  | some counts => some (before?.getD "" ++ record counts)

/-- The lines of a log that hold counts. -/
def countLines (log : String) : List String :=
  ((Text.Lines.unified log).splitOn "\n").filter fun line =>
    line.startsWith "Assignments" || line.startsWith "Evaluations" || line.startsWith "Reversals"

end Command
end Retrace
