import Retrace.Command

/-!
# The command line

The program reads the file that its argument names, lets `Command.run` say what is to happen, and
does it: it prints, extends the log of past runs, and reports a fault on the error stream.
-/

set_option autoImplicit false
namespace Retrace
namespace Command

/-- The text of a file, if it can be read. -/
def readFile (name : String) : IO (Except Fault String) := do
  try
    return .ok (← IO.FS.readFile name)
  catch _ => return .error (.missingFile name)

/-- Add the counts of one run to the log. -/
def extendLog (counts : List String) : IO Unit :=
  IO.FS.withFile logFile .append fun handle => handle.putStr (record counts)

/-- Do what an outcome says, and give the exit code. -/
def Outcome.act (outcome : Outcome) : IO UInt32 := do
  IO.print outcome.stdout
  outcome.counts?.forM extendLog
  match outcome.result with
  | .ok code => return code.toUInt32
  | .error fault =>
    IO.eprintln fault.message
    return 1

end Command
end Retrace

/-- Run the program file that the only argument names. -/
def main (args : List String) : IO UInt32 := do
  let text ← Retrace.Command.readFile (args.headD "")
  (Retrace.Command.run (fun _ => text) args).act
