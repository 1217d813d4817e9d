import Retrace.Command
import Retrace.Installation
import Retrace.Site.Route

/-!
# Workloads

Programs of any wanted length that go through one part of the implementation each, together with
what they come to.  They are meant to be timed; what they compute does not depend on the time.

* `Workload`: the workloads, each with its length.
* `Workload.results`: what a workload comes to when it is run several times in a row.
-/

set_option autoImplicit false
namespace Retrace

/-- The workloads.  Each has a length, which may be zero or less. -/
inductive Workload where
  /-- Cutting a program into tokens. -/
  | tokens (lines : Int)
  /-- Reading a program. -/
  | statements (lines : Int)
  /-- Checking a program. -/
  | check (lines : Int)
  /-- Evaluating operations. -/
  | operations (count : Int)
  /-- Carrying out branches and loops. -/
  | loops (passes : Int)
  /-- Counting names. -/
  | profile (count : Int)
  /-- Remembering and recalling values. -/
  | history (pushes : Int)
  /-- Keeping the memory account and working out thunks. -/
  | thunks (steps : Int)
  /-- The command from its arguments to its end. -/
  | command (lines : Int)
  /-- A program that is sent to the site. -/
  | site (lines : Int)
deriving DecidableEq, Inhabited, Repr

namespace Workload

/-! ## Programs -/

/-- A program with a statement of each form. -/
def sample : List String :=
  ["# header comment", "a = 1", "b = 2", "c = a + b", "d = a - b", "e = a * b", "f = b / a",
   "g = b % a", "h = b // a", "flag = True", "other = False", "s = \"hello\"", "t = `world`",
   "lst = [1, 2, 3, 4, 5]", "ll = len(lst)", "idx = lst[0]", "a += 1", "a -= 1", "a *= 2",
   "a /= 2", "if a == 1 and b != 3 or flag:", "    c = c + 1", "else:", "    c = c - 1",
   "for k in range(0, 3, 1):", "    d = d + k", "for m in [10, 20, 30]:", "    e = e + m",
   "for p in lst:", "    f = f + 1", "i = 0", "while i <= 2:", "    i += 1", "    if i >= 10:",
   "        break", "j = 0", "while j <= 1 \x7b j += 1 \x7d",
   "print(a, b, \"done\", (a + b))", "rev a", "revtrace a 1"]

/-- A text with a block that ends before the text does. -/
def indented : String :=
  "if a:\n    b = 1\nrev c\n"

/-- Three lines on a variable of their own. -/
def triple (i : Nat) : List String :=
  let v := "v" ++ toString i
  [v ++ " = " ++ toString i ++ " + " ++ toString (i + 1), v ++ " += 1", "rev " ++ v]

/-- How many groups of `size` lines bring `present` lines to `want` or more. -/
def groups (present want size : Int) : Nat :=
  ((want - present + size - 1) / size).toNat

/-- Lines as a text. -/
def asText (lines : List String) : String :=
  lines.foldl (fun text line => text ++ line ++ "\n") ""

/-- The sample program, with so many lines that there are `lines` of them or more. -/
def program (lines : Int) : String :=
  asText (sample ++ (List.range (groups sample.length lines 3)).flatMap triple)

/-- A shorter program, for the command and the site. -/
def short : List String :=
  ["a = 1", "a = 2", "a = 3", "a = 4", "a = 5", "b = 2", "c = a + b", "d = a * b", "a += 1",
   "a -= 1", "if a > 0:", "    c += 1", "else:", "    c -= 1", "for k in range(0, 3):",
   "    d += 1", "print(a, b, c, d)", "rev a", "revtrace a 1"]

/-- The shorter program, with so many assignments at its end. -/
def shortProgram (lines : Int) : String :=
  asText (short ++ (List.range lines.toNat).map fun i => "x" ++ toString i ++ " = " ++ toString i)

/-! ## Reading and checking -/

/-- How many tokens a program has. -/
def tokenCount (source : String) : Nat :=
  match Token.ofSource source with
  | .ok found => found.length
  | .error _ => 0

/-- The tree of a program. -/
def treeOf (source : String) : List Tree :=
  match Run.read source with
  | .ok program => program
  | .error _ => []

/-- A name in a tree. -/
def name (s : String) : Tree := .text s

/-- Statements beyond those that a program text can have. -/
def unusual : List Tree :=
  let inner := [Tree.assign (name "kk2") (.int 1)]
  [.assign (name "x") (.int 1),
   .assign (name "cf") (.binary (.int 7) "unknown" (.int 2)),
   .assign (name "pair") (.tuple [.int 1, name "neg"]),
   .assign (name "pair") (.tuple [name "x", name "neg"]),
   .assign (name "single") (.tuple [.int 42]),
   .assign (name "lst2") (.list [.int 1, .int 2, .int 3]),
   .forLoop (name "kk") (.list [.int 1, .int 2, name "three"]) inner,
   .forLoop (name "kk") (name "cf") inner,
   .forLoop (name "cf") (.range (.int 0) (.int 3) .none) inner,
   .length (name "lst2"),
   .breakLoop,
   .print [.length (name "lst2"), .list [.int 1, .int 2], name "`tick`", name "\"str\""]]

/-- Statements that the checker objects to. -/
def objectionable : List Tree :=
  let missing := name "missing"
  [.tuple [name "unheard"],
   .compound .plus missing (.int 1),
   .compound .minus missing (.int 1),
   .compound .times missing (.int 1),
   .compound .over missing (.int 1),
   .reverse missing,
   .revtrace missing (.int 1),
   .branch missing [] [] [],
   .whileLoop missing [],
   .forLoop (name "k") missing [],
   .forLoop (name "k") (.list [.none]) [],
   .print [missing],
   .print [.tuple [.int 1]]]

/-- The names that a program declares. -/
def declared (program : List Tree) : Nat :=
  match Check.run program with
  | .ok _ names => names.keys.length
  | .error _ names => names.keys.length

/-- Does the checker object to a statement? -/
def isRejected (t : Tree) : Bool :=
  match Check.run [t] with
  | .ok _ _ => false
  | .error _ _ => true

/-! ## Evaluating -/

/-- Comparisons, one half of which hold. -/
def comparisons : List Tree :=
  (List.range 11).flatMap fun (i : Nat) =>
    [.binary (.int i) Op.lt.tag (.int 11), .binary (.int i) Op.gt.tag (.int 11)]

/-- An operation for each number, with all operators in turn. -/
def operation (i : Nat) : Tree :=
  let op := Op.all.getD (i % Op.all.length) .plus
  .binary (.int (i % 97 + 1)) op.tag (.int (i % 13 + 1))

/-- How many of the expressions have a value that counts as true. -/
def countTrue : List Tree → Exec Nat
  | [] => return 0
  | e :: rest => do
    let v ← Exec.evaluate e
    let holds ← Exec.isTruthy v
    let n ← countTrue rest
    return if holds then n + 1 else n

/-- One run of the operations. -/
def operationsRun (count : Int) : Exec Tree := do
  let n ← countTrue (comparisons ++ (List.range count.toNat).map operation)
  return .tuple [.int n, .int (← get).evaluations]

/-! ## Branches and loops -/

/-- The names that are eager while branches and loops are carried out. -/
def eagerNames : List String :=
  ["i", "j", "k", "acc", "x", "y", "z", "m", "flag"]

/-- Statements with branches and with loops of every form. -/
def loopStatements (n : Int) : List Tree :=
  let more (v : String) (e : Tree) := Tree.compound .plus (name v) e
  let compare (v : String) (op : Op) (e : Tree) := Tree.binary (name v) op.tag e
  [.assign (name "acc") (.int 0), .assign (name "x") (.int 10), .assign (name "y") (.int 3),
   .assign (name "z") (.int 100),
   .assign (name "lst") (.list [.int 1, .int 2, .int 3, .int 4, .int 5]),
   more "x" (.int 1), .compound .times (name "y") (.int 2), .compound .over (name "z") (.int 2),
   .branch (compare "x" .lt (.int 0)) [.assign (name "acc") (.int 99)]
     [.tuple [compare "x" .gt (.int 0),
       .list [.assign (name "acc") (compare "acc" .plus (.int 2))]]]
     [.assign (name "acc") (.int 0)],
   .forLoop (name "k") (.range (.int 0) (.int n) (.int 2)) [more "acc" (.int 1)],
   .forLoop (name "m") (name "lst") [more "acc" (name "m"), .breakLoop],
   .assign (name "i") (.int 0),
   .whileLoop (compare "i" .lt (.int n)) [more "acc" (.int 1)],
   .assign (name "j") (.int 0),
   .whileLoop (compare "j" .lte (.int n))
     [more "j" (.int 1), .branch (compare "j" .gt (.int n)) [.breakLoop] [] []],
   .assign (name "flag") (.bool true),
   .whileLoop (name "flag") [.assign (name "flag") (.bool false), .breakLoop],
   .reverse (name "x"), .revtrace (name "x") (.int 9999),
   .print [name "acc", name "i", name "j"]]

/-- Statements on eager variables, with eight assignments and two reversals. -/
def furtherStatements (n : Int) : List Tree :=
  let sum (v w : String) := Tree.binary (name v) Op.plus.tag (name w)
  let twice (v w : String) := Tree.assign (name v) (.binary (sum v w) Op.plus.tag (sum v w))
  [.forLoop (name "k") (.range (.int 0) (.int n) .none) [.compound .plus (name "acc") (.int 1)],
   twice "x" "y", twice "y" "z", twice "z" "x", twice "x" "y", twice "y" "z",
   .assign (name "i") (sum "x" "y"), .assign (name "j") (sum "y" "z"),
   .assign (name "m") (.int 1),
   .reverse (name "x"), .reverse (name "y"),
   .print [name "x", name "y", name "z"]]

/-- One run of branches and loops. -/
def loopsRun (n : Int) : Exec Tree := do
  (loopStatements n ++ furtherStatements n).forM (Exec.carryOut Run.plenty)
  let m ← get
  return .tuple [.int m.assignments, .int m.evaluations, .int m.reversals]

/-! ## Names, former values and thunks -/

/-- Statements on four names in turn. -/
def profileStatements (count : Int) : List Tree :=
  let plus (v w : Tree) := Tree.binary v Op.plus.tag w
  let compare (v : String) (w : Tree) := Tree.binary (name v) Op.gt.tag w
  let step (i : Nat) : Tree :=
    let v := name (["a", "b", "c", "d"].getD (i % 4) "a")
    .assign v (plus v (.int 1))
  (List.range count.toNat).map step ++
    [.reverse (name "a"), .revtrace (name "a") (.int 1),
     .whileLoop (compare "a" (.int 0)) [.assign (name "c") (.int 1)],
     .print [plus (name "a") (name "b")],
     .branch (compare "a" (name "b")) [.print [compare "a" (name "b")]] [] [.reverse (name "b")]]

/-- How many names are eager, and how often texts were counted. -/
def profileResult (count : Int) : Tree :=
  let p := match Profile.program (profileStatements count) {} with
    | .ok _ p => p
    | .error _ p => p
  .tuple [.int p.eager.length,
    .int (p.counts.entries.foldl (fun n entry => n + entry.2) 0 : Nat)]

/-- Eight names in turn. -/
def turnName (i : Nat) : Name :=
  .ofText ("n" ++ toString (i % 8))

/-- How many of the former values at every second position are there. -/
def hits (h : History Nat) (last : Nat) : Nat :=
  ((List.range 8).flatMap fun i => (List.range (last / 2 + 1)).filter fun (k : Nat) =>
    match h.peek (turnName i) (2 * k : Int) with
    | .ok (some _) => true
    | _ => false).length

/-- Takes back the values of the names in turn, and counts them. -/
def popAll (h : History Nat) : List Nat → Nat
  | [] => 0
  | i :: rest =>
    match h.pop (turnName i) with
    | (some _, h) => popAll h rest + 1
    | (none, h) => popAll h rest

/-- Former values that are looked up, pruned and taken back. -/
def historyResult (pushes : Int) (now : Int) : Tree :=
  let turns := List.range pushes.toNat
  let h := turns.foldl (fun h i => h.push (turnName i) i now) ({ lastPruned := now } : History Nat)
  let found := hits h (pushes.toNat / 8)
  let pruned := History.prune { h with lastPruned := 0 } 0 now
  .tuple [.int (found + popAll pruned turns : Nat)]

/-- Works out thunks twice each and adds up their values. -/
def forceTwice : List Nat → Exec Int
  | [] => return 0
  | i :: rest => do
    let thunk ← Exec.suspend (.binary (.int i) Op.plus.tag (.int (i + 1)))
    let v ← Exec.resolve Exec.force thunk
    let w ← Exec.resolve Exec.force thunk
    let n ← forceTwice rest
    return (v.whole?.getD 0) + (w.whole?.getD 0) + n

/-- Charges an account and credits it again. -/
def chargeAndCredit (memory : Memory) (amount : Number) : Except Fault Memory := do
  let charged ← memory.allocate amount
  charged.deallocate amount

/-- An account of one megabyte that is charged and credited in turn. -/
def account (steps : Nat) : Memory :=
  (List.range steps).foldl (fun memory (i : Nat) =>
    match chargeAndCredit memory (.whole i) with
    | .ok next => next
    | .error _ => memory) (Memory.ofBytes 0x100000)

/-- What is left in an account. -/
def remainder (memory : Memory) : Tree :=
  match memory.remaining with
  | .ok n => Constant.ofNumber n
  | .error _ => .none

/-- What is left in the account, and the sum of the thunks. -/
def thunksResult (steps : Int) : Tree :=
  let sum := match forceTwice (List.range (Int.fdiv steps 20 + 1).toNat) (Machine.new {}) with
    | .ok n _ => n
    | .error _ _ => 0
  .tuple [remainder (account steps.toNat), .int sum]

/-! ## The command and the site -/

/-- A word for how the command ended. -/
def commandWord (outcome : Command.Outcome) : String :=
  match outcome.result with
  | .ok 0 => "ok"
  | .ok _ => if outcome.stdout.startsWith "Usage" then "usage" else "ext"
  | .error _ => "failed"

/-- The command without arguments, with a file of another sort, and with a program; then its
removal. -/
def commandResult (lines : Int) : Tree :=
  let folder : Folder := ⟨⟨[("prog.ul", shortProgram lines)]⟩⟩
  let host : Installation.Host := { system := "posix", existing := [Installation.linkPath] }
  let (commands, removed) :=
    match Installation.remove host (some "pkg") {} with
    | .ok _ c => (c.commands, c.removed)
    | .error _ c => (c.commands, c.removed)
  let words := [[], ["prog.txt"], ["prog.ul"]].map fun arguments =>
    commandWord (Command.run folder.read arguments)
  .tuple [.tuple ((words ++ commands).map .text), .bool !removed.isEmpty]

/-- The status of the answer to a program that is sent. -/
def siteResult (lines : Int) : Tree :=
  .tuple [.int (Site.submit (.program (some (shortProgram lines)))).status]

/-! ## Results -/

/-- Runs a step of a machine several times, with the result of each run. -/
def repeated (step : Exec Tree) : Nat → Machine → List Tree
  | 0, _ => []
  | n + 1, m =>
    match step m with
    | .ok result m => result :: repeated step n m
    | .error _ m => .none :: repeated step n m

/-- A machine that has evaluated one operation. -/
def warmMachine : Machine :=
  match Exec.evaluate (operation 0) (Machine.new {}) with
  | .ok _ m => m
  | .error _ m => m

/-- A machine on which some names are eager. -/
def eagerMachine : Machine :=
  let m := Machine.new {}
  { m with profile := eagerNames.foldl Profile.addEager m.profile }

/-- What a workload comes to when it is run several times in a row, by a clock that stands still. -/
def results (w : Workload) (runs : Nat) (now : Int) : List Tree :=
  match w with
  | .tokens lines => List.replicate runs (.int (tokenCount (program lines) + tokenCount indented))
  | .statements lines => List.replicate runs (.int (treeOf (program lines)).length)
  | .check lines =>
    List.replicate runs (.tuple [.int (declared (treeOf (program lines) ++ unusual)),
      .int (objectionable.countP isRejected)])
  | .operations count => repeated (operationsRun count) runs warmMachine
  | .loops passes => repeated (loopsRun passes) runs eagerMachine
  | .profile count => List.replicate runs (profileResult count)
  | .history pushes => List.replicate runs (historyResult pushes now)
  | .thunks steps => List.replicate runs (thunksResult steps)
  | .command lines => List.replicate runs (commandResult lines)
  | .site lines => List.replicate runs (siteResult lines)

end Workload
end Retrace
