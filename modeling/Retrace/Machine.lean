import Retrace.Clock
import Retrace.History
import Retrace.Memory
import Retrace.Name.Order
import Retrace.Profile

/-!
# Machines

A machine runs a program.  Its variables are bound to values, among them thunks: computations that
have been put off.  A thunk is kept in the heap under a number, so that all variables and all
entries of the history that hold it see its value once it has been worked out.  In the same way all
that hold a list see it grow.

* `Thunk`: a computation that was put off.
* `Value.size`: the bytes that are charged for a value.
* `Piece`: a piece of the output.
* `Machine`: the state of a running program.
* `Exec α`: a step of a machine, which keeps its state also when it stops with a fault.
* `bind`, `suspend`, `remember`, …: the single changes of the state.
-/

set_option autoImplicit false
namespace Retrace

/-- A computation that was put off, and its value once it has one. -/
structure Thunk where
  expression : Tree
  value? : Option Value := none
deriving Inhabited, Repr

/-! ## Sizes -/

/-- The bytes of a text: a fixed part, and one, two or four bytes for each code point, after the
largest one. -/
def textSize (s : Text) : Nat :=
  let largest := match s with
    | .plain t => if t.utf8ByteSize = t.length then 0 else t.foldl (fun n c => max n c.toNat) 0
    | .mixed ps => ps.foldl max 0
  if largest < 0x80 then 49 + s.length
  else if largest < 0x100 then 73 + s.length
  else if largest < 0x10000 then 74 + 2 * s.length
  else 76 + 4 * s.length

/-- The bytes of a number: a fixed part, and four bytes for each thirty bits. -/
def numberSize (n : Int) : Nat :=
  if n = 0 then 24 else 24 + 4 * (n.natAbs.log2 / 30 + 1)

/-- The bytes of a value; those of the items of a list are not counted. -/
def Value.size (l : Lists) : Value → Nat
  | .none => 16
  | .bool b => numberSize (if b then 1 else 0)
  | .int n => numberSize n
  | .float _ => 24
  | .text s => textSize s
  | .list id items => 56 + 8 * (l.contents id items).length
  | .tuple items => 40 + 8 * items.length
  | .thunk _ => 48

/-! ## The state of a running program -/

/-- What writes on the output: `print` statements, `revtrace` statements, and the machine itself. -/
inductive Writer where
  | print
  | revtrace
  | machine
deriving DecidableEq, Inhabited, Repr

/-- A piece of the output, and what has written it. -/
structure Piece where
  writer : Writer
  text : String
deriving Inhabited, Repr

/-- A machine. -/
structure Machine where
  bindings : Table Name Value := Table.empty
  heap : Array Thunk := #[]
  lists : Lists := {}
  history : History Value := {}
  /-- Plain assignments that were carried out. -/
  assignments : Nat := 0
  /-- Expressions that were evaluated. -/
  evaluations : Nat := 0
  /-- Reversals that were carried out. -/
  reversals : Nat := 0
  memory : Account := { limit := 0x3200000 }
  /-- The bytes that are charged for a value. -/
  size : Lists → Value → Nat := Value.size
  profile : Profile := {}
  clock : Clock := {}
  /-- Everything that was written, the latest first. -/
  pieces : List Piece := []
deriving Inhabited

namespace Machine

/-- A new machine with the given clock, which is read once. -/
def new (clock : Clock) : Machine :=
  let (now, clock) := clock.read
  { clock, history := { lastPruned := now } }

/-- Is a name eager?  Only texts are. -/
def isEager (m : Machine) (name : Name) : Bool :=
  match name.text? with
  | some s => m.profile.eager.contains s
  | none => false

/-- What a name is bound to, if it is bound to something. -/
def lookup (m : Machine) (name : Name) : Option Value :=
  m.bindings.get? name

/-- The output. -/
def output (m : Machine) : String :=
  m.pieces.foldr (fun piece out => out ++ piece.text) ""

/-- The lines that `print` statements have written, the latest first. -/
def printed (m : Machine) : List String :=
  (m.pieces.filter (·.writer = .print)).map Piece.text

end Machine

/-- A step of a machine. -/
abbrev Exec := EStateM Fault Machine

namespace Exec

/-- Goes on with a result that may be a fault. -/
def ofExcept {α : Type} : Except Fault α → Exec α
  | .ok a => return a
  | .error e => throw e

/-- A step that cannot be carried out. -/
def fail {α : Type} (cause : ExecFault) : Exec α :=
  throw (.exec cause)

/-! ## Single changes -/

/-- Counts an evaluation. -/
def countEvaluation : Exec Unit :=
  modify fun m => { m with evaluations := m.evaluations + 1 }

/-- Counts an assignment. -/
def countAssignment : Exec Unit :=
  modify fun m => { m with assignments := m.assignments + 1 }

/-- Counts a reversal. -/
def countReversal : Exec Unit :=
  modify fun m => { m with reversals := m.reversals + 1 }

/-- Writes a text on the output. -/
def put (writer : Writer) (s : String) : Exec Unit :=
  modify fun m => { m with pieces := ⟨writer, s⟩ :: m.pieces }

/-- Binds a name, which must be comparable with those that are bound. -/
def bind (name : Name) (v : Value) : Exec Unit := do
  ofExcept (Name.findPlace (← get).bindings name)
  modify fun m => { m with bindings := m.bindings.insert name v }

/-- The number for a new list. -/
def newId : Exec Nat := do
  let id := (← get).lists.next
  modify fun m => { m with lists := { m.lists with next := id + 1 } }
  return id

/-- A new list. -/
def newList (items : List Value) : Exec Value := do
  return .list (← newId) items

/-- The value that a tree stands for. -/
def load (t : Tree) : Exec Value := do
  let (v, next) := Value.ofTree t (← get).lists.next
  modify fun m => { m with lists := { m.lists with next } }
  return v

/-- What a value looks like now. -/
def view (v : Value) : Exec View := do
  return (← get).lists.view v

/-- Does a condition with this value hold? -/
def isTruthy (v : Value) : Exec Bool := do
  return (← get).lists.isTruthy v

/-- A value as text on its own. -/
def shown (v : Value) : Exec String := do
  let s ← ofExcept (← view v).shown
  return s.display

/-- Puts off the computation of an expression. -/
def suspend (e : Tree) : Exec Value := do
  let id := (← get).heap.size
  modify fun m => { m with heap := m.heap.push { expression := e } }
  return .thunk id

/-- Enters the value of a thunk. -/
def settle (id : Nat) (v : Value) : Exec Unit :=
  modify fun m => { m with heap := m.heap.modify id fun t => { t with value? := some v } }

/-- Reads the clock. -/
def readClock : Exec Int := do
  let (now, clock) := (← get).clock.read
  modify fun m => { m with clock }
  return now

/-- Remembers what a name was bound to. -/
def remember (name : Name) (old : Value) : Exec Unit := do
  let now ← readClock
  modify fun m => { m with history := m.history.push name old now }

/-- Takes back what a name was last bound to. -/
def takeBack (name : Name) : Exec (Option Value) := do
  let (old, history) := (← get).history.pop name
  modify fun m => { m with history }
  return old

/-- Charges the memory account for a value. -/
def charge (v : Value) : Exec Unit := do
  let m ← get
  let memory ← ofExcept (m.memory.charge (m.size m.lists v))
  modify fun m => { m with memory }

/-- Credits the memory account for a value. -/
def credit (v : Value) : Exec Unit :=
  modify fun m => { m with memory := m.memory.credit (m.size m.lists v) }

end Exec
end Retrace
