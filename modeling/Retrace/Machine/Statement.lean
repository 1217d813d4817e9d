import Retrace.Machine.Evaluate

/-!
# Carrying out statements

An assignment remembers what the variable was bound to, so that it can be reversed.  Plain
assignments bind an eager name to a value and any other name to a thunk.  Compound assignments are
worked out at once; what they remember is the value, not the thunk.  The variable of a loop is bound
without being remembered.

A statement that meets a `break` answers `false`, and the statements after it are left out up to the
end of the loop that takes it up.

A block may hold any statements, and a loop may go on for ever, so statements are carried out
within a given number of passes: `carryOut n` nests and repeats at most `n` times.

Whoever wants to know when expressions are evaluated and when variables and lists change can have a
run watched.  A watch is told of each of these before it happens; an ordinary run is not watched.

* `Watch`: what is told of evaluations and changes.
* `valueFor`, `wordFor`: what an assignment binds a name to.
* `assign`, `compound`, `reverse`, `revtrace`, `print`: statements without blocks.
* `block`, `iterate`: statements one after the other, and again and again.
* `branch`, `whileLoop`, `forLoop`: statements with blocks.
* `perform`, `carryOut`: any statement, inside of others and on its own.
-/

set_option autoImplicit false
namespace Retrace
namespace Exec

/-! ## Watching -/

/-- What a watch is told of: that a statement is going to evaluate an expression, that a name is
going to be bound, or a list to be extended in its place. -/
inductive Event where
  | evaluation (e : Tree)
  | binding (name : Name) (v : Value)
  | extension (id : Nat)

/-- A watch is told of each event before it happens, and may stop the run with a fault. -/
abbrev Watch := Event → Exec Unit

/-- Watches nothing. -/
def unwatched : Watch := fun _ => return ()

/-- Evaluates an expression under watch. -/
def evaluateWatched (watch : Watch) (e : Tree) : Exec Value := do
  watch (.evaluation e)
  evaluate e

/-- Binds a name under watch. -/
def bindWatched (watch : Watch) (name : Name) (v : Value) : Exec Unit := do
  watch (.binding name v)
  bind name v

/-! ## Assignments -/

/-- Binds a name in place of what it was bound to, which is remembered and no longer charged for. -/
def replace (watch : Watch) (name : Name) (new : Value) : Exec Unit := do
  let old := ((← get).lookup name).getD .none
  charge new
  if !old.isNone then credit old
  remember name old
  bindWatched watch name new

/-- What a name is bound to by an assignment: the value of the expression if the name is eager, and
a thunk otherwise. -/
def valueFor (watch : Watch) (name : Name) (e : Tree) : Exec Value := do
  if (← get).isEager name then evaluateWatched watch e else suspend e

/-- `name = value` -/
def assign (watch : Watch) (t : Tree) : Exec Unit := do
  countAssignment
  let (_, target, e) ← ofExcept t.unpack3
  let name ← ofExcept (Name.ofTree target)
  let new ← valueFor watch name e
  replace watch name new

/-- What a name is bound to by a compound assignment: the result, or a thunk that has nothing to do
but to give it. -/
def wordFor (name : Name) (result : Int) : Exec Value := do
  if (← get).isEager name then return .int result else suspend (.int result)

/-- `name += value` and the like. -/
def compound (watch : Watch) (op : Compound) (t : Tree) : Exec Unit := do
  let (_, target, e) ← ofExcept t.unpack3
  let name ← ofExcept (Name.ofTree target)
  let current ← valueOfName name
  let operand ← resolve force (← evaluateWatched watch e)
  remember name current
  match current.whole? with
  | none => throw (.notAnInteger current.typeName)
  | some a =>
    match operand.whole? with
    | none => throw .wrongOperand
    | some b =>
      let new ← wordFor name (op.onWords a b)
      bindWatched watch name new

/-! ## Reversals -/

/-- Binds a name to a former value, unless that is nothing. -/
def putBack (watch : Watch) (name : Name) (old : Value) : Exec Unit := do
  if !old.isNone then
    bindWatched watch name old
    credit old
    charge old

/-- `rev name` -/
def reverse (watch : Watch) (t : Tree) : Exec Unit := do
  countReversal
  let (_, target) ← ofExcept t.unpack2
  let name ← ofExcept (Name.ofTree target)
  (← takeBack name).forM (putBack watch name)

/-- `revtrace name position` -/
def revtrace (watch : Watch) (t : Tree) : Exec Unit := do
  let (_, target, e) ← ofExcept t.unpack3
  let position ← evaluateWatched watch e
  let name ← ofExcept (Name.ofTree target)
  let old ← ofExcept ((← get).history.peekAt name (← view position))
  match old.filter fun v => !v.isNone with
  | some v =>
    put .revtrace ("Reverse Tracepath state " ++ (← shown position) ++ " of " ++ target.shown ++
      ": " ++ (← shown v) ++ "\n")
  | none =>
    put .revtrace ("No state found for " ++ target.shown ++ " at index " ++ (← shown position) ++
      "\n")

/-! ## Printing -/

/-- A value as it is printed: a literal loses its quotes or backticks. -/
def printed : Value → Exec String
  | .text s => return (if s.isBetween '"' || s.isBetween '`' then s.inner else s).display
  | v => shown v

/-- The values of expressions as they are printed, each before the next one is evaluated. -/
def printedAll (watch : Watch) : List Tree → Exec (List String)
  | [] => return []
  | e :: rest => do
    let v ← evaluateWatched watch e
    let s ← printed v
    let more ← printedAll watch rest
    return s :: more

/-- `print(values)` -/
def print (watch : Watch) (t : Tree) : Exec Unit := do
  let (_, values) ← ofExcept t.unpack2
  let texts ← printedAll watch (← ofExcept values.items)
  put .print (" ".intercalate texts ++ "\n")

/-! ## Blocks -/

/-- Statements one after the other, up to a `break`, given how one is carried out; was there
none? -/
def inOrder (run : Tree → Exec Bool) : List Tree → Exec Bool
  | [] => return true
  | t :: rest => do
    if ← run t then inOrder run rest else return false

/-- The statements of a block. -/
def block (run : Tree → Exec Bool) (body : Tree) : Exec Bool := do
  inOrder run (← ofExcept body.items)

/-- The block of the first `elif` branch whose condition holds, or the last block. -/
def chooseElif (watch : Watch) (no : Tree) : List Tree → Exec Tree
  | [] => return no
  | x :: rest => do
    let (condition, body) ← ofExcept x.unpack2
    if ← isTruthy (← evaluateWatched watch condition) then return body
    else chooseElif watch no rest

/-- `if`, with its `elif` branches and its `else`. -/
def branch (watch : Watch) (run : Tree → Exec Bool) (t : Tree) : Exec Bool := do
  let (_, condition, yes, elifs, no) ← ofExcept t.unpack5
  if ← isTruthy (← evaluateWatched watch condition) then block run yes
  else
    let chosen ← chooseElif watch no (← ofExcept elifs.items)
    block run chosen

/-! ## Loops -/

/-- Repeats a pass at most `n` times.  A pass answers what to go on with, or what the loop answers
in the end. -/
def iterate {σ : Type} (pass : σ → Exec (σ ⊕ Bool)) : Nat → σ → Exec Bool
  | 0, _ => throw .outOfFuel
  | n + 1, s => do
    match ← pass s with
    | .inl s => iterate pass n s
    | .inr b => return b

/-- Goes on unless there was a `break`, which ends the loop and is taken up by it. -/
def goOn {σ : Type} (s : σ) (b : Bool) : σ ⊕ Bool :=
  if b then .inl s else .inr true

/-- A loop that evaluates its condition before each pass. -/
def plainLoop (watch : Watch) (run : Tree → Exec Bool) (n : Nat) (condition body : Tree) :
    Exec Bool :=
  iterate (fun (_ : Unit) => do
    if ← isTruthy (← evaluateWatched watch condition) then
      return goOn () (← block run body)
    else return .inr true) n ()

/-- Is a value less than another one? -/
def isLess (u v : Value) : Exec Bool := do
  ofExcept ((← view u).order .lt (← view v))

/-- Adds one to what a counter is bound to, which is evaluated as if it were an expression. -/
def increment (watch : Watch) (counter : Tree) : Exec Unit := do
  let name ← ofExcept (Name.ofTree counter)
  let e := (← view (((← get).lookup name).getD .none)).toTree
  let v ← evaluateWatched watch e
  let l := (← get).lists
  bindWatched watch name (← ofExcept (v.add l l.next (.int 1)))

/-- A loop that runs as long as a counter is less than a number.  The counter goes up by one after
each pass; a `break` ends the loop, but is not taken up by it. -/
def countingLoop (watch : Watch) (run : Tree → Exec Bool) (n : Nat) (counter stop body : Tree) :
    Exec Bool := do
  let last ← evaluateWatched watch stop
  iterate (fun (_ : Unit) => do
    let v ← evaluateWatched watch counter
    if ← isLess v last then
      if ← block run body then
        increment watch counter
        return .inl ()
      else return .inr false
    else return .inr true) n ()

/-- `while`.  A condition that compares with a number is that of a counting loop. -/
def whileLoop (watch : Watch) (run : Tree → Exec Bool) (n : Nat) (t : Tree) : Exec Bool := do
  let (_, condition, body) ← ofExcept t.unpack3
  match condition with
  | .tuple [counter, op, stop] =>
    if op.isText "lt" && stop.whole?.isSome then countingLoop watch run n counter stop body
    else plainLoop watch run n condition body
  | _ => plainLoop watch run n condition body

/-- One pass of a `for` loop: binds the variable and carries out the block. -/
def forPass (watch : Watch) (run : Tree → Exec Bool) (target body : Tree) (v : Value) :
    Exec Bool := do
  bindWatched watch (← ofExcept (Name.ofTree target)) v
  block run body

/-- Tells a watch that a value is going to be extended, if it is a list. -/
def watchExtension (watch : Watch) : Value → Exec Unit
  | .list id _ => watch (.extension id)
  | _ => return ()

/-- Goes on from a value of a counting loop to the next one. -/
def advance (watch : Watch) (v stride : Value) : Exec Value := do
  watchExtension watch v
  let (v, lists) ← ofExcept (v.advance (← get).lists stride)
  modify fun m => { m with lists }
  return v

/-- The value of the step of a counting loop, which is one if there is none. -/
def strideOf (watch : Watch) (step : Tree) : Exec Value :=
  if step.isTruthy then evaluateWatched watch step else return .int 1

/-- A `for` loop over numbers.  Start, stop and step are evaluated once. -/
def rangeLoop (watch : Watch) (run : Tree → Exec Bool) (n : Nat) (target range body : Tree) :
    Exec Bool := do
  let (_, start, stop, step) ← ofExcept range.unpack4
  let first ← evaluateWatched watch start
  let last ← evaluateWatched watch stop
  let stride ← strideOf watch step
  iterate (fun v => do
    if ← isLess v last then
      if ← forPass watch run target body v then return .inl (← advance watch v stride)
      else return .inr true
    else return .inr true) n first

/-- A `for` loop over values, up to a `break`; was there none? -/
def eachLoop (watch : Watch) (run : Tree → Exec Bool) (target body : Tree) :
    List Value → Exec Bool
  | [] => return true
  | v :: rest => do
    if ← forPass watch run target body v then eachLoop watch run target body rest
    else return false

/-- A `for` loop over the items that a list is extended by, those among them that come up while the
loop is running. -/
def laterLoop (watch : Watch) (run : Tree → Exec Bool) (n : Nat) (target body : Tree) (id : Nat) :
    Exec Bool :=
  iterate (fun (k : Nat) => do
    match ((← get).lists.addedTo id)[k]? with
    | some v => return goOn (k + 1) (← forPass watch run target body v)
    | none => return .inr true) n 0

/-- A `for` loop over the items of a value. -/
def itemLoop (watch : Watch) (run : Tree → Exec Bool) (n : Nat) (target source body : Tree) :
    Value → Exec Bool
  | .list id items => do
    if ← eachLoop watch run target body items then laterLoop watch run n target body id
    else return true
  | .text s => do
    let _ ← eachLoop watch run target body (s.letters.map .text)
    return true
  | _ => fail (.notIterable source)

/-- `for`, over numbers or over values. -/
def forLoop (watch : Watch) (run : Tree → Exec Bool) (n : Nat) (t : Tree) : Exec Bool := do
  let (_, target, source, body) ← ofExcept t.unpack4
  if (← ofExcept source.head).isText "range" then rangeLoop watch run n target source body
  else
    match source with
    | .list xs =>
      let _ ← eachLoop watch run target body (← xs.mapM (evaluateWatched watch))
      return true
    | t => itemLoop watch run n target source body (← evaluateWatched watch t)

/-! ## Statements of all forms -/

/-- A statement without blocks, which meets no `break`. -/
def simply (x : Exec Unit) : Exec Bool := do
  x
  return true

/-- A statement, given how those inside of it are carried out and how often a loop may be
repeated. -/
def statement (watch : Watch) (run : Tree → Exec Bool) (n : Nat) (t : Tree) : Exec Bool := do
  let tag ← ofExcept t.head
  match Form.ofTree? tag with
  | some .assign => simply (assign watch t)
  | some (.compound op) => simply (compound watch op t)
  | some .reverse => simply (reverse watch t)
  | some .revtrace => simply (revtrace watch t)
  | some .branch => branch watch run t
  | some .forLoop => forLoop watch run n t
  | some .whileLoop => whileLoop watch run n t
  | some .print => simply (print watch t)
  | some .breakLoop => return false
  | _ => fail (.unknownForm tag)

/-- Carries out a statement under watch, with at most `n` statements inside of each other and at
most `n` passes of each loop; did it meet no `break` that it left to others? -/
def perform (watch : Watch) : Nat → Tree → Exec Bool
  | 0, _ => throw .outOfFuel
  | n + 1, t => statement watch (perform watch n) n t

/-- Carries out a statement under watch.  A `break` that no loop takes up is a fault. -/
def carryOutWatched (watch : Watch) (n : Nat) (t : Tree) : Exec Unit := do
  if !(← perform watch n t) then throw .breakOutsideLoop

/-- Carries out a statement. -/
def carryOut (n : Nat) (t : Tree) : Exec Unit :=
  carryOutWatched unwatched n t

/-- Carries out the statements of a block from the last one to the first one. -/
def reverseBlock (run : Tree → Exec Unit) (body : Tree) : Exec Unit := do
  countReversal
  (← ofExcept body.reversed).forM run

/-! ## Keeping the history short -/

/-- The bytes of a name. -/
def nameSize (name : Name) : Nat :=
  textSize (.plain (name.text?.getD ""))

/-- The bytes of the history: those of the names and of the former values.  A host adds the bytes of
the table itself, which depend on how it lays tables out.  They are left out, so a warning may come
later here, by as much as that. -/
def footprint (size : Value → Nat) (h : History Value) : Nat :=
  h.changes.entries.foldl (fun n (name, changes) =>
    changes.foldl (fun n change => n + size change.old) (n + nameSize name)) 0

/-- The bytes that a history may have before there is a warning. -/
def footprintLimit : Nat := 50 * 1024 * 1024

/-- Forgets old changes, and warns if the history is large even so. -/
def prune : Exec Unit := do
  let now ← readClock
  modify fun m => { m with history := m.history.prune History.retention now }
  let m ← get
  if footprintLimit < footprint (m.size m.lists) m.history then
    put .machine "Warning: Memory usage exceeded 50 MB\n"

end Exec
end Retrace
