import Retrace.Grammar.Expression

/-!
# Statements and programs

A block stands between braces, or is indented, or, on the line of its loop or condition, goes on
until an `elif`, an `else` or the end.  Statements may start with a name only if an assignment
follows it; inside a block, a name before a parenthesis is read as an expression, and a name
before anything else is read as no statement at all, without being taken.  A block that comes to
such a name therefore never ends, and the bound on the depth of calls runs out.

That bound is taken from the number of tokens, and is reached in this one case only; apart from it
brackets and blocks may nest without limit.  A reader on the stack of a host gives up at some depth
of its own, as the one for evaluations does.

* `statement`, `block`: a statement of a block, and a block.
* `program`: the statements of a whole program.
* `parse`: the program of a list of tokens.
-/

set_option autoImplicit false
namespace Retrace
namespace Grammar

/-! ## Statements without blocks -/

/-- `name = e`, `name += e` and the like. -/
def assignment (fuel : Nat) : Parse Tree := do
  let name ← take .name
  let k ← kind
  if k == .assign then
    advance
    return .assign name (← expression fuel)
  else match k.compound? with
    | some op =>
      advance
      return .compound op name (← expression fuel)
    | none => unexpected

/-- `rev name` -/
def reverse : Parse Tree := do
  let _ ← take .revWord
  return .reverse (← take .name)

/-- `revtrace name e` -/
def revtrace (fuel : Nat) : Parse Tree := do
  let _ ← take .revtraceWord
  let name ← take .name
  return .revtrace name (← expression fuel)

/-- `break` -/
def breakLoop : Parse Tree := do
  let _ ← take .breakWord
  return .breakLoop

/-- Further arguments, each after a comma. -/
def arguments : Nat → Parse (List Tree)
  | 0 => throw .outOfFuel
  | fuel + 1 => do
    if (← kind) == .comma then
      advance
      let e ← expression fuel
      return e :: (← arguments fuel)
    else return []

/-- `print(e, …)` -/
def print (fuel : Nat) : Parse Tree := do
  let _ ← take .printWord
  let _ ← take .lparen
  let first ← expression fuel
  let rest ← arguments fuel
  let _ ← take .rparen
  return .print (first :: rest)

/-! ## Conditions and ranges -/

/-- The rest of a condition: further expressions, each after an `and` or an `or`. -/
def conditionRest : Nat → Tree → Parse Tree
  | 0, _ => throw .outOfFuel
  | fuel + 1, left => do
    let k := (← current?).map Token.kind
    if k == some .andWord || k == some .orWord then
      advance
      let right ← expression fuel
      conditionRest fuel (.binary left ((k.bind Kind.operator?).getD "") right)
    else return left

/-- The condition of an `if`. -/
def condition (fuel : Nat) : Parse Tree := do
  conditionRest fuel (← expression fuel)

/-- The lower end of a range that is given by its upper end alone. -/
def implicitStart : Tree :=
  .tuple [.text "NUMBER", .int 0]

/-- `range(stop)`, `range(start, stop)` or `range(start, stop, step)` -/
def range (fuel : Nat) : Parse Tree := do
  let _ ← take .rangeWord
  let _ ← take .lparen
  let first ← expression fuel
  if (← kind) == .comma then
    advance
    let second ← expression fuel
    if (← kind) == .comma then
      advance
      let third ← expression fuel
      let _ ← take .rparen
      return .range first second third
    else
      let _ ← take .rparen
      return .range first second .none
  else
    let _ ← take .rparen
    return .range implicitStart first .none

/-- What a `for` loop goes through. -/
def iterable (fuel : Nat) : Parse Tree := do
  match ← kind with
  | .lbracket => value fuel
  | .rangeWord => range fuel
  | _ => expression fuel

/-! ## Blocks -/

mutual

/-- One statement of a block.  A name that starts no statement gives `Tree.none` and is not
taken. -/
def statement : Nat → Parse Tree
  | 0 => throw .outOfFuel
  | fuel + 1 => do
    match ← kind with
    | .name =>
      let k ← nextKind
      if k.isAssignment then assignment fuel
      else if k == .lparen then expression fuel
      else return .none
    | .lbracket => value fuel
    | .revWord => if (← nextKind) == .name then reverse else unexpected
    | .revtraceWord => revtrace fuel
    | .ifWord => branch fuel
    | .forWord => forLoop fuel
    | .whileWord => whileLoop fuel
    | .printWord => print fuel
    | .breakWord => breakLoop
    | _ => unexpected

/-- The statements up to a token of one of the kinds `stops`, or to the end of the tokens. -/
def statements (stops : List Kind) : Nat → Parse (List Tree)
  | 0 => throw .outOfFuel
  | fuel + 1 => do
    match ← current? with
    | none => return []
    | some t =>
      if stops.contains t.kind then return []
      else
        let first ← statement fuel
        if ← sees .newline then advance
        return first :: (← statements stops fuel)

/-- A block: between braces, indented, or on the same line. -/
def block : Nat → Parse (List Tree)
  | 0 => throw .outOfFuel
  | fuel + 1 => do
    match ← kind with
    | .lbrace =>
      advance
      let body ← statements [.rbrace] fuel
      let _ ← take .rbrace
      return body
    | .indent =>
      advance
      let body ← statements [.dedent] fuel
      let _ ← take .dedent
      return body
    | _ => statements [.elifWord, .elseWord, .newline] fuel

/-- An `if` with all its branches. -/
def branch : Nat → Parse Tree
  | 0 => throw .outOfFuel
  | fuel + 1 => do
    let _ ← take .ifWord
    let test ← condition fuel
    let _ ← take .colon
    let yes ← block fuel
    let elifs ← elifBranches fuel
    if ← sees .elseWord then
      advance
      let _ ← take .colon
      return .branch test yes elifs (← block fuel)
    else return .branch test yes elifs []

/-- The `elif` branches of an `if`. -/
def elifBranches : Nat → Parse (List Tree)
  | 0 => throw .outOfFuel
  | fuel + 1 => do
    if ← sees .elifWord then
      advance
      let test ← expression fuel
      let _ ← take .colon
      let body ← block fuel
      return .tuple [test, .list body] :: (← elifBranches fuel)
    else return []

/-- A `for` loop. -/
def forLoop : Nat → Parse Tree
  | 0 => throw .outOfFuel
  | fuel + 1 => do
    let _ ← take .forWord
    let name ← take .name
    let _ ← take .inWord
    let source ← iterable fuel
    let _ ← take .colon
    return .forLoop name source (← block fuel)

/-- A `while` loop.  A block in braces may follow its condition without a colon. -/
def whileLoop : Nat → Parse Tree
  | 0 => throw .outOfFuel
  | fuel + 1 => do
    let _ ← take .whileWord
    let test ← expression fuel
    match ← kind with
    | .colon =>
      advance
      return .whileLoop test (← block fuel)
    | .lbrace => return .whileLoop test (← block fuel)
    | _ => unexpected

end

/-! ## Programs -/

/-- The statements of a program.  An indented block at this level adds its statements to those
of the program. -/
def program : Nat → Parse (List Tree)
  | 0 => throw .outOfFuel
  | fuel + 1 => do
    match ← current? with
    | none => return []
    | some t =>
      match t.kind with
      | .indent =>
        advance
        let body ← block fuel
        let _ ← take .dedent
        return body ++ (← program fuel)
      | .name =>
        if (← nextKind).isAssignment then
          let first ← assignment fuel
          return first :: (← program fuel)
        else unexpected
      | .revWord =>
        let first ← reverse
        return first :: (← program fuel)
      | .revtraceWord =>
        let first ← revtrace fuel
        return first :: (← program fuel)
      | .ifWord =>
        let first ← branch fuel
        return first :: (← program fuel)
      | .forWord =>
        let first ← forLoop fuel
        return first :: (← program fuel)
      | .whileWord =>
        let first ← whileLoop fuel
        return first :: (← program fuel)
      | .printWord =>
        let first ← print fuel
        return first :: (← program fuel)
      | _ => unexpected

/-- Runs a parser on all tokens of a list, with a bound that suffices for them. -/
def run {α : Type} (p : Nat → Parse α) (tokens : List Token) :
    EStateM.Result Fault (List Token) α :=
  p (enough tokens) tokens

/-- The program of a list of tokens. -/
def parse (tokens : List Token) : Except Fault (List Tree) :=
  match run program tokens with
  | .ok statements _ => .ok statements
  | .error e _ => .error e

end Grammar
end Retrace
