import Retrace.Fault

/-!
# Reading a list of tokens

A parser reads tokens from the front of a list.  Its state is the list of tokens that are still to
be read, the current one first, and it keeps that state also when it stops with a fault, so that
one can see how far it came.

* `Parse α`: a parser for an `α`.
* `current?`, `kind`, `nextKind`, `sees`: looking at what comes.
* `advance`, `take`: going on.
* `position`: how many tokens of the whole list have been looked at.
-/

set_option autoImplicit false
namespace Retrace
namespace Grammar

/-- A parser: it turns the tokens that are still to be read into a result and the tokens that
remain. -/
abbrev Parse := EStateM Fault (List Token)

/-- The token that is to be read next. -/
def current? : Parse (Option Token) := do
  return (← get).head?

/-- The token after the current one. -/
def next? : Parse (Option Token) := do
  return (← get).tail.head?

/-- The kind of a token that has to be there. -/
def kindOf : Option Token → Parse Kind
  | some t => return t.kind
  | none => throw (.notSubscriptable Tree.none.typeName)

/-- The kind of the current token; a fault if there is none. -/
def kind : Parse Kind := do
  kindOf (← current?)

/-- The kind of the token after the current one; a fault if there is none. -/
def nextKind : Parse Kind := do
  kindOf (← next?)

/-- Is there a current token, of kind `k`? -/
def sees (k : Kind) : Parse Bool := do
  match ← current? with
  | some t => return t.kind == k
  | none => return false

/-- Goes on to the next token; at the end nothing changes. -/
def advance : Parse Unit :=
  modify List.tail

/-- The current token cannot stand where it does. -/
def unexpected {α : Type} : Parse α := do
  throw (.unexpected (← current?))

/-- Takes a token of kind `k` and gives its content. -/
def take (k : Kind) : Parse Tree := do
  match ← current? with
  | some t =>
    if t.kind == k then
      advance
      return t.content
    else unexpected
  | none => unexpected

/-- How many of the `total` tokens have been looked at when `rest` is still to be read: those
before the current one, and the current one. -/
def position (total : Nat) (rest : List Token) : Nat :=
  if rest.isEmpty then total else total - rest.length + 1

end Grammar
end Retrace
