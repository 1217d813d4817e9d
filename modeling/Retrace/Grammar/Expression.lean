import Retrace.Grammar.Cursor

/-!
# Expressions

An expression is a chain of primaries joined by operators.  All operators bind alike and a chain
groups to the left, so `a + b * c` is `(a + b) * c`.  A `len(…)` at the start of an expression is
the whole of it; in any other place it is a primary.

Every function takes a bound on the depth of its calls first.  `enough` gives a bound that a list
of tokens never uses up.

* `value`: a literal, a name, or a list of values in brackets.
* `primary`: a value, an expression in parentheses, a length or an item of a list.
* `expression`: a chain of primaries.
-/

set_option autoImplicit false
namespace Retrace
namespace Grammar

/-- A number of nested calls that suffices for the given tokens: no more than eight are spent on
one token. -/
def enough (tokens : List Token) : Nat :=
  8 * (tokens.length + 2)

mutual

/-- A literal, a name, or a list of values in brackets. -/
def value : Nat → Parse Tree
  | 0 => throw .outOfFuel
  | fuel + 1 => do
    match ← current? with
    | none => throw .endOfTokens
    | some t =>
      match t.kind with
      | .lbracket =>
        advance
        return .list (← values fuel)
      | .number => take .number
      | .name => take .name
      | .string => take .string
      | .trueWord =>
        advance
        return .bool true
      | .falseWord =>
        advance
        return .bool false
      | _ => unexpected

/-- The values up to a closing bracket, and the bracket.  The comma after a value may be left
out. -/
def values : Nat → Parse (List Tree)
  | 0 => throw .outOfFuel
  | fuel + 1 => do
    match ← current? with
    | none => unexpected
    | some t =>
      if t.kind == .rbracket then
        advance
        return []
      else
        let first ← value fuel
        if (← kind) == .comma then advance
        return first :: (← values fuel)

end

mutual

/-- A value, an expression in parentheses, a length, or an item of a list that has a name. -/
def primary : Nat → Parse Tree
  | 0 => throw .outOfFuel
  | fuel + 1 => do
    match ← kind with
    | .lparen =>
      advance
      let e ← expression fuel
      let _ ← take .rparen
      return e
    | .lenWord =>
      advance
      let _ ← take .lparen
      let e ← expression fuel
      let _ ← take .rparen
      return .length e
    | .name =>
      let name ← take .name
      if ← sees .lbracket then
        advance
        let e ← expression fuel
        let _ ← take .rbracket
        return .index name e
      else return name
    | _ => value fuel

/-- A chain of primaries, or a length. -/
def expression : Nat → Parse Tree
  | 0 => throw .outOfFuel
  | fuel + 1 => do
    match ← kind with
    | .lenWord =>
      advance
      let _ ← take .lparen
      let e ← expression fuel
      let _ ← take .rparen
      return .length e
    | _ =>
      let left ← primary fuel
      chain fuel left

/-- The rest of a chain whose first part is `left`. -/
def chain : Nat → Tree → Parse Tree
  | 0, _ => throw .outOfFuel
  | fuel + 1, left => do
    match (← current?).bind fun t => t.kind.operator? with
    | some op =>
      advance
      let right ← primary fuel
      chain fuel (.binary left op right)
    | none => return left

end
end Grammar
end Retrace
