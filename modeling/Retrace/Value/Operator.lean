import Retrace.Number.Word
import Retrace.Sequence
import Retrace.Value.Order
import Retrace.Value.Template

/-!
# Operators on values

An operator on two whole numbers, truth values among them, works on words and gives a word;
relations and connectives give one or zero.  On other operands

* `+` adds numbers and joins two texts, two lists or two tuples,
* `*` multiplies numbers and repeats a text, a list or a tuple,
* `%` fills a text in, or is the remainder of numbers,
* `-`, `/` and `//` take numbers only,
* `==` and `!=` compare values of any sorts, the other relations those of one sort,
* `and` and `or` give one of their operands.

A list that comes about in this way is a new one, and is given a number that is not in use.

* `Op.onWords`: the first case.
* `Op.onValues`: the second one.
* `Op.arithmetic`: what the two have in common with constants, which are worked out exactly.
* `Value.advance`: how a counting loop goes on.
-/

set_option autoImplicit false
namespace Retrace

namespace Value

/-- Values repeated; a negative number counts as zero. -/
def repeatItems (xs : List Value) (n : Int) : List Value :=
  if xs.isEmpty then [] else Nat.repeat (xs ++ ·) n.toNat []

/-- Items repeated, if there is room for so many. -/
def replicateItems (xs : List Value) (n : Int) : Except Fault (List Value) :=
  if Sequence.room ≤ n * xs.length * 8 then .error .outOfMemory else .ok (repeatItems xs n)

/-- A text, a list or a tuple repeated. -/
def replicate (l : Lists) (new : Nat) (v : Value) (n : Int) : Except Fault Value :=
  if !Sequence.inBounds n then .error .hugeRepetition
  else
    match v with
    | .text s =>
      if Sequence.bound ≤ n * s.length then .error .longText
      else if Sequence.room ≤ n * s.length then .error .outOfMemory
      else .ok (.text (s.replicate n.toNat))
    | .list id xs => do return .list new (← replicateItems (l.contents id xs) n)
    | .tuple xs => do return .tuple (← replicateItems xs n)
    | v => .ok v

/-- Can the value be repeated? -/
def isSequence : Value → Bool
  | .text _ => true
  | .list _ _ => true
  | .tuple _ => true
  | _ => false

/-- Two numbers added, or two texts, two lists or two tuples joined. -/
def add (l : Lists) (new : Nat) : Value → Value → Except Fault Value
  | .text s, .text t => .ok (.text (s ++ t))
  | .list i xs, .list j ys => .ok (.list new (l.contents i xs ++ l.contents j ys))
  | .tuple xs, .tuple ys => .ok (.tuple (xs ++ ys))
  | u, v =>
    if u.isSequence then .error (.notConcatenable u.typeName v.typeName)
    else
      match u.number?, v.number? with
      | some a, some b => do return ofNumber (← a.add b)
      | _, _ => .error (.unsupported "+" u.typeName v.typeName)

/-- Two numbers multiplied, or a text, a list or a tuple, on either side, repeated. -/
def multiply (l : Lists) (new : Nat) (u v : Value) : Except Fault Value :=
  if u.isSequence then
    match v.whole? with
    | some n => u.replicate l new n
    | Option.none => .error (.notRepeatable v.typeName)
  else if v.isSequence then
    match u.whole? with
    | some n => v.replicate l new n
    | Option.none => .error (.notRepeatable u.typeName)
  else
    match u.number?, v.number? with
    | some a, some b => do return ofNumber (← a.mul b)
    | _, _ => .error (.unsupported "*" u.typeName v.typeName)

/-- An operation that is on numbers only. -/
def numeric (symbol : String) (operation : Number → Number → Except Fault Number) (u v : Value) :
    Except Fault Value :=
  match u.number?, v.number? with
  | some a, some b => do return ofNumber (← operation a b)
  | _, _ => .error (.unsupported symbol u.typeName v.typeName)

/-- A text filled in, or the remainder of two numbers. -/
def remainder (l : Lists) (u v : Value) : Except Fault Value :=
  match u with
  | .text s => do return .text (← Template.fill s (l.view v))
  | _ => numeric "%" Number.rem u v

end Value

namespace Op

/-- An operator on two whole numbers. -/
def onWords (op : Op) (a b : Int) : Int :=
  match op with
  | .plus => Word.add a b
  | .minus => Word.sub a b
  | .times => Word.mul a b
  | .over => Word.div a b
  | .intDiv => Word.div a b
  | .modulo => Word.rem a b
  | .and => Word.ofBool (Word.wrap a != 0 && Word.wrap b != 0)
  | .or => Word.ofBool (Word.wrap a != 0 || Word.wrap b != 0)
  | relation => Word.ofBool (relation.accepts (compare (Word.wrap a) (Word.wrap b)))

/-- The result of one of the six operators of arithmetic, with numbers of any size; the other
operators have none. -/
def arithmetic? (l : Lists) (new : Nat) (op : Op) (u v : Value) : Option (Except Fault Value) :=
  match op with
  | .plus => some (u.add l new v)
  | .minus => some (Value.numeric "-" Number.sub u v)
  | .times => some (u.multiply l new v)
  | .over => some (Value.numeric "/" Number.div u v)
  | .intDiv => some (Value.numeric "//" Number.floorDiv u v)
  | .modulo => some (u.remainder l v)
  | _ => none

/-- An operator on two values that are not both whole numbers. -/
def onValues (l : Lists) (new : Nat) (op : Op) (u v : Value) : Except Fault Value :=
  match op.arithmetic? l new u v with
  | some result => result
  | none =>
    match op with
    | .eq => .ok (.bool ((l.view u).same (l.view v)))
    | .neq => .ok (.bool (!(l.view u).same (l.view v)))
    | .and => .ok (if l.isTruthy u then v else u)
    | .or => .ok (if l.isTruthy u then u else v)
    | relation => do return .bool (← (l.view u).order relation (l.view v))

/-- The result of an operator on two values. -/
def apply (l : Lists) (new : Nat) (op : Op) (u v : Value) : Except Fault Value :=
  match u.whole?, v.whole? with
  | some a, some b => .ok (.int (op.onWords a b))
  | _, _ => op.onValues l new u v

end Op

/-- A compound assignment on two whole numbers.  A division by zero leaves the first one as it
is. -/
def Compound.onWords (op : Compound) (a b : Int) : Int :=
  match op with
  | .plus => Word.add a b
  | .minus => Word.sub a b
  | .times => Word.mul a b
  | .over => if Word.wrap b = 0 then Word.wrap a else Word.div a b

namespace Value

/-- The items of a sequence. -/
def items? (l : Lists) : Value → Option (List Value)
  | .list id xs => some (l.contents id xs)
  | .tuple xs => some xs
  | .text s => some (s.letters.map .text)
  | _ => Option.none

/-- The value that a counting loop goes on with: a list is extended in its place by the items of any
sequence, and all else is a sum. -/
def advance (l : Lists) (u step : Value) : Except Fault (Value × Lists) :=
  match u with
  | .list id _ =>
    match step.items? l with
    | some more => .ok (u, l.extend id more)
    | Option.none => .error (.notIterable step.typeName)
  | _ =>
    match u.number?, step.number? with
    | some a, some b => do return (ofNumber (← a.add b), l)
    | _, _ =>
      if u.isSequence then do return (← u.add l l.next step, l)
      else .error (.unsupported "+=" u.typeName step.typeName)

end Value
end Retrace
