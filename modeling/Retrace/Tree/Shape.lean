import Retrace.Fault

/-!
# Taking trees apart

Statements and blocks are trees of any shape until someone looks into them.  The functions of this
module look into a tree the way a sequence is looked into; tuples, lists and texts are sequences,
a text being the sequence of its characters.

* `head`: the first item.
* `items`: all items, in order, and `reversed`: in the opposite order.
* `unpack2` … `unpack5`: the items of a sequence that must have exactly so many.
* `items?_of_unpack2` … `items?_of_unpack5`: what was unpacked are the items, in order.
* `whole?`: the whole number that a tree stands for.
-/

set_option autoImplicit false
namespace Retrace
namespace Tree

/-- The characters of a text, as texts. -/
def characters (s : String) : List Tree :=
  s.toList.map fun c => .text c.toString

/-- The items of a sequence. -/
def items? : Tree → Option (List Tree)
  | .list xs => some xs
  | .tuple xs => some xs
  | .text s => some (characters s)
  | _ => Option.none

/-- The word that messages use for a sequence when an item is missing. -/
def sequenceName : Tree → String
  | .text _ => "string"
  | t => t.typeName

/-- The first item of a sequence. -/
def head (t : Tree) : Except Fault Tree :=
  match t.items? with
  | some (x :: _) => .ok x
  | some [] => .error (.outOfRange t.sequenceName)
  | Option.none => .error (.notSubscriptable t.typeName)

/-- The items of a sequence that is gone through. -/
def items (t : Tree) : Except Fault (List Tree) :=
  match t.items? with
  | some xs => .ok xs
  | Option.none => .error (.notIterable t.typeName)

/-- The items of a sequence that is gone through backwards. -/
def reversed (t : Tree) : Except Fault (List Tree) :=
  match t.items? with
  | some xs => .ok xs.reverse
  | Option.none => .error (.notReversible t.typeName)

/-- The fault of a sequence that has `got` items instead of `expected`. -/
def wrongLength (expected got : Nat) : Fault :=
  if got < expected then .tooFewItems expected got else .tooManyItems expected

/-- The items of a sequence that is taken apart. -/
def parts (t : Tree) : Except Fault (List Tree) :=
  match t.items? with
  | some xs => .ok xs
  | Option.none => .error (.notUnpackable t.typeName)

/-- The two items of a pair. -/
def unpack2 (t : Tree) : Except Fault (Tree × Tree) := do
  match ← t.parts with
  | [a, b] => return (a, b)
  | xs => throw (wrongLength 2 xs.length)

/-- The three items of a triple. -/
def unpack3 (t : Tree) : Except Fault (Tree × Tree × Tree) := do
  match ← t.parts with
  | [a, b, c] => return (a, b, c)
  | xs => throw (wrongLength 3 xs.length)

/-- The four items of a sequence of four. -/
def unpack4 (t : Tree) : Except Fault (Tree × Tree × Tree × Tree) := do
  match ← t.parts with
  | [a, b, c, d] => return (a, b, c, d)
  | xs => throw (wrongLength 4 xs.length)

/-- The five items of a sequence of five. -/
def unpack5 (t : Tree) : Except Fault (Tree × Tree × Tree × Tree × Tree) := do
  match ← t.parts with
  | [a, b, c, d, e] => return (a, b, c, d, e)
  | xs => throw (wrongLength 5 xs.length)

/-- What is made of the parts of a tree is made of its items. -/
theorem items?_of_parts {α : Type} {t : Tree} {k : List Tree → Except Fault α} {a : α}
    (h : t.parts >>= k = .ok a) : ∃ xs, t.items? = some xs ∧ k xs = .ok a := by
  rw [parts] at h
  split at h
  · next xs hitems => exact ⟨xs, hitems, h⟩
  · cases h

theorem items?_of_unpack2 {t a b : Tree} (h : t.unpack2 = .ok (a, b)) :
    t.items? = some [a, b] := by
  obtain ⟨xs, hitems, h⟩ := items?_of_parts h
  split at h
  · cases h
    exact hitems
  · cases h

theorem items?_of_unpack3 {t a b c : Tree} (h : t.unpack3 = .ok (a, b, c)) :
    t.items? = some [a, b, c] := by
  obtain ⟨xs, hitems, h⟩ := items?_of_parts h
  split at h
  · cases h
    exact hitems
  · cases h

theorem items?_of_unpack4 {t a b c d : Tree} (h : t.unpack4 = .ok (a, b, c, d)) :
    t.items? = some [a, b, c, d] := by
  obtain ⟨xs, hitems, h⟩ := items?_of_parts h
  split at h
  · cases h
    exact hitems
  · cases h

theorem items?_of_unpack5 {t a b c d e : Tree} (h : t.unpack5 = .ok (a, b, c, d, e)) :
    t.items? = some [a, b, c, d, e] := by
  obtain ⟨xs, hitems, h⟩ := items?_of_parts h
  split at h
  · cases h
    exact hitems
  · cases h

/-- The whole number that a number or a truth value counts for. -/
def whole? : Tree → Option Int
  | .bool b => some (if b then 1 else 0)
  | .int n => some n
  | _ => Option.none

/-- Is the text a literal in backticks? -/
def isRaw (s : String) : Bool :=
  s.startsWith "`" && s.endsWith "`"

end Tree
end Retrace
