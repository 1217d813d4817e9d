import Retrace.Text.Quoted

/-!
# Texts

The texts of a running program are sequences of code points.  Nearly all of them are made of
characters and kept as strings.  The exception are halves of surrogate pairs: they are code points
but no characters, and a number that is written as a character can be one.  A text that holds such
a code point is kept as the list of its code points.

* `Text`: the type, with `toPoints` and `ofPoints`.
* `length`, `append`, `replicate`, `take`, `letters`: texts as sequences.
* `order`: the order of texts, by code points.
* `quoted`: the text between quotes, in which every code point is a character or an escape.
* `display`: the text with a replacement for what is no character.
-/

set_option autoImplicit false
namespace Retrace

/-- A text of a running program: characters only, or code points of which some are no characters. -/
inductive Text where
  | plain (s : String)
  | mixed (points : List Nat)
deriving DecidableEq, Repr

namespace Text

instance : Inhabited Text := ⟨.plain ""⟩

/-- The code points of a text. -/
def toPoints : Text → List Nat
  | .plain s => s.toList.map Char.toNat
  | .mixed ps => ps

/-- Is the code point that of a character? -/
def isCharacter (n : Nat) : Bool :=
  n < 0xd800 || (0xe000 ≤ n && n < 0x110000)

/-- The text with the given code points. -/
def ofPoints (ps : List Nat) : Text :=
  if ps.all isCharacter then .plain (String.ofList (ps.map Char.ofNat)) else .mixed ps

/-! ## Texts as sequences -/

/-- How many code points a text has. -/
def length : Text → Nat
  | .plain s => s.length
  | .mixed ps => ps.length

/-- Has a text no code points? -/
def isEmpty : Text → Bool
  | .plain s => s.isEmpty
  | .mixed ps => ps.isEmpty

/-- One text behind the other. -/
def append : Text → Text → Text
  | .plain s, .plain t => .plain (s ++ t)
  | s, t => ofPoints (s.toPoints ++ t.toPoints)

instance : Append Text := ⟨append⟩

/-- A text with one more code point behind it. -/
def push (s : Text) (point : Nat) : Text :=
  match s with
  | .plain t => if isCharacter point then .plain (t.push (Char.ofNat point)) else
      ofPoints (s.toPoints ++ [point])
  | .mixed ps => .mixed (ps ++ [point])

/-- A text so many times. -/
def replicate (n : Nat) : Text → Text
  | .plain s => if s.isEmpty then .plain "" else .plain (Nat.repeat (· ++ s) n "")
  | .mixed ps => ofPoints (Nat.repeat (ps ++ ·) n [])

/-- The first code points of a text. -/
def take (n : Nat) : Text → Text
  | .plain s => .plain (String.ofList (s.toList.take n))
  | .mixed ps => ofPoints (ps.take n)

/-- A text without its first and its last code point. -/
def inner : Text → Text
  | .plain s => .plain (String.ofList (s.toList.drop 1).dropLast)
  | .mixed ps => ofPoints (ps.drop 1).dropLast

/-- The code points of a text, as texts. -/
def letters : Text → List Text
  | .plain s => s.toList.map fun c => .plain c.toString
  | .mixed ps => ps.map fun p => ofPoints [p]

/-- Does a text start and end with a character? -/
def isBetween (c : Char) : Text → Bool
  | .plain s => s.startsWith c && s.endsWith c
  | .mixed ps => ps.head? == some c.toNat && ps.getLast? == some c.toNat

/-! ## Order -/

/-- How two texts compare: the first code points that differ decide. -/
def order : Text → Text → Ordering
  | .plain s, .plain t => compare s t
  | s, t => compare s.toPoints t.toPoints

/-! ## Quotes -/

/-- How a code point is written between two quotes `q`. -/
def escapePoint (q : Char) (n : Nat) : String :=
  if isCharacter n then Quoted.escape q (Char.ofNat n) else Quoted.byCodePoint n

/-- A text with a replacement for each code point that is no character. -/
def display : Text → String
  | .plain s => s
  | .mixed ps => String.ofList (ps.map fun p => if isCharacter p then Char.ofNat p else '�')

/-- A text between quotes. -/
def quoted : Text → String
  | .plain s => Quoted.quote s
  | .mixed ps =>
    let q := Quoted.mark (display (.mixed ps))
    q.toString ++ String.join (ps.map (escapePoint q)) ++ q.toString

end Text
end Retrace
