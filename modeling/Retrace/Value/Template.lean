import Retrace.Number.Numeral
import Retrace.Sequence
import Retrace.Value.View

/-!
# Filling in a template

The remainder of a text by a value is the text with its places filled in by the value.  A place
starts with a percent sign and ends with a letter, the conversion, which says how a value is
written.  Between them stand, in this order and each if wanted,

* flags: `-` puts the value to the left of its field, `0` fills the field with zeros, `+` and a
  blank give numbers without a sign one, `#` marks the base of a number or keeps the point of a
  fraction,
* the width of the field, in digits, or as a star, for which a value is taken,
* a point and the precision, written like the width,
* one of the letters `h`, `l` and `L`, which change nothing.

A tuple holds a value for each place and each star, any other value is for one of them.  A template
that asks for more is refused, and so is one that leaves values over; only a list may be left over.
Two percent signs stand for one.

A template is read from left to right, code point by code point.

* `Stage`: what has been read of a place.
* `step`: takes in one code point.
* `fill`: the whole template.
-/

set_option autoImplicit false
namespace Retrace
namespace Template

/-! ## Places -/

/-- What a place says before its conversion. -/
structure Place where
  left : Bool := false
  sign : Bool := false
  blank : Bool := false
  alternate : Bool := false
  zero : Bool := false
  width : Option Nat := none
  precision : Option Nat := none
deriving Inhabited, Repr

namespace Place

/-- The place with one more flag, if the code point is one. -/
def withFlag? (p : Place) (point : Nat) : Option Place :=
  let c := Char.ofNat point
  if c = '-' then some { p with left := true }
  else if c = '+' then some { p with sign := true }
  else if c = ' ' then some { p with blank := true }
  else if c = '#' then some { p with alternate := true }
  else if c = '0' then some { p with zero := true }
  else none

end Place

/-- The part of a template that is being read. -/
inductive Stage where
  /-- Text between places. -/
  | plain
  /-- Just behind a percent sign. -/
  | opened
  /-- In a key between parentheses, so many of which are open. -/
  | key (depth : Nat)
  | flags (p : Place)
  | width (p : Place) (digits : Nat)
  | afterWidth (p : Place)
  | point (p : Place)
  | precision (p : Place) (digits : Nat)
  | afterPrecision (p : Place)
  /-- Behind a letter that changes nothing. -/
  | sized (p : Place)
deriving Inhabited, Repr

/-- What has been written so far, the values that are still to be used, whether they are a list that
counts as one value, the number of code points read, and the part that is being read. -/
structure Filler where
  out : Text := .plain ""
  arguments : List View
  keyed : Bool
  position : Nat := 0
  stage : Stage := .plain
deriving Inhabited, Repr

/-- A fault of a template. -/
def fail {α : Type} (cause : FormatFault) : Except Fault α :=
  .error (.format cause)

/-! ## Fields -/

/-- So many of a character, to fill a field. -/
def padding (c : Char) (count : Nat) : Except Fault String :=
  if Sequence.room ≤ count then .error .outOfMemory else .ok (Numeral.fill c count)

/-- A text in the field of a place. -/
def textField (p : Place) (s : Text) : Except Fault Text := do
  let s := match p.precision with
    | some n => s.take n
    | none => s
  let pad ← padding ' ' (p.width.getD 0 - s.length)
  return if p.left then s ++ .plain pad else .plain pad ++ s

/-- The sign of a number, which may have one also if it is not negative. -/
def signText (p : Place) (negative : Bool) : String :=
  if negative then "-" else if p.sign then "+" else if p.blank then " " else ""

/-- A number in the field of a place.  Its sign, and the mark of its base, stand in front of zeros
and behind blanks. -/
def numberField (p : Place) (n : Numeral) : Except Fault Text := do
  let front := signText p n.negative ++ n.mark
  let missing := p.width.getD 0 - (front.length + n.body.length)
  let zeros := p.zero && !p.left
  let pad ← padding (if zeros then '0' else ' ') missing
  return .plain (if p.left then front ++ n.body ++ pad
    else if zeros then front ++ pad ++ n.body
    else pad ++ front ++ n.body)

/-! ## Conversions -/

/-- The only code point of a text, or the one with a given number. -/
def character : View → Except Fault Text
  | .text s => if s.length = 1 then .ok s else fail .characterRequired
  | v =>
    match v.whole? with
    | some n =>
      if 0 ≤ n && n < 0x110000 then .ok (Text.ofPoints [n.toNat]) else fail .characterRange
    | none => fail .characterRequired

/-- A text in which every character beyond the first 128 is escaped. -/
def escaped (s : String) : String :=
  String.ofList (s.toList.flatMap fun c =>
    if c.toNat < 128 then [c] else (Text.Quoted.byCodePoint c.toNat).toList)

/-- A real number without its fraction. -/
def truncated (x : Binary64) : Except Fault Int :=
  match x.toInt? with
  | some n => .ok n
  | none => .error (if x.isNaN then .undefinedWhole else .infiniteWhole)

/-- The whole number that a value is written as.  A real number is taken without its fraction, but
only in base ten. -/
def integer (conversion : Char) (v : View) : Except Fault Int :=
  match v.number? with
  | some (.whole n) => .ok n
  | some (.real x) =>
    if "oxX".contains conversion then fail (.integerRequired conversion v.typeName)
    else truncated x
  | none =>
    if "oxX".contains conversion then fail (.integerRequired conversion v.typeName)
    else fail (.numberRequired conversion v.typeName)

/-- The largest count of digits that a whole number is written with. -/
def digitsLimit : Nat := 0x7ffffffc

/-- A whole number in one of the conversions `d`, `i`, `u`, `o`, `x` and `X`. -/
def wholeField (conversion : Char) (p : Place) (v : View) : Except Fault Text := do
  let n ← integer conversion v
  let count := p.precision.getD 0
  if digitsLimit < count then fail .precisionTooLarge
  if "diu".contains conversion then
    let _ ← View.numeral n
  numberField p (Numeral.whole conversion p.alternate count n)

/-- A number in one of the conversions `e`, `E`, `f`, `F`, `g` and `G`, in double precision. -/
def realField (conversion : Char) (p : Place) (v : View) : Except Fault Text := do
  match v.number? with
  | some n =>
    let x ← n.toReal
    numberField p (Numeral.real conversion p.alternate (p.precision.getD 6) x)
  | none => fail (.realRequired v.typeName)

/-- The value in the field of a place. -/
def convert (position conversion : Nat) (p : Place) (v : View) : Except Fault Text := do
  let c := Char.ofNat conversion
  if c = 's' then textField p (← v.shown)
  else if c = 'r' then textField p (.plain (← v.quoted))
  else if c = 'a' then textField p (.plain (escaped (← v.quoted)))
  else if "diuoxX".contains c then wholeField c p v
  else if "eEfFgG".contains c then realField c p v
  else if c = 'c' then textField { p with precision := none } (← character v)
  else fail (.unknownConversion conversion position)

/-! ## Reading a template -/

/-- Uses the next value. -/
def use (f : Filler) : Except Fault (View × Filler) :=
  match f.arguments with
  | v :: rest => .ok (v, { f with arguments := rest })
  | [] => fail .tooFewArguments

/-- Uses the next value as a whole number. -/
def useNumber (f : Filler) : Except Fault (Int × Filler) := do
  let (v, f) ← use f
  match v.whole? with
  | some n => return (n, f)
  | none => fail .widthNotInteger

/-- The end of a place, with its conversion. -/
def close (f : Filler) (p : Place) (c : Nat) : Except Fault Filler := do
  let (v, f) ← use f
  let s ← convert f.position c p v
  return { f with out := f.out ++ s, stage := .plain }

/-- Is the code point that of the character? -/
def isPoint (n : Nat) (c : Char) : Bool :=
  n == c.toNat

/-- A code point behind the precision. -/
def afterPrecision (f : Filler) (p : Place) (c : Nat) : Except Fault Filler :=
  if isPoint c 'h' || isPoint c 'l' || isPoint c 'L' then .ok { f with stage := .sized p }
  else close f p c

/-- A code point behind the width. -/
def afterWidth (f : Filler) (p : Place) (c : Nat) : Except Fault Filler :=
  if isPoint c '.' then .ok { f with stage := .point { p with precision := some 0 } }
  else afterPrecision f p c

/-- The number of a digit. -/
def digit? (c : Nat) : Option Nat :=
  if 48 ≤ c && c ≤ 57 then some (c - 48) else none

/-- The largest width that can be written in digits. -/
def widthLimit : Nat := 0x7fffffffffffffff

/-- The largest precision that can be written in digits. -/
def precisionLimit : Nat := 0x7fffffff

/-- A width for which a value is taken; a negative one is to the left.  The least one has no
opposite, and counts as none. -/
def starWidth (f : Filler) (p : Place) : Except Fault Filler := do
  let (n, f) ← useNumber f
  if n < -(widthLimit : Int) - 1 || (widthLimit : Int) < n then fail .widthOverflow
  else
    let width := if n.natAbs ≤ widthLimit then some n.natAbs else none
    return { f with stage := .afterWidth { p with width, left := p.left || n < 0 } }

/-- A precision for which a value is taken; a negative one counts as zero. -/
def starPrecision (f : Filler) (p : Place) : Except Fault Filler := do
  let (n, f) ← useNumber f
  if n < -(precisionLimit : Int) - 1 || (precisionLimit : Int) < n then fail .precisionOverflow
  else return { f with stage := .afterPrecision { p with precision := some n.toNat } }

/-- A code point among the flags, or behind them. -/
def flag (f : Filler) (p : Place) (c : Nat) : Except Fault Filler :=
  match p.withFlag? c with
  | some q => .ok { f with stage := .flags q }
  | none =>
    if isPoint c '*' then starWidth f p
    else
      match digit? c with
      | some d => .ok { f with stage := .width p d }
      | none => afterWidth f p c

/-- Takes in one code point of a template, at the stage that is reached. -/
def read (f : Filler) (c : Nat) : Except Fault Filler :=
  match f.stage with
  | .plain =>
    .ok (if isPoint c '%' then { f with stage := .opened } else { f with out := f.out.push c })
  | .opened =>
    if isPoint c '%' then .ok { f with out := f.out.push c, stage := .plain }
    else if isPoint c '(' then
      if f.keyed then .ok { f with stage := .key 1 } else fail .needsMapping
    else flag f {} c
  | .key depth =>
    if isPoint c '(' then .ok { f with stage := .key (depth + 1) }
    else if isPoint c ')' then
      if depth ≤ 1 then .error (.badIndex (View.text default).typeName)
      else .ok { f with stage := .key (depth - 1) }
    else .ok f
  | .flags p => flag f p c
  | .width p n =>
    match digit? c with
    | some d =>
      if (widthLimit - d) / 10 < n then fail .widthTooBig
      else .ok { f with stage := .width p (n * 10 + d) }
    | none => afterWidth f { p with width := some n } c
  | .afterWidth p => afterWidth f p c
  | .point p =>
    if isPoint c '*' then starPrecision f p
    else
      match digit? c with
      | some d => .ok { f with stage := .precision p d }
      | none => afterPrecision f p c
  | .precision p n =>
    match digit? c with
    | some d =>
      if (precisionLimit - d) / 10 < n then fail .precisionTooBig
      else .ok { f with stage := .precision p (n * 10 + d) }
    | none => afterPrecision f { p with precision := some n } c
  | .afterPrecision p => afterPrecision f p c
  | .sized p => close f p c

/-- Takes in one code point of a template. -/
def step (f : Filler) (c : Nat) : Except Fault Filler := do
  let g ← read f c
  return { g with position := f.position + 1 }

/-- The end of a template: no place may be open, and all values must be used unless they are a
list. -/
def finish (f : Filler) : Except Fault Text :=
  match f.stage with
  | .plain =>
    if !f.arguments.isEmpty && !f.keyed then fail .tooManyArguments else .ok f.out
  | .key _ => fail .incompleteKey
  | _ => fail .incomplete

/-- The values that a value holds for the places of a template. -/
def argumentsOf : View → List View
  | .tuple items => items
  | v => [v]

/-- A template of which nothing has been read, with a value to fill it in. -/
def start (v : View) : Filler :=
  { arguments := argumentsOf v, keyed := v matches .list _ _ }

/-- The template with its places filled in by the value. -/
def fill (template : Text) (v : View) : Except Fault Text := do
  let f ← template.toPoints.foldlM step (start v)
  finish f

end Template
end Retrace
