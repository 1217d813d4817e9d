import Retrace.Text.Printable

/-!
# Quoted text

How a text is shown inside a larger value: between quotes, with escapes for what could not be
read otherwise.  Single quotes are used unless the text holds a single quote and no double one.

* `mark s`: the quote that is put around `s`.
* `escape q c`: how the character `c` is written between quotes `q`.
* `quote s`: the whole text.
-/

set_option autoImplicit false
namespace Retrace
namespace Text

/-- The digits of `n` in base sixteen, in small letters, with zeros in front up to `width`. -/
def hex (width n : Nat) : String :=
  let digits := Nat.toDigits 16 n
  String.ofList (List.replicate (width - digits.length) '0' ++ digits)

namespace Quoted

/-- A text that holds a single quote and no double one is put between double quotes, every other
text between single ones. -/
def mark (s : String) : Char :=
  if s.contains '\'' && !s.contains '"' then '"' else '\''

/-- An escape by code point, as short as the code point allows. -/
def byCodePoint (n : Nat) : String :=
  if n < 0x100 then "\\x" ++ hex 2 n
  else if n < 0x10000 then "\\u" ++ hex 4 n
  else "\\U" ++ hex 8 n

/-- How one character is written between two quotes `q`.  Printable characters of every script are
written as they are. -/
def escape (q c : Char) : String :=
  if c == q || c == '\\' then "\\" ++ c.toString
  else if c == '\n' then "\\n"
  else if c == '\r' then "\\r"
  else if c == '\t' then "\\t"
  else if 32 ≤ c.toNat && c.toNat < 127 then c.toString
  else if c.toNat < 128 || !Printable.isPrintable c then byCodePoint c.toNat
  else c.toString

/-- The text between quotes. -/
def quote (s : String) : String :=
  let q := mark s
  q.toString ++ s.foldl (fun acc c => acc ++ escape q c) "" ++ q.toString

end Quoted
end Text
end Retrace
