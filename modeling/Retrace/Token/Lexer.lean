import Retrace.Fault
import Retrace.Text.Digit

/-!
# From source text to tokens

The text is cut from left to right.  `munch` takes the next lexeme off the text, and `scan` turns
lexemes into tokens, keeping the place where each one starts and the indentations that are open.

* `munch c cs`: sort, characters and rest of the lexeme that starts with `c`.
* `munch_append`: no character is lost, and `munch_length`: at least one is taken.
* `scan`: the tokens of a text from a given place on.
* `Token.ofSource`: the tokens of a whole text.

Only a line break outside of literal texts starts a new line.  The first characters of the line
after it, blank or not, decide about `INDENT` and `DEDENT`; such tokens carry the new line's
number and the column of the line break.
-/

set_option autoImplicit false
namespace Retrace
namespace Token

/-! ## Lexemes -/

/-- The sorts of lexemes. -/
inductive Lexeme where
  /-- A token of the given kind; `name` may still turn out to be a reserved word. -/
  | token (kind : Kind)
  /-- Spaces, tabs or a comment. -/
  | blank
  /-- A line break. -/
  | lineBreak
  /-- A character that starts no lexeme. -/
  | stray
deriving DecidableEq, Repr, Inhabited

/-- The tokens of two characters. -/
def double : Char → Char → Option Kind
  | '+', '=' => some .plusAssign
  | '-', '=' => some .minusAssign
  | '*', '=' => some .timesAssign
  | '/', '=' => some .overAssign
  | '/', '/' => some .intDiv
  | '=', '=' => some .eq
  | '!', '=' => some .neq
  | '<', '=' => some .lte
  | '>', '=' => some .gte
  | _, _ => none

/-- The tokens of one character. -/
def single : Char → Option Kind
  | '\x7b' => some .lbrace
  | '\x7d' => some .rbrace
  | '%' => some .modulo
  | '<' => some .lt
  | '>' => some .gt
  | '=' => some .assign
  | '+' => some .plus
  | '-' => some .minus
  | '*' => some .times
  | '/' => some .over
  | '(' => some .lparen
  | ')' => some .rparen
  | '[' => some .lbracket
  | ']' => some .rbracket
  | ':' => some .colon
  | ',' => some .comma
  | _ => none

/-- May a name start with the character? -/
def isNameStart (c : Char) : Bool :=
  c.isAlpha || c == '_'

/-- May the character stand in a name? -/
def isNameChar (c : Char) : Bool :=
  c.isAlphanum || c == '_'

/-- Spaces and tabs separate tokens and indent lines. -/
def isBlank (c : Char) : Bool :=
  c == ' ' || c == '\t'

/-- Does the character open, and close, a literal text? -/
def isQuote (c : Char) : Bool :=
  c == '"' || c == '\x60'

/-- A lexeme of the given sort: the character `c` and all that follow it with the property. -/
def munchWhile (sort : Lexeme) (p : Char → Bool) (c : Char) (cs : List Char) :
    Lexeme × List Char × List Char :=
  (sort, c :: cs.takeWhile p, cs.dropWhile p)

/-- A literal text from the quote `q` to the next one.  Without a second quote the first one is a
stray character. -/
def munchText (q : Char) (cs : List Char) : Lexeme × List Char × List Char :=
  match cs.dropWhile (· != q) with
  | [] => (.stray, [q], cs)
  | d :: rest => (.token .string, q :: (cs.takeWhile (· != q) ++ [d]), rest)

/-- A lexeme that is no operator and no bracket. -/
def munchClass (c : Char) (cs : List Char) : Lexeme × List Char × List Char :=
  if Text.Digit.isDigit c then munchWhile (.token .number) Text.Digit.isDigit c cs
  else if isNameStart c then munchWhile (.token .name) isNameChar c cs
  else if isQuote c then munchText c cs
  else if c == '#' then munchWhile .blank (· != '\n') c cs
  else if isBlank c then munchWhile .blank isBlank c cs
  else if c == '\n' then (.lineBreak, [c], cs)
  else (.stray, [c], cs)

/-- A lexeme of at most one character of punctuation, or of another class. -/
def munchSingle (c : Char) (cs : List Char) : Lexeme × List Char × List Char :=
  match single c with
  | some k => (.token k, [c], cs)
  | none => munchClass c cs

/-- The next lexeme of the text `c :: cs`: its sort, its characters, and the rest of the text. -/
def munch (c : Char) : List Char → Lexeme × List Char × List Char
  | [] => munchSingle c []
  | d :: cs =>
    match double c d with
    | some k => (.token k, [c, d], cs)
    | none => munchSingle c (d :: cs)

theorem munchText_append (q : Char) (cs : List Char) :
    (munchText q cs).2.1 ++ (munchText q cs).2.2 = q :: cs := by
  unfold munchText
  split
  · rfl
  · next d rest h =>
    simp only [List.cons_append, List.append_assoc, List.nil_append, ← h,
      List.takeWhile_append_dropWhile]

theorem munchClass_append (c : Char) (cs : List Char) :
    (munchClass c cs).2.1 ++ (munchClass c cs).2.2 = c :: cs := by
  unfold munchClass
  repeat' split
  all_goals simp [munchWhile, munchText_append]

theorem munchSingle_append (c : Char) (cs : List Char) :
    (munchSingle c cs).2.1 ++ (munchSingle c cs).2.2 = c :: cs := by
  unfold munchSingle
  split
  · rfl
  · exact munchClass_append c cs

/-- No character is lost: the lexeme and the rest make up the text. -/
theorem munch_append (c : Char) (cs : List Char) :
    (munch c cs).2.1 ++ (munch c cs).2.2 = c :: cs := by
  unfold munch
  split
  · exact munchSingle_append c []
  · split
    · rfl
    · exact munchSingle_append c _

theorem munchClass_ne_nil (c : Char) (cs : List Char) : (munchClass c cs).2.1 ≠ [] := by
  unfold munchClass munchText
  repeat' split
  all_goals simp [munchWhile]

/-- A lexeme has at least one character. -/
theorem munch_ne_nil (c : Char) (cs : List Char) : (munch c cs).2.1 ≠ [] := by
  unfold munch munchSingle
  repeat' split
  all_goals first | exact munchClass_ne_nil _ _ | simp

/-- What is left after a lexeme is shorter than the text. -/
theorem munch_length (c : Char) (cs : List Char) :
    (munch c cs).2.2.length < (c :: cs).length := by
  have h := congrArg List.length (munch_append c cs)
  have h₀ : 0 < (munch c cs).2.1.length := List.length_pos_iff.2 (munch_ne_nil c cs)
  rw [List.length_append] at h
  omega

/-! ## Layout -/

/-- The indentation of the innermost open block; outside of all blocks it is zero. -/
def level (opened : List Nat) : Nat :=
  opened.headD 0

/-- The tokens that the indentation of a new line gives rise to, and the indentations that are
open after it, innermost first. -/
def layout (indentation line column : Nat) (opened : List Nat) : List Token × List Nat :=
  if level opened < indentation then
    ([⟨.indent, .int indentation, line, column⟩], indentation :: opened)
  else
    ((opened.takeWhile (indentation < ·)).map fun _ =>
        ⟨.dedent, .int indentation, line, column⟩,
      opened.dropWhile (indentation < ·))

/-- The `DEDENT` tokens for the blocks that are open at the end of the text. -/
def closing (line : Nat) (opened : List Nat) : List Token :=
  opened.map fun (indentation : Nat) => ⟨.dedent, .int indentation, line, 0⟩

/-! ## Tokens -/

/-- The most digits that a numeral may have. -/
def numeralLimit : Nat := 4300

/-- The token of a lexeme: numerals are read, and reserved words are recognised. -/
def ofLexeme (kind : Kind) (chars : List Char) (line column : Nat) : Except Fault Token :=
  match kind with
  | .number =>
    if numeralLimit < chars.length then .error (.longNumeral chars.length)
    else .ok ⟨.number, .int (Text.Digit.ofDigits chars), line, column⟩
  | .name =>
    let word := String.ofList chars
    .ok ⟨(Kind.ofWord? word).getD .name, .text word, line, column⟩
  | _ => .ok ⟨kind, .text (String.ofList chars), line, column⟩

/-- The tokens of a text that starts at the given place, with the given indentations open. -/
def scan (line column : Nat) (opened : List Nat) : List Char → Except Fault (List Token)
  | [] => .ok (closing line opened)
  | c :: cs =>
    let lexeme := munch c cs
    match lexeme.1 with
    | .token kind =>
      match ofLexeme kind lexeme.2.1 line column with
      | .error e => .error e
      | .ok t =>
        match scan line (column + lexeme.2.1.length) opened lexeme.2.2 with
        | .error e => .error e
        | .ok ts => .ok (t :: ts)
    | .blank => scan line (column + lexeme.2.1.length) opened lexeme.2.2
    | .lineBreak =>
      let step := layout (lexeme.2.2.takeWhile isBlank).length (line + 1) column opened
      match scan (line + 1) 0 step.2 lexeme.2.2 with
      | .error e => .error e
      | .ok ts => .ok (step.1 ++ ts)
    | .stray => .error (.strayCharacter c line column)
termination_by cs => cs.length
decreasing_by all_goals exact munch_length c cs

/-- The tokens of a source text. -/
def ofSource (code : String) : Except Fault (List Token) :=
  scan 1 0 [] code.toList

end Token
end Retrace
