import Retrace.Proofs.Phrase
import Retrace.Token.Lexer

/-!
# Writing phrases as source text

A program is written one statement a line, and each block is indented by four spaces more than the
line that opens it.  Operators bind alike and group to the left, so parentheses are needed around an
operation only where it is a right operand.  A length at the start of an expression would be taken
for the whole of it, hence it stands in parentheses where it is a left operand.

Not every phrase can be written.  A name has to be a word that is not reserved, a literal text has
to be between quotes of one sort with none of them inside, a number must not be negative or too
long, and the first block of a choice and the block of a loop must not be empty.  The phrases for
which all this holds are the *writable* ones, and the condition can be computed.  A further
condition of a choice can be written, but it is not read back as one, since its word is not
reserved; so choices with further conditions are not writable, and they are treated apart.

A text is connected with its phrase by way of tokens: it is cut into them, and they are read.  The
two halves are shown in different modules, and what they have in common is which tokens a phrase
has.  Tokens have places, which no phrase can know.  So there are *marks*, which are tokens without
a place and in most cases without a content, and a list of tokens spells a list of marks up to some
rest (`Spells`).  The rest is a part of it because a phrase stands inside of others, and something
follows it.

* `Literal.write`, …, `Statement.write`: the text of a phrase.
* `Literal.isWritable`, …, `Statement.areWritable`: the phrases that a text can stand for.
* `Mark`, `Spells`: tokens without their places.
* `Literal.marks`, …, `Statement.marks`: the tokens that the text of a phrase is made of.
* `Statement.isSpellable`, `Statement.hasElif`, `Statement.marksWith`: the same with `elif` as a
  word of any sort.
-/

set_option autoImplicit false

namespace Retrace

/-- The kind of the token that an operator is. -/
def Op.kind : Op → Kind
  | .plus => .plus
  | .minus => .minus
  | .times => .times
  | .over => .over
  | .modulo => .modulo
  | .intDiv => .intDiv
  | .eq => .eq
  | .neq => .neq
  | .lt => .lt
  | .gt => .gt
  | .lte => .lte
  | .gte => .gte
  | .and => .andWord
  | .or => .orWord

theorem Op.operator?_kind (op : Op) : op.kind.operator? = some op.tag := by
  cases op <;> rfl

/-- The operator of a compound assignment as it is written. -/
def Compound.symbol : Compound → String
  | .plus => "+="
  | .minus => "-="
  | .times => "*="
  | .over => "/="

/-- The kind of the token that the operator of a compound assignment is. -/
def Compound.kind : Compound → Kind
  | .plus => .plusAssign
  | .minus => .minusAssign
  | .times => .timesAssign
  | .over => .overAssign

theorem Compound.compound?_kind (op : Compound) : op.kind.compound? = some op := by
  cases op <;> rfl

namespace Phrase

/-! ## Text -/

mutual

/-- A literal as it is written. -/
def Literal.write : Literal → String
  | .int n => toString n
  | .bool b => if b then "True" else "False"
  | .name s => s
  | .string s => s
  | .list [] => "[]"
  | .list (v :: rest) => "[" ++ v.write ++ Literal.writeRest rest ++ "]"

/-- Further literals, each after a comma. -/
def Literal.writeRest : List Literal → String
  | [] => ""
  | v :: rest => ", " ++ v.write ++ Literal.writeRest rest

end

/-- An operator as it is written. -/
def Infix.write : Infix → String
  | .known op => op.symbol
  | .dot => "."

/-- Where an expression stands: by itself, or as an operand. -/
inductive Place where
  | whole
  | left
  | right
deriving DecidableEq, Inhabited, Repr

/-- A text in parentheses, if they are needed. -/
def enclose (needed : Bool) (s : String) : String :=
  if needed then "(" ++ s ++ ")" else s

/-- An expression as it is written in its place. -/
def Expression.write : Place → Expression → String
  | _, .literal v => v.write
  | place, .binary l op r =>
    enclose (place == .right) (l.write .left ++ " " ++ op.write ++ " " ++ r.write .right)
  | _, .index name position => name ++ "[" ++ position.write .whole ++ "]"
  | place, .length e => enclose (place == .left) ("len(" ++ e.write .whole ++ ")")

/-- Further expressions, each after a comma. -/
def Expression.writeRest : List Expression → String
  | [] => ""
  | e :: rest => ", " ++ e.write .whole ++ Expression.writeRest rest

/-- What a loop goes through, as it is written.  The text must not go on after a list, so an
operation stands in parentheses. -/
def Source.write : Source → String
  | .items e => e.write .right
  | .upTo stop => "range(" ++ stop.write .whole ++ ")"
  | .between start stop => "range(" ++ start.write .whole ++ ", " ++ stop.write .whole ++ ")"
  | .steps start stop step =>
    "range(" ++ start.write .whole ++ ", " ++ stop.write .whole ++ ", " ++ step.write .whole ++ ")"

/-- A line at a level of blocks. -/
def line (level : Nat) (s : String) : String :=
  String.ofList (List.replicate (4 * level) ' ') ++ s ++ "\n"

mutual

/-- The lines of a statement. -/
def Statement.write (level : Nat) : Statement → String
  | .assign name e => line level (name ++ " = " ++ e.write .whole)
  | .compound op name e => line level (name ++ " " ++ op.symbol ++ " " ++ e.write .whole)
  | .reverse name => line level ("rev " ++ name)
  | .revtrace name position => line level ("revtrace " ++ name ++ " " ++ position.write .whole)
  | .branch condition yes elifs no =>
    line level ("if " ++ condition.write .whole ++ ":") ++ Statement.writeAll (level + 1) yes ++
      Elif.writeAll level elifs ++
      (if no.isEmpty then "" else line level "else:" ++ Statement.writeAll (level + 1) no)
  | .forLoop name source body =>
    line level ("for " ++ name ++ " in " ++ source.write ++ ":") ++
      Statement.writeAll (level + 1) body
  | .whileLoop condition body =>
    line level ("while " ++ condition.write .whole ++ ":") ++ Statement.writeAll (level + 1) body
  | .print first rest =>
    line level ("print(" ++ first.write .whole ++ Expression.writeRest rest ++ ")")
  | .breakLoop => line level "break"
  | .literals items => line level (Literal.write (.list items))

/-- The lines of a further condition. -/
def Elif.write (level : Nat) : Elif → String
  | .mk condition body =>
    line level ("elif " ++ condition.write .whole ++ ":") ++ Statement.writeAll (level + 1) body

/-- The lines of statements. -/
def Statement.writeAll (level : Nat) : List Statement → String
  | [] => ""
  | s :: rest => s.write level ++ Statement.writeAll level rest

/-- The lines of further conditions. -/
def Elif.writeAll (level : Nat) : List Elif → String
  | [] => ""
  | x :: rest => x.write level ++ Elif.writeAll level rest

end

/-! ## Phrases that can be written -/

/-- Words are the identifiers, also those that are reserved. -/
def isWord (s : String) : Bool :=
  match s.toList with
  | [] => false
  | c :: cs => Token.isNameStart c && cs.all Token.isNameChar

/-- Names are the words that are not reserved. -/
def isName (s : String) : Bool :=
  isWord s && (Kind.ofWord? s).isNone

/-- Literal texts stand between two quotes of one sort and do not hold that quote. -/
def isQuoted (s : String) : Bool :=
  match s.toList with
  | [] => false
  | q :: cs => Token.isQuote q && cs.dropWhile (· != q) == [q]

/-- There is no sign in front of a numeral, and its length is limited. -/
def isNumeral (n : Int) : Bool :=
  decide (0 ≤ n) && decide ((toString n).length ≤ Token.numeralLimit)

mutual

/-- Can the literal be written? -/
def Literal.isWritable : Literal → Bool
  | .int n => isNumeral n
  | .bool _ => true
  | .name s => isName s
  | .string s => isQuoted s
  | .list items => Literal.areWritable items

/-- Can all of the literals be written? -/
def Literal.areWritable : List Literal → Bool
  | [] => true
  | v :: rest => v.isWritable && Literal.areWritable rest

end

/-- Can the expression be written?  No text holds the dot. -/
def Expression.isWritable : Expression → Bool
  | .literal v => v.isWritable
  | .binary l op r => l.isWritable && decide (op ≠ .dot) && r.isWritable
  | .index name position => isName name && position.isWritable
  | .length e => e.isWritable

/-- Can the expressions of what a loop goes through be written? -/
def Source.isWritable : Source → Bool
  | .items e => e.isWritable
  | .upTo stop => stop.isWritable
  | .between start stop => start.isWritable && stop.isWritable
  | .steps start stop step => start.isWritable && stop.isWritable && step.isWritable

mutual

/-- Can the statement be written?  Loops and choices need a first block that is not empty, and
further conditions cannot be written at all: `elif` is no reserved word. -/
def Statement.isWritable : Statement → Bool
  | .assign name e => isName name && e.isWritable
  | .compound _ name e => isName name && e.isWritable
  | .reverse name => isName name
  | .revtrace name position => isName name && position.isWritable
  | .branch condition yes elifs no =>
    condition.isWritable && !yes.isEmpty && Statement.areWritable yes && elifs.isEmpty &&
      Statement.areWritable no
  | .forLoop name source body =>
    isName name && source.isWritable && !body.isEmpty && Statement.areWritable body
  | .whileLoop condition body =>
    condition.isWritable && !body.isEmpty && Statement.areWritable body
  | .print first rest => first.isWritable && rest.all Expression.isWritable
  | .breakLoop => true
  | .literals _ => false

/-- Can all of the statements be written? -/
def Statement.areWritable : List Statement → Bool
  | [] => true
  | s :: rest => s.isWritable && Statement.areWritable rest

end

/-- Can the statements be written as a program?  Outside of all blocks there is nothing to break
off. -/
def isWritableProgram (program : List Statement) : Bool :=
  Statement.areWritable program && program.all fun s => !(s matches .breakLoop)

end Phrase

/-! ## Marks -/

/-- What matters of a token when tokens are read: its kind, and the content of names and
literals. -/
inductive Mark where
  | sign (k : Kind)
  | number (n : Nat)
  | name (s : String)
  | string (s : String)
deriving DecidableEq, Inhabited, Repr

/-- Is the token one with this mark? -/
def Token.Shows (t : Token) : Mark → Prop
  | .sign k => t.kind = k
  | .number n => t.kind = .number ∧ t.content = .int n
  | .name s => t.kind = .name ∧ t.content = .text s
  | .string s => t.kind = .string ∧ t.content = .text s

/-- The kind of a token with this mark. -/
def Mark.kind : Mark → Kind
  | .sign k => k
  | .number _ => .number
  | .name _ => .name
  | .string _ => .string

theorem Token.Shows.kind_eq {t : Token} {m : Mark} (h : t.Shows m) : t.kind = m.kind := by
  cases m with
  | sign => exact h
  | number => exact h.1
  | name => exact h.1
  | string => exact h.1

/-- The tokens start with ones that have the given marks, and the others follow. -/
def Spells : List Mark → List Token → List Token → Prop
  | [], ts, rest => ts = rest
  | m :: ms, ts, rest => ∃ t ts', ts = t :: ts' ∧ t.Shows m ∧ Spells ms ts' rest

@[simp] theorem spells_nil {ts rest : List Token} : Spells [] ts rest ↔ ts = rest := Iff.rfl

theorem spells_cons {m : Mark} {ms : List Mark} {ts rest : List Token} :
    Spells (m :: ms) ts rest ↔ ∃ t ts', ts = t :: ts' ∧ t.Shows m ∧ Spells ms ts' rest := Iff.rfl

/-- One list of marks after another. -/
theorem spells_append {ms ms' : List Mark} {ts rest : List Token} :
    Spells (ms ++ ms') ts rest ↔ ∃ mid, Spells ms ts mid ∧ Spells ms' mid rest := by
  induction ms generalizing ts with
  | nil => simp
  | cons m ms ih =>
    simp only [List.cons_append, spells_cons, ih]
    constructor
    · rintro ⟨t, ts', rfl, ht, mid, hms, hms'⟩
      exact ⟨mid, ⟨t, ts', rfl, ht, hms⟩, hms'⟩
    · rintro ⟨mid, ⟨t, ts', rfl, ht, hms⟩, hms'⟩
      exact ⟨t, ts', rfl, ht, mid, hms, hms'⟩

/-- There are as many tokens as marks, and the rest. -/
theorem Spells.length_eq {ms : List Mark} {ts rest : List Token} (h : Spells ms ts rest) :
    ts.length = ms.length + rest.length := by
  induction ms generalizing ts with
  | nil => rw [spells_nil.1 h, List.length_nil, Nat.zero_add]
  | cons m ms ih =>
    obtain ⟨t, ts', rfl, -, hms⟩ := h
    rw [List.length_cons, List.length_cons, ih hms]
    omega

namespace Phrase

mutual

/-- The tokens of a literal. -/
def Literal.marks : Literal → List Mark
  | .int n => [.number n.toNat]
  | .bool b => [.sign (if b then .trueWord else .falseWord)]
  | .name s => [.name s]
  | .string s => [.string s]
  | .list [] => [.sign .lbracket, .sign .rbracket]
  | .list (v :: rest) =>
    .sign .lbracket :: (v.marks ++ Literal.marksRest rest ++ [.sign .rbracket])

/-- The tokens of further literals. -/
def Literal.marksRest : List Literal → List Mark
  | [] => []
  | v :: rest => .sign .comma :: (v.marks ++ Literal.marksRest rest)

end

/-- The kind of the token that an operator is. -/
def Infix.kind : Infix → Kind
  | .known op => op.kind
  | .dot => .dot

/-- Tokens in parentheses, if they are needed. -/
def encloseMarks (needed : Bool) (ms : List Mark) : List Mark :=
  if needed then .sign .lparen :: (ms ++ [.sign .rparen]) else ms

/-- The tokens of an expression in its place. -/
def Expression.marks : Place → Expression → List Mark
  | _, .literal v => v.marks
  | place, .binary l op r =>
    encloseMarks (place == .right) (l.marks .left ++ .sign op.kind :: r.marks .right)
  | _, .index name position =>
    .name name :: .sign .lbracket :: (position.marks .whole ++ [.sign .rbracket])
  | place, .length e =>
    encloseMarks (place == .left)
      (.sign .lenWord :: .sign .lparen :: (e.marks .whole ++ [.sign .rparen]))

/-- The tokens of further expressions. -/
def Expression.marksRest : List Expression → List Mark
  | [] => []
  | e :: rest => .sign .comma :: (e.marks .whole ++ Expression.marksRest rest)

/-- The tokens of what a loop goes through. -/
def Source.marks : Source → List Mark
  | .items e => e.marks .right
  | .upTo stop =>
    .sign .rangeWord :: .sign .lparen :: (stop.marks .whole ++ [.sign .rparen])
  | .between start stop =>
    .sign .rangeWord :: .sign .lparen ::
      (start.marks .whole ++ .sign .comma :: (stop.marks .whole ++ [.sign .rparen]))
  | .steps start stop step =>
    .sign .rangeWord :: .sign .lparen ::
      (start.marks .whole ++ .sign .comma ::
        (stop.marks .whole ++ .sign .comma :: (step.marks .whole ++ [.sign .rparen])))

mutual

/-- The tokens of a statement that can be written. -/
def Statement.marks : Statement → List Mark
  | .assign name e => .name name :: .sign .assign :: e.marks .whole
  | .compound op name e => .name name :: .sign op.kind :: e.marks .whole
  | .reverse name => [.sign .revWord, .name name]
  | .revtrace name position => .sign .revtraceWord :: .name name :: position.marks .whole
  | .branch condition yes _ no =>
    .sign .ifWord :: (condition.marks .whole ++ .sign .colon :: .sign .indent ::
      (Statement.marksAll yes ++ .sign .dedent ::
        (if no.isEmpty then []
          else .sign .elseWord :: .sign .colon :: .sign .indent ::
            (Statement.marksAll no ++ [.sign .dedent]))))
  | .forLoop name source body =>
    .sign .forWord :: .name name :: .sign .inWord ::
      (source.marks ++ .sign .colon :: .sign .indent ::
        (Statement.marksAll body ++ [.sign .dedent]))
  | .whileLoop condition body =>
    .sign .whileWord :: (condition.marks .whole ++ .sign .colon :: .sign .indent ::
      (Statement.marksAll body ++ [.sign .dedent]))
  | .print first rest =>
    .sign .printWord :: .sign .lparen ::
      (first.marks .whole ++ Expression.marksRest rest ++ [.sign .rparen])
  | .breakLoop => [.sign .breakWord]
  | .literals items => Literal.marks (.list items)

/-- The tokens of statements. -/
def Statement.marksAll : List Statement → List Mark
  | [] => []
  | s :: rest => s.marks ++ Statement.marksAll rest

end

/-! ## Further conditions

The text of a choice may have further conditions, each in a line of its own that starts with `elif`.
What becomes of that word depends on whether it is reserved, so the mark of the word is left open
here. -/

mutual

/-- Could the statement be written if `elif` were a reserved word?  Each block is not empty. -/
def Statement.isSpellable : Statement → Bool
  | .branch condition yes elifs no =>
    condition.isWritable && !yes.isEmpty && Statement.areSpellable yes &&
      Elif.areSpellable elifs && Statement.areSpellable no
  | .forLoop name source body =>
    isName name && source.isWritable && !body.isEmpty && Statement.areSpellable body
  | .whileLoop condition body =>
    condition.isWritable && !body.isEmpty && Statement.areSpellable body
  | s => s.isWritable

/-- Could the further condition be written? -/
def Elif.isSpellable : Elif → Bool
  | .mk condition body => condition.isWritable && !body.isEmpty && Statement.areSpellable body

/-- Could all of the statements be written? -/
def Statement.areSpellable : List Statement → Bool
  | [] => true
  | s :: rest => s.isSpellable && Statement.areSpellable rest

/-- Could all of the further conditions be written? -/
def Elif.areSpellable : List Elif → Bool
  | [] => true
  | x :: rest => x.isSpellable && Elif.areSpellable rest

end

mutual

/-- Is there a further condition in the statement, at any depth? -/
def Statement.hasElif : Statement → Bool
  | .branch _ yes elifs no =>
    Statement.haveElif yes || !elifs.isEmpty || Statement.haveElif no
  | .forLoop _ _ body => Statement.haveElif body
  | .whileLoop _ body => Statement.haveElif body
  | _ => false

/-- Is there a further condition in one of the statements? -/
def Statement.haveElif : List Statement → Bool
  | [] => false
  | s :: rest => s.hasElif || Statement.haveElif rest

end

mutual

/-- The tokens of a statement, with a mark for the word in front of further conditions. -/
def Statement.marksWith (further : Mark) : Statement → List Mark
  | .branch condition yes elifs no =>
    .sign .ifWord :: (condition.marks .whole ++ .sign .colon :: .sign .indent ::
      (Statement.marksAllWith further yes ++ .sign .dedent ::
        (Elif.marksAllWith further elifs ++
          (if no.isEmpty then []
            else .sign .elseWord :: .sign .colon :: .sign .indent ::
              (Statement.marksAllWith further no ++ [.sign .dedent])))))
  | .forLoop name source body =>
    .sign .forWord :: .name name :: .sign .inWord ::
      (source.marks ++ .sign .colon :: .sign .indent ::
        (Statement.marksAllWith further body ++ [.sign .dedent]))
  | .whileLoop condition body =>
    .sign .whileWord :: (condition.marks .whole ++ .sign .colon :: .sign .indent ::
      (Statement.marksAllWith further body ++ [.sign .dedent]))
  | s => s.marks

/-- The tokens of a further condition. -/
def Elif.marksWith (further : Mark) : Elif → List Mark
  | .mk condition body =>
    further :: (condition.marks .whole ++ .sign .colon :: .sign .indent ::
      (Statement.marksAllWith further body ++ [.sign .dedent]))

/-- The tokens of statements. -/
def Statement.marksAllWith (further : Mark) : List Statement → List Mark
  | [] => []
  | s :: rest => s.marksWith further ++ Statement.marksAllWith further rest

/-- The tokens of further conditions. -/
def Elif.marksAllWith (further : Mark) : List Elif → List Mark
  | [] => []
  | x :: rest => x.marksWith further ++ Elif.marksAllWith further rest

end

theorem Statement.writeAll_singleton (level : Nat) (s : Statement) :
    Statement.writeAll level [s] = s.write level :=
  String.append_empty

theorem Statement.marksAllWith_singleton (further : Mark) (s : Statement) :
    Statement.marksAllWith further [s] = s.marksWith further :=
  List.append_nil _

mutual

/-- Without further conditions no mark is open. -/
theorem Statement.marksWith_eq (further : Mark) : ∀ s : Statement, s.hasElif = false →
    s.marksWith further = s.marks
  | .branch condition yes [] no, h => by
    simp only [Statement.hasElif, Bool.or_eq_false_iff] at h
    rw [Statement.marksWith, Statement.marks, Statement.marksAllWith_eq further yes h.1.1,
      Statement.marksAllWith_eq further no h.2]
    rfl
  | .branch _ _ (_ :: _) _, h => by simp [Statement.hasElif] at h
  | .forLoop name source body, h => by
    rw [Statement.marksWith, Statement.marks, Statement.marksAllWith_eq further body h]
  | .whileLoop condition body, h => by
    rw [Statement.marksWith, Statement.marks, Statement.marksAllWith_eq further body h]
  | .assign .., _ | .compound .., _ | .reverse _, _ | .revtrace .., _ | .print .., _
  | .breakLoop, _ | .literals _, _ => rfl

theorem Statement.marksAllWith_eq (further : Mark) : ∀ ss : List Statement,
    Statement.haveElif ss = false → Statement.marksAllWith further ss = Statement.marksAll ss
  | [], _ => rfl
  | s :: rest, h => by
    rw [Statement.haveElif, Bool.or_eq_false_iff] at h
    rw [Statement.marksAllWith, Statement.marksAll, Statement.marksWith_eq further s h.1,
      Statement.marksAllWith_eq further rest h.2]

end

mutual

/-- What can be written is what could be written and has no further conditions. -/
theorem Statement.isWritable_eq : ∀ s : Statement, s.isWritable = (s.isSpellable && !s.hasElif)
  | .branch condition yes [] no => by
    rw [Statement.isWritable, Statement.isSpellable, Statement.hasElif,
      Statement.areWritable_eq yes, Statement.areWritable_eq no, Elif.areSpellable]
    cases Statement.haveElif yes <;> cases Statement.haveElif no <;> simp
  | .branch _ _ (_ :: _) _ => by simp [Statement.isWritable, Statement.hasElif]
  | .forLoop name source body => by
    rw [Statement.isWritable, Statement.isSpellable, Statement.hasElif,
      Statement.areWritable_eq body, Bool.and_assoc]
    simp only [Bool.and_assoc]
  | .whileLoop condition body => by
    rw [Statement.isWritable, Statement.isSpellable, Statement.hasElif,
      Statement.areWritable_eq body]
    simp only [Bool.and_assoc]
  | .assign .. | .compound .. | .reverse _ | .revtrace .. | .print .. | .breakLoop
  | .literals _ => by simp [Statement.isSpellable, Statement.hasElif]

/-- What is writable is what is spellable and has no further conditions. -/
theorem Statement.areWritable_eq : ∀ ss : List Statement,
    Statement.areWritable ss = (Statement.areSpellable ss && !Statement.haveElif ss)
  | [] => rfl
  | s :: rest => by
    rw [Statement.areWritable, Statement.areSpellable, Statement.haveElif,
      Statement.isWritable_eq s, Statement.areWritable_eq rest]
    cases s.isSpellable <;> cases s.hasElif <;> simp

end

end Phrase
end Retrace
