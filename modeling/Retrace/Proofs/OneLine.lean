import Mathlib.Order.Nat
import Retrace.Proofs.Reading

/-!
# Blocks in the line that opens them

A block may be written in the line that opens it, if it is one statement without a block of its own.
Nothing in the tokens shows where such a line ends, though: there is no token for a line break.  So
the block goes on with all statements that follow.  At the outermost level these are the statements
of the whole rest of the program.  Within an indented block the end of that block comes first, which
no statement can start with, and the program is refused there.

To say what is read of a program with such lines, it has to be known of a program how it is laid
out.  Statements do not tell, as the layout is not a part of them.  So there are statements with
their layout (`Laid`), in which each block is indented or in one line, with a text and tokens for
each of them, and with the statement that is meant.  What is read is another function of the layout
(`absorb`), in which a block in one line takes in all that follows.  The two are equal exactly if no
such line has anything behind it.

A block in one line takes in all that follows whatever reads it, a program or another block of that
sort.  The two readers differ in how they go on from one statement to the next, and share only that
they do (`ReadsAll`, `Proceeds`), so that what is read is shown for both at once.

Within an indented block the statements are not read at all, and this is shown by induction on the
layout.  A statement is refused because a block inside of it is, and a block because of a statement
in it, or because it is in one line and comes to the end of the block around it.  The refusal is
always at the token that ends a block (`EndsBlock`).

* `Simple`, `Header`: statements without a block, and the lines that open one.
* `Laid`: statements, with blocks that are indented or in one line.
* `Laid.statement`: the statement that is meant.
* `absorb`: the statements that are read at the outermost level.
* `one_line_block_goes_on`: what is read of a program.
-/

set_option autoImplicit false

namespace Retrace
namespace Phrase

/-! ## Statements and their lines -/

/-- A statement without a block. -/
inductive Simple where
  | assign (name : String) (e : Expression)
  | compound (op : Compound) (name : String) (e : Expression)
  | reverse (name : String)
  | revtrace (name : String) (position : Expression)
  | print (first : Expression) (rest : List Expression)

def Simple.statement : Simple → Statement
  | .assign name e => .assign name e
  | .compound op name e => .compound op name e
  | .reverse name => .reverse name
  | .revtrace name position => .revtrace name position
  | .print first rest => .print first rest

/-- The line of the statement. -/
def Simple.text : Simple → String
  | .assign name e => name ++ " = " ++ e.write .whole
  | .compound op name e => name ++ " " ++ op.symbol ++ " " ++ e.write .whole
  | .reverse name => "rev " ++ name
  | .revtrace name position => "revtrace " ++ name ++ " " ++ position.write .whole
  | .print first rest => "print(" ++ first.write .whole ++ Expression.writeRest rest ++ ")"

/-- A statement without a block is one line. -/
theorem Simple.write_eq (s : Simple) (level : Nat) :
    s.statement.write level = line level s.text := by
  cases s <;> rw [Simple.statement, Simple.text, Statement.write]

/-- What opens a block. -/
inductive Header where
  | choice (condition : Expression)
  | forLoop (name : String) (source : Source)
  | whileLoop (condition : Expression)

/-- The statement with this block. -/
def Header.statement (body : List Statement) : Header → Statement
  | .choice condition => .branch condition body [] []
  | .forLoop name source => .forLoop name source body
  | .whileLoop condition => .whileLoop condition body

/-- What stands in front of the block. -/
def Header.text : Header → String
  | .choice condition => "if " ++ condition.write .whole ++ ":"
  | .forLoop name source => "for " ++ name ++ " in " ++ source.write ++ ":"
  | .whileLoop condition => "while " ++ condition.write .whole ++ ":"

def Header.marks : Header → List Mark
  | .choice condition => .sign .ifWord :: (condition.marks .whole ++ [.sign .colon])
  | .forLoop name source =>
    .sign .forWord :: .name name :: .sign .inWord :: (source.marks ++ [.sign .colon])
  | .whileLoop condition => .sign .whileWord :: (condition.marks .whole ++ [.sign .colon])

def Header.isWritable : Header → Bool
  | .choice condition => condition.isWritable
  | .forLoop name source => isName name && source.isWritable
  | .whileLoop condition => condition.isWritable

theorem Header.statement_isWritable (h : Header) (body : List Statement) :
    (h.statement body).isWritable =
      (h.isWritable && !body.isEmpty && Statement.areWritable body) := by
  cases h with
  | choice => simp [Header.statement, Header.isWritable, Statement.isWritable,
      Statement.areWritable]
  | _ => simp only [Header.statement, Header.isWritable, Statement.isWritable]

/-- The tokens of a statement are those of its header, and of its block between two layout tokens.
-/
theorem Header.statement_marks (h : Header) (body : List Statement) :
    (h.statement body).marks =
      h.marks ++ .sign .indent :: (Statement.marksAll body ++ [.sign .dedent]) := by
  cases h <;> simp [Header.statement, Header.marks, Statement.marks]

/-- The tree of the statement with this block. -/
def Header.tree (body : List Tree) : Header → Tree
  | .choice condition => .branch condition.tree body [] []
  | .forLoop name source => .forLoop (.text name) source.tree body
  | .whileLoop condition => .whileLoop condition.tree body

theorem Header.statement_tree (header : Header) (body : List Statement) :
    (header.statement body).tree = header.tree (Statement.trees body) := by
  cases header <;> simp [Header.statement, Header.tree, Statement.tree, Statement.trees, Elif.trees]

theorem Header.marks_eq_cons (header : Header) :
    ∃ m ms, header.marks = m :: ms ∧ m.kind ∈ [Kind.ifWord, .forWord, .whileWord] := by
  cases header <;> exact ⟨_, _, rfl, by simp [Mark.kind]⟩

theorem Header.isSolid_text (h : Header) : isSolid h.text := by
  cases h <;> rw [Header.text] <;> repeat (first | rfl | apply isSolid_append)

theorem Header.free {h : Header} (hw : h.isWritable) : Free h.text h.marks := by
  cases h with
  | choice condition =>
    exact (free_if.next (bounded_expression condition hw .whole)).close free_colon rfl (by decide)
  | forLoop name source =>
    rw [Header.isWritable, Bool.and_eq_true] at hw
    have hfor := free_for.next (bounded_name hw.1)
    have hin := (hfor.close free_in rfl (by decide)).next (bounded_source source hw.2)
    have hline := hin.close free_colon rfl (by decide)
    rw [Header.text, Header.marks]
    simpa only [List.append_assoc, List.cons_append, List.nil_append] using hline
  | whileLoop condition =>
    exact (free_while.next (bounded_expression condition hw .whole)).close free_colon rfl
      (by decide)

/-! ## Programs with blocks of both sorts -/

/-- A statement as it is laid out: all blocks in it are indented, or its block is in the line that
opens it, or there may be blocks of both sorts within its own, which are indented. -/
inductive Laid where
  | plain (s : Statement)
  | oneLine (header : Header) (s : Simple)
  | indented (header : Header) (body : List Laid)
  | choice (condition : Expression) (yes : List Laid) (first : Laid) (no : List Laid)

mutual

/-- The statement that is meant. -/
def Laid.statement : Laid → Statement
  | .plain s => s
  | .oneLine header s => header.statement [s.statement]
  | .indented header body => header.statement (Laid.statements body)
  | .choice condition yes first no =>
    .branch condition (Laid.statements yes) [] (first.statement :: Laid.statements no)

def Laid.statements : List Laid → List Statement
  | [] => []
  | l :: rest => l.statement :: Laid.statements rest

end

mutual

/-- The lines of a statement. -/
def Laid.write (level : Nat) : Laid → String
  | .plain s => s.write level
  | .oneLine header s => line level (header.text ++ " " ++ s.text)
  | .indented header body => line level header.text ++ Laid.writeAll (level + 1) body
  | .choice condition yes first no =>
    line level (Header.choice condition).text ++ Laid.writeAll (level + 1) yes ++
      line level "else:" ++ (first.write (level + 1) ++ Laid.writeAll (level + 1) no)

def Laid.writeAll (level : Nat) : List Laid → String
  | [] => ""
  | l :: rest => l.write level ++ Laid.writeAll level rest

end

mutual

/-- The tokens of a statement.  Around a block in one line there are none. -/
def Laid.marks : Laid → List Mark
  | .plain s => s.marks
  | .oneLine header s => header.marks ++ s.statement.marks
  | .indented header body =>
    header.marks ++ .sign .indent :: (Laid.marksAll body ++ [.sign .dedent])
  | .choice condition yes first no =>
    (Header.choice condition).marks ++ .sign .indent :: (Laid.marksAll yes ++ .sign .dedent ::
      .sign .elseWord :: .sign .colon :: .sign .indent ::
        (first.marks ++ Laid.marksAll no ++ [.sign .dedent]))

def Laid.marksAll : List Laid → List Mark
  | [] => []
  | l :: rest => l.marks ++ Laid.marksAll rest

end

theorem Laid.marks_choice (condition : Expression) (yes : List Laid) (first : Laid)
    (no : List Laid) :
    (Laid.choice condition yes first no).marks =
      (Header.choice condition).marks ++ .sign .indent :: (Laid.marksAll yes ++ .sign .dedent ::
        .sign .elseWord :: .sign .colon :: .sign .indent ::
          (Laid.marksAll (first :: no) ++ [.sign .dedent])) := by
  simp only [Laid.marks, Laid.marksAll]

mutual

/-- Are all blocks indented? -/
def Laid.isWhole : Laid → Bool
  | .plain _ => true
  | .oneLine .. => false
  | .indented _ body => Laid.areWhole body
  | .choice _ yes first no => Laid.areWhole yes && first.isWhole && Laid.areWhole no

def Laid.areWhole : List Laid → Bool
  | [] => true
  | l :: rest => l.isWhole && Laid.areWhole rest

end

mutual

/-- Statements with indented blocks only have the tokens that they have always had. -/
theorem Laid.marks_of_isWhole : ∀ l : Laid, l.isWhole → l.marks = l.statement.marks
  | .plain _, _ => by rw [Laid.marks, Laid.statement]
  | .oneLine .., h => by cases h
  | .indented header body, h => by
    rw [Laid.isWhole] at h
    rw [Laid.marks, Laid.statement, Header.statement_marks, Laid.marksAll_of_areWhole body h]
  | .choice condition yes first no, h => by
    simp only [Laid.isWhole, Bool.and_eq_true] at h
    rw [Laid.marks, Laid.statement, Laid.marksAll_of_areWhole yes h.1.1,
      Laid.marks_of_isWhole first h.1.2, Laid.marksAll_of_areWhole no h.2]
    simp [Header.marks, Statement.marks, Statement.marksAll]

theorem Laid.marksAll_of_areWhole : ∀ ls : List Laid, Laid.areWhole ls →
    Laid.marksAll ls = Statement.marksAll (Laid.statements ls)
  | [], _ => by rw [Laid.marksAll, Laid.statements, Statement.marksAll]
  | l :: ls, h => by
    rw [Laid.areWhole, Bool.and_eq_true] at h
    rw [Laid.marksAll, Laid.statements, Statement.marksAll, Laid.marks_of_isWhole l h.1,
      Laid.marksAll_of_areWhole ls h.2]

end

/-- Is the block in the line that opens it? -/
def Laid.isOneLine : Laid → Bool
  | .oneLine .. => true
  | _ => false

/-- Are there no blocks in one line within indented blocks? -/
def Laid.isSound (l : Laid) : Bool :=
  l.isWhole || l.isOneLine

/-- The statements that are read at the outermost level: a block in one line goes on with all that
follows. -/
def absorb : List Laid → List Statement
  | [] => []
  | .oneLine header s :: rest => [header.statement (s.statement :: absorb rest)]
  | l :: rest => l.statement :: absorb rest

/-- A statement may be whole, or have its block in one line, or neither. -/
theorem Laid.sorts (l : Laid) :
    l.isWhole = true ∧ l.isOneLine = false ∨ (∃ header s, l = .oneLine header s) ∨
      l.isWhole = false ∧ l.isOneLine = false := by
  cases l with
  | oneLine header s => exact .inr (.inl ⟨header, s, rfl⟩)
  | _ =>
    cases hwhole : Laid.isWhole _ with
    | true => exact .inl ⟨rfl, rfl⟩
    | false => exact .inr (.inr ⟨rfl, rfl⟩)

theorem absorb_of_not_oneLine {l : Laid} (h : l.isOneLine = false) (ls : List Laid) :
    absorb (l :: ls) = l.statement :: absorb ls := by
  cases l with
  | oneLine header s => cases h
  | _ => rfl

theorem Laid.statements_length (ls : List Laid) : (Laid.statements ls).length = ls.length := by
  induction ls with
  | nil => rfl
  | cons l ls ih => rw [Laid.statements, List.length_cons, List.length_cons, ih]

/-- If nothing follows a block in one line, then what is read is what is meant. -/
theorem absorb_eq_statements {ls : List Laid} (h : ∀ l ∈ ls.dropLast, l.isOneLine = false) :
    absorb ls = Laid.statements ls := by
  induction ls with
  | nil => rfl
  | cons l ls ih =>
    cases ls with
    | nil => cases l <;> rfl
    | cons l' ls =>
      rw [List.dropLast_cons_cons, List.forall_mem_cons] at h
      rw [absorb_of_not_oneLine h.1, Laid.statements, ih h.2]

/-- If something does, there are fewer statements. -/
theorem isOneLine_of_length_absorb {ls : List Laid} (h : (absorb ls).length = ls.length) :
    ∀ l ∈ ls.dropLast, l.isOneLine = false := by
  induction ls with
  | nil => simp
  | cons l ls ih =>
    cases ls with
    | nil => simp
    | cons l' ls =>
      rw [List.dropLast_cons_cons, List.forall_mem_cons]
      cases hl : l.isOneLine with
      | true =>
        cases l with
        | oneLine header s => simp [absorb] at h
        | _ => cases hl
      | false =>
        rw [absorb_of_not_oneLine hl, List.length_cons, List.length_cons, Nat.succ_inj] at h
        exact ⟨rfl, ih h⟩

/-! ## Cutting the lines into tokens -/

theorem starts_writable {s : Statement} (h : s.isWritable) {level : Nat} {text : List Char}
    {ms : List Mark} (hrest : Ensues level text ms) :
    Starts level ((s.write level).toList ++ text) (s.marks ++ ms) := by
  rw [Statement.isWritable_eq, Bool.and_eq_true, Bool.not_eq_true'] at h
  rw [← Statement.marksWith_eq (.name "elif") s h.2]
  exact starts_statement s h.1 hrest

mutual

/-- The text of a statement with its layout is cut into its tokens. -/
theorem starts_laid : ∀ (l : Laid), l.statement.isWritable →
    ∀ {level : Nat} {text : List Char} {ms : List Mark}, Ensues level text ms →
      Starts level ((l.write level).toList ++ text) (l.marks ++ ms)
  | .plain s, h, level, text, ms, hrest => by
    rw [Laid.write, Laid.marks]
    exact starts_writable h hrest
  | .oneLine header s, h, level, text, ms, hrest => by
    simp only [Laid.statement, Header.statement_isWritable, Statement.areWritable,
      Bool.and_eq_true] at h
    have hline := starts_writable h.2.1 hrest
    rw [s.write_eq] at hline
    have hspace := (Header.free h.1.1).append free_space
    rw [List.append_nil] at hspace
    rw [Laid.write, Laid.marks, List.append_assoc]
    exact hline.behind hspace (isSolid_append header.isSolid_text)
  | .indented header body, h, level, text, ms, hrest => by
    simp only [Laid.statement, Header.statement_isWritable, Bool.and_eq_true, Bool.not_eq_true',
      List.isEmpty_eq_false_iff] at h
    obtain ⟨⟨hheader, hne⟩, hbody⟩ := h
    have hblock := ((ensues_laid body hbody hrest.dedent).2 hne).indent
    have hstatement := starts_line (Header.free hheader).bounded header.isSolid_text hblock
    rw [Laid.write, Laid.marks, String.toList_append, List.append_assoc]
    simpa only [List.append_assoc, List.cons_append, List.nil_append] using hstatement
  | .choice condition yes first no, h, level, text, ms, hrest => by
    simp only [Laid.statement, Statement.isWritable, Statement.areWritable, Bool.and_eq_true,
      Bool.not_eq_true', List.isEmpty_eq_false_iff] at h
    obtain ⟨⟨⟨⟨hcondition, hne⟩, hyes⟩, -⟩, hfirst, hno⟩ := h
    have hlast := (starts_laid first hfirst (ensues_laid no hno hrest.dedent).1).indent
    have helse := starts_line free_else.bounded rfl hlast
    have hblock := ((ensues_laid yes hyes helse.ensues.dedent).2 hne).indent
    have hheader : (Header.choice condition).isWritable := hcondition
    have hstatement := starts_line (Header.free hheader).bounded (Header.isSolid_text _) hblock
    simp only [Laid.write, Laid.marks, String.toList_append, List.append_assoc, List.cons_append,
      List.nil_append] at hstatement ⊢
    exact hstatement

theorem ensues_laid : ∀ (ls : List Laid), Statement.areWritable (Laid.statements ls) →
    ∀ {level : Nat} {text : List Char} {ms : List Mark}, Ensues level text ms →
      Ensues level ((Laid.writeAll level ls).toList ++ text) (Laid.marksAll ls ++ ms) ∧
        (Laid.statements ls ≠ [] →
          Starts level ((Laid.writeAll level ls).toList ++ text) (Laid.marksAll ls ++ ms))
  | [], _, _, _, _, hrest => ⟨hrest, fun h => absurd rfl h⟩
  | l :: ls, h, level, text, ms, hrest => by
    rw [Laid.statements, Statement.areWritable, Bool.and_eq_true] at h
    have hl := starts_laid l h.1 (ensues_laid ls h.2 hrest).1
    rw [Laid.writeAll, Laid.marksAll, String.toList_append, List.append_assoc, List.append_assoc]
    exact ⟨hl.ensues, fun _ => hl⟩

end

/-- The text of a program is cut into its tokens. -/
theorem ofSource_laid {program : List Laid}
    (h : Statement.areWritable (Laid.statements program)) :
    ∃ ts, Token.ofSource (Laid.writeAll 0 program) = .ok ts ∧
      Spells (Laid.marksAll program) ts [] := by
  cases program with
  | nil => exact ofSource_program h
  | cons l ls =>
    have hstarts := (ensues_laid (l :: ls) h ensues_end).2 (by simp [Laid.statements])
    rw [List.append_nil, List.append_nil] at hstarts
    exact hstarts.scan 1 0

end Phrase

namespace Grammar

open Phrase

variable {fuel : Nat} {t : Token} {ts rest : List Token} {ms : List Mark}

/-! ## What follows a header -/

/-- What is read of a statement after its first block. -/
def headerRest (fuel : Nat) (body : List Tree) : Header → Parse Tree
  | .choice condition => do
    let elifs ← elifBranches fuel
    if ← sees .elseWord then
      advance
      let _ ← take .colon
      return .branch condition.tree body elifs (← block fuel)
    else return .branch condition.tree body elifs []
  | header => return header.tree body

theorem headerRest_of_fresh (header : Header) (body : List Tree) (h : Fresh rest) :
    headerRest (fuel + 1) body header rest = .ok (header.tree body) rest := by
  cases header with
  | choice condition =>
    have helif : elifBranches (fuel + 1) rest = .ok [] rest :=
      elifBranches_of_ne (h.of_kinds (P := (· ≠ .elifWord)) (by decide))
    have helse := sees_of_ne (h.of_kinds (P := (· ≠ .elseWord)) (by decide))
    rw [headerRest, bind_of_ok helif, bind_of_ok helse]
    rfl
  | _ => rfl

/-- After the line that opens a block, the block is read. -/
theorem header_reads {header : Header} (h : header.isWritable)
    (hfuel : header.marks.length + 1 < fuel) {mid : List Token}
    (hs : Spells header.marks ts mid) :
    statement (fuel + 2) ts = (block fuel >>= fun body => headerRest fuel body header) mid := by
  cases header with
  | choice condition =>
    rw [Header.marks] at hs hfuel
    rw [List.length_cons, List.length_append, List.length_singleton] at hfuel
    obtain ⟨_, hbranch, rfl⟩ := branch_of_condition h (by omega : _ < fuel) hs
    obtain ⟨t, ts, rfl, ht, -⟩ := hs
    rw [statement_of_if ht, hbranch]
    rfl
  | forLoop name source =>
    rw [Header.isWritable, Bool.and_eq_true] at h
    rw [Header.marks] at hs hfuel
    simp only [List.length_cons, List.length_append, List.length_nil] at hfuel
    obtain ⟨t, _, rfl, ht, n, _, rfl, hn, w, _, rfl, hw, hs⟩ := hs
    obtain ⟨_, hs₁, c, _, rfl, hc, rfl⟩ := spells_append.1 hs
    rw [statement_of_for ht, forLoop, bind_of_ok (take_cons ht _), bind_of_ok (take_cons hn.1 _),
      hn.2, bind_of_ok (take_cons hw _),
      bind_of_ok (iterable_reads h.2 (by omega) hs₁ (ended_cons hc (by decide))),
      bind_of_ok (take_cons hc _)]
    rfl
  | whileLoop condition =>
    rw [Header.marks] at hs hfuel
    simp only [List.length_cons, List.length_append, List.length_nil] at hfuel
    obtain ⟨t, _, rfl, ht, hs⟩ := hs
    obtain ⟨_, hs₁, c, _, rfl, hc, rfl⟩ := spells_append.1 hs
    rw [statement_of_while ht, whileLoop, bind_of_ok (take_cons ht _),
      bind_of_ok ((reads condition h).whole.read (by omega) hs₁ (ended_cons hc (by decide))),
      bind_of_ok (kind_cons c _)]
    simp only [show c.kind = .colon from hc]
    rfl

/-! ## Statement after statement -/

/-- Where a block that is not enclosed ends. -/
def flatStops : List Kind :=
  [.elifWord, .elseWord, .newline]

/-- At these tokens, the statements are read by reading one statement and then the others. -/
def Proceeds (R : Nat → Parse (List Tree)) (ts : List Token) : Prop :=
  ∀ fuel, ∃ k, fuel ≤ k ∧
    (∀ {tree mid}, statement k ts = .ok tree mid → Fresh mid →
      R (fuel + 1) ts = (R fuel >>= fun more => pure (tree :: more)) mid) ∧
    ∀ {P}, RefusesAt P (statement k) ts → RefusesAt P (R (fuel + 1)) ts

theorem statements_of_not_stop {stops : List Kind} (h : stops.contains t.kind = false) :
    statements stops (fuel + 1) (t :: ts) = (do
      let first ← statement fuel
      if ← sees .newline then advance
      return first :: (← statements stops fuel) : Parse (List Tree)) (t :: ts) := by
  rw [statements, bind_of_ok (current?_apply _)]
  simp only [List.head?_cons, h, Bool.false_eq_true, if_false]

/-- A block goes on with the next statement, unless it ends there. -/
theorem proceeds_statements {stops : List Kind} (hstops : stops = [.dedent] ∨ stops = flatStops)
    (ht : t.kind ∈ startKinds) : Proceeds (statements stops) (t :: ts) := by
  intro fuel
  have hcontains : stops.contains t.kind = false := by
    generalize t.kind = k at ht
    revert k
    rcases hstops with rfl | rfl <;> decide
  refine ⟨fuel, le_rfl, fun {tree mid} hread hmid => ?_, fun {P} hrefused => ?_⟩
  · rw [statements_of_not_stop hcontains, bind_of_ok hread, bind_of_ok hmid.sees,
      if_neg (by decide)]
  · rw [RefusesAt, statements_of_not_stop hcontains]
    exact hrefused.bind _

theorem block_of_start (ht : t.kind ∈ startKinds) :
    block (fuel + 1) (t :: ts) = statements flatStops fuel (t :: ts) := by
  rw [block, bind_of_ok (kind_cons t ts)]
  generalize t.kind = k at ht ⊢
  cases k <;> first | rfl | exact absurd ht (by decide)

/-- So does a program. -/
theorem proceeds_program (h : ∀ fuel, program (fuel + 1) ts = statementThen fuel ts) :
    Proceeds program ts := by
  intro fuel
  refine ⟨fuel + 1, Nat.le_succ fuel, fun {tree mid} hread _ => ?_, fun {P} hrefused => ?_⟩
  · rw [h, statementThen, bind_of_ok hread]
  · rw [RefusesAt, h]
    exact hrefused.bind _

theorem writable_marks_eq_cons {s : Statement} (h : s.isWritable) :
    ∃ m ms, s.marks = m :: ms ∧ m.kind ∈ startKinds := by
  rw [Statement.isWritable_eq, Bool.and_eq_true, Bool.not_eq_true'] at h
  rw [← Statement.marksWith_eq (.sign .elifWord) s h.2]
  exact statement_marks_eq_cons (.sign .elifWord) s h.1

/-- A statement that is laid out in any way starts as statements do, and all but those of the first
sort start with a word that opens a block. -/
theorem laid_marks_eq_cons {l : Laid} (h : l.statement.isWritable) :
    ∃ m ms, l.marks = m :: ms ∧ m.kind ∈ startKinds ∧
      ((∃ s, l = .plain s) ∨ m.kind ∈ [Kind.ifWord, .forWord, .whileWord]) := by
  have hwords : ∀ k ∈ [Kind.ifWord, .forWord, .whileWord], k ∈ startKinds := by decide
  cases l with
  | plain s =>
    rw [Laid.statement] at h
    obtain ⟨m, ms, hm, hkind⟩ := writable_marks_eq_cons h
    exact ⟨m, ms, by rw [Laid.marks, hm], hkind, .inl ⟨s, rfl⟩⟩
  | oneLine header s =>
    obtain ⟨m, ms, hm, hkind⟩ := header.marks_eq_cons
    exact ⟨m, _, by rw [Laid.marks, hm]; rfl, hwords _ hkind, .inr hkind⟩
  | indented header body =>
    obtain ⟨m, ms, hm, hkind⟩ := header.marks_eq_cons
    exact ⟨m, _, by rw [Laid.marks, hm]; rfl, hwords _ hkind, .inr hkind⟩
  | choice condition yes first no =>
    obtain ⟨m, ms, hm, hkind⟩ := Header.marks_eq_cons (.choice condition)
    exact ⟨m, _, by rw [Laid.marks, hm]; rfl, hwords _ hkind, .inr hkind⟩

theorem program_of_laid {l : Laid} (h : l.statement.isWritable) (hbreak : l.statement ≠ .breakLoop)
    (hs : Spells l.marks ts rest) : program (fuel + 1) ts = statementThen fuel ts := by
  obtain ⟨m, ms, hm, -, ⟨s, rfl⟩ | hkind⟩ := laid_marks_eq_cons h
  · rw [Laid.statement, Statement.isWritable_eq, Bool.and_eq_true, Bool.not_eq_true'] at h
    rw [Laid.marks, ← Statement.marksWith_eq (.sign .elifWord) s h.2] at hs
    exact program_of_statement h.1 hbreak hs
  · rw [hm] at hs
    obtain ⟨t, ts, rfl, ht, -⟩ := hs
    refine program_of_word ?_
    rw [ht.kind_eq]
    generalize m.kind = k at hkind
    revert k
    decide

/-- Another statement or the end of a block, or nothing, follows. -/
theorem fresh_of_laid {ls : List Laid} (h : Statement.areWritable (Laid.statements ls))
    (hs : Spells (Laid.marksAll ls) ts rest) (hrest : Fresh rest) : Fresh ts := by
  cases ls with
  | nil => exact (spells_nil.1 hs) ▸ hrest
  | cons l ls =>
    rw [Laid.statements, Statement.areWritable, Bool.and_eq_true] at h
    obtain ⟨m, ms, hm, hkind, -⟩ := laid_marks_eq_cons h.1
    rw [Laid.marksAll, hm] at hs
    obtain ⟨t, ts, rfl, ht, -⟩ := hs
    exact fresh_cons ht.kind_eq (List.mem_cons_of_mem _ hkind)

/-! ## One statement -/

theorem writable_reads {s : Statement} (h : s.isWritable) (hfuel : s.marks.length < fuel)
    (hs : Spells s.marks ts rest) (hrest : Fresh rest) :
    statement fuel ts = .ok s.tree rest := by
  rw [Statement.isWritable_eq, Bool.and_eq_true, Bool.not_eq_true'] at h
  rw [← Statement.marksWith_eq (.sign .elifWord) s h.2] at hs hfuel
  obtain ⟨fuel, rfl⟩ : ∃ f, fuel = f + 1 := ⟨fuel - 1, by omega⟩
  exact statement_reads s h.1 (Nat.le_of_lt_succ hfuel) hs hrest

/-- Of a statement with its block in one line, the rest is what the statements that follow are read
as. -/
theorem oneLine_reads {header : Header} {s : Simple}
    (h : (Laid.oneLine header s).statement.isWritable)
    (hfuel : (Laid.oneLine header s).marks.length < fuel) {mid : List Token}
    (hs : Spells (Laid.oneLine header s).marks ts mid) (hmid : Fresh mid) :
    statement (fuel + 4) ts =
      (statements flatStops fuel >>= fun more =>
        headerRest (fuel + 2) (s.statement.tree :: more) header) mid := by
  simp only [Laid.statement, Header.statement_isWritable, Statement.areWritable,
    Bool.and_eq_true] at h
  rw [Laid.marks] at hs hfuel
  rw [List.length_append] at hfuel
  obtain ⟨_, hs₁, hs₂⟩ := spells_append.1 hs
  have hread : ∀ k, fuel ≤ k → statement k _ = .ok s.statement.tree mid := fun k hk =>
    writable_reads h.2.1 (by omega) hs₂ hmid
  obtain ⟨m, ms, hm, hkind⟩ := writable_marks_eq_cons h.2.1
  rw [hm] at hs₂
  obtain ⟨t, ts', rfl, ht, -⟩ := hs₂
  have hstart : t.kind ∈ startKinds := ht.kind_eq ▸ hkind
  obtain ⟨k, hk, hok, -⟩ := proceeds_statements (.inr rfl) hstart fuel
  rw [header_reads h.1.1 (by omega) hs₁, bind_apply, block_of_start hstart,
    hok (hread k hk) hmid, bind_apply, bind_apply]
  cases statements flatStops fuel mid <;> rfl

/-- A statement in which all blocks are indented is read as it is meant. -/
theorem whole_reads {l : Laid} (h : l.statement.isWritable) (hwhole : l.isWhole)
    (hfuel : l.marks.length < fuel) (hs : Spells l.marks ts rest) (hrest : Fresh rest) :
    statement fuel ts = .ok l.statement.tree rest := by
  rw [l.marks_of_isWhole hwhole] at hs hfuel
  exact writable_reads h hfuel hs hrest

theorem whole_block {ls : List Laid} (h : Statement.areWritable (Laid.statements ls))
    (hwhole : Laid.areWhole ls) (hfuel : (Laid.marksAll ls).length + 2 < fuel)
    (hs : Spells (.sign .indent :: (Laid.marksAll ls ++ .sign .dedent :: ms)) ts rest) :
    ∃ mid, block fuel ts = .ok (Statement.trees (Laid.statements ls)) mid ∧ Spells ms mid rest := by
  rw [Statement.areWritable_eq, Bool.and_eq_true, Bool.not_eq_true'] at h
  rw [Laid.marksAll_of_areWhole ls hwhole,
    ← Statement.marksAllWith_eq (.sign .elifWord) _ h.2] at hs hfuel
  exact (blockReads _ h.1).block hfuel hs

/-! ## Refusals -/

/-- The token ends an indented block. -/
def EndsBlock (t : Token) : Prop :=
  t.kind = .dedent

theorem statement_of_dedent (ht : t.kind = .dedent) :
    statement (fuel + 1) (t :: ts) = .error (.unexpected (some t)) (t :: ts) := by
  rw [statement, bind_of_ok (kind_cons t ts)]
  simp only [ht]
  rfl

/-- A statement is refused if there is a block in one line within an indented block of it. -/
structure LaidRefused (l : Laid) : Prop where
  refused {fuel : Nat} {ts rest : List Token} (hwhole : l.isWhole = false)
    (hne : l.isOneLine = false) (hfuel : 6 * l.marks.length + 3 < fuel)
    (hs : Spells l.marks ts rest) : RefusesAt EndsBlock (statement fuel) ts

/-- A block in one line that an indented block holds has no end, and the indented block is refused
at its own. -/
structure BlockRefused (ls : List Laid) : Prop where
  refused {stops : List Kind} {fuel : Nat} {ts rest : List Token}
    (hstops : stops = [.dedent] ∧ Laid.areWhole ls = false ∨ stops = flatStops)
    (hfuel : 6 * (Laid.marksAll ls).length + 4 < fuel)
    (hs : Spells (Laid.marksAll ls ++ [.sign .dedent]) ts rest) :
    RefusesAt EndsBlock (statements stops fuel) ts

theorem BlockRefused.block {ls : List Laid} (h : BlockRefused ls)
    (hwhole : Laid.areWhole ls = false) (hfuel : 6 * (Laid.marksAll ls).length + 5 < fuel)
    (hs : Spells (.sign .indent :: (Laid.marksAll ls ++ .sign .dedent :: ms)) ts rest) :
    RefusesAt EndsBlock (block fuel) ts := by
  obtain ⟨fuel, rfl⟩ : ∃ f, fuel = f + 1 := ⟨fuel - 1, by omega⟩
  obtain ⟨t, ts, rfl, ht, hs⟩ := hs
  obtain ⟨_, hs, d, mid, rfl, hd, -⟩ := spells_append.1 hs
  have hs' : Spells (Laid.marksAll ls ++ [.sign .dedent]) ts mid :=
    spells_append.2 ⟨_, hs, d, mid, rfl, hd, rfl⟩
  rw [RefusesAt, Grammar.block, bind_of_ok (kind_cons t ts)]
  simp only [show t.kind = .indent from ht]
  rw [bind_of_ok (advance_apply _)]
  exact (h.refused (.inl ⟨rfl, hwhole⟩) (by omega) hs').bind _

theorem BlockRefused.nil : BlockRefused [] where
  refused {stops fuel ts rest} hstops hfuel hs := by
    rcases hstops with ⟨-, hwhole⟩ | rfl
    · cases hwhole
    · obtain ⟨fuel, rfl⟩ : ∃ f, fuel = f + 2 := ⟨fuel - 2, by omega⟩
      obtain ⟨t, ts, rfl, ht, -⟩ := hs
      have ht' : t.kind = .dedent := ht
      have hrefused : RefusesAt EndsBlock (statement (fuel + 1)) (t :: ts) :=
        ⟨t, ts, ht, statement_of_dedent ht⟩
      rw [RefusesAt, statements_of_not_stop (by rw [ht']; decide)]
      exact hrefused.bind _

/-- A block is refused in its first statement or in the others. -/
theorem BlockRefused.cons {l : Laid} {ls : List Laid} (hl : l.statement.isWritable)
    (hls : Statement.areWritable (Laid.statements ls)) (h : LaidRefused l)
    (hrest : BlockRefused ls) : BlockRefused (l :: ls) where
  refused {stops fuel ts rest} hstops hfuel hs := by
    rw [Laid.marksAll] at hs hfuel
    rw [List.length_append] at hfuel
    rw [List.append_assoc] at hs
    obtain ⟨mid, hs₁, hs₂⟩ := spells_append.1 hs
    have hmid : Fresh mid := by
      obtain ⟨_, hs₂, d, _, rfl, hd, -⟩ := spells_append.1 hs₂
      exact fresh_of_laid hls hs₂ (fresh_cons hd (by decide))
    obtain ⟨m, ms, hm, hkind, -⟩ := laid_marks_eq_cons hl
    obtain ⟨u, us, rfl, hstart⟩ : ∃ u us, ts = u :: us ∧ u.kind ∈ startKinds := by
      rw [hm] at hs₁
      obtain ⟨u, us, rfl, hu, -⟩ := hs₁
      exact ⟨u, us, rfl, hu.kind_eq ▸ hkind⟩
    have hpos : 0 < l.marks.length := by simp [hm]
    obtain ⟨fuel, rfl⟩ : ∃ f, fuel = f + 1 := ⟨fuel - 1, by omega⟩
    obtain ⟨k, hk, hok, hrefused⟩ :=
      proceeds_statements (hstops.imp_left And.left) hstart fuel
    -- A whole statement is read and the rest is refused.  A block in one line takes the rest for
    -- its own.  Any other statement is refused itself.
    rcases l.sorts with ⟨hwhole, -⟩ | ⟨header, s, rfl⟩ | ⟨hwhole, hne⟩
    · have hstops' : stops = [.dedent] ∧ Laid.areWhole ls = false ∨ stops = flatStops := by
        simpa [Laid.areWhole, hwhole] using hstops
      rw [RefusesAt, hok (whole_reads hl hwhole (by omega) hs₁ hmid) hmid]
      exact (hrest.refused hstops' (by omega) hs₂).bind _
    · refine hrefused ?_
      obtain ⟨k, rfl⟩ : ∃ j, k = j + 4 := ⟨k - 4, by omega⟩
      rw [RefusesAt, oneLine_reads hl (by omega) hs₁ hmid]
      exact (hrest.refused (.inr rfl) (by omega) hs₂).bind _
    · exact hrefused (h.refused hwhole hne (by omega) hs₁)

theorem BlockRefused.indented {ls : List Laid} {header : Header}
    (h : (Laid.indented header ls).statement.isWritable) (hrest : BlockRefused ls) :
    LaidRefused (.indented header ls) where
  refused {fuel ts rest} hwhole _ hfuel hs := by
    simp only [Laid.statement, Header.statement_isWritable, Bool.and_eq_true] at h
    rw [Laid.isWhole] at hwhole
    rw [Laid.marks] at hs hfuel
    simp only [List.length_append, List.length_cons, List.length_nil] at hfuel
    obtain ⟨fuel, rfl⟩ : ∃ f, fuel = f + 2 := ⟨fuel - 2, by omega⟩
    obtain ⟨_, hs₁, hs₂⟩ := spells_append.1 hs
    rw [RefusesAt, header_reads h.1.1 (by omega) hs₁]
    exact (hrest.block hwhole (by omega) hs₂).bind _

theorem BlockRefused.choice {condition : Expression} {yes no : List Laid} {first : Laid}
    (h : (Laid.choice condition yes first no).statement.isWritable) (hyes : BlockRefused yes)
    (hno : BlockRefused (first :: no)) : LaidRefused (.choice condition yes first no) where
  refused {fuel ts rest} hwhole _ hfuel hs := by
    simp only [Laid.statement, Statement.isWritable, Bool.and_eq_true] at h
    obtain ⟨⟨⟨⟨hcondition, -⟩, hwritable⟩, -⟩, -⟩ := h
    have hheader : (Header.choice condition).isWritable := hcondition
    rw [Laid.marks_choice] at hs hfuel
    simp only [List.length_append, List.length_cons, List.length_nil] at hfuel
    obtain ⟨fuel, rfl⟩ : ∃ f, fuel = f + 3 := ⟨fuel - 3, by omega⟩
    obtain ⟨_, hs₁, hs₂⟩ := spells_append.1 hs
    rw [RefusesAt, header_reads hheader (by omega) hs₁]
    cases hclear : Laid.areWhole yes with
    | false => exact (hyes.block hclear (by omega) hs₂).bind _
    | true =>
      have hlast : Laid.areWhole (first :: no) = false := by
        simpa [Laid.isWhole, Laid.areWhole, hclear] using hwhole
      obtain ⟨_, hblock, w, _, rfl, hw, c, cs, rfl, hc, hs₃⟩ :=
        whole_block hwritable hclear (by omega : _ < fuel + 1) hs₂
      have helif : elifBranches (fuel + 1) (w :: c :: cs) = .ok [] (w :: c :: cs) :=
        elifBranches_of_ne (forall_head_cons (P := (· ≠ .elifWord)) hw (by decide))
      rw [bind_of_ok hblock, headerRest, bind_of_ok helif, bind_of_ok (sees_cons .elseWord w _),
        show w.kind = .elseWord from hw, if_pos BEq.rfl, bind_of_ok (advance_apply _),
        List.tail_cons, bind_of_ok (take_cons hc _)]
      exact (hno.block hlast (by omega) hs₃).bind _

mutual

/-- A statement that holds a block in one line further inside is refused. -/
theorem laid_refused : ∀ (l : Laid), l.statement.isWritable → LaidRefused l
  | .plain _, _ => ⟨fun hwhole => by cases hwhole⟩
  | .oneLine .., _ => ⟨fun _ hne => by cases hne⟩
  | .indented header body, h => by
    have hbody : Statement.areWritable (Laid.statements body) := by
      rw [Laid.statement, Header.statement_isWritable, Bool.and_eq_true] at h
      exact h.2
    exact (block_refused body hbody).indented h
  | .choice condition yes first no, h => by
    have hblocks := h
    simp only [Laid.statement, Statement.isWritable, Statement.areWritable, Bool.and_eq_true]
      at hblocks
    obtain ⟨⟨⟨-, hyes⟩, -⟩, hfirst, hno⟩ := hblocks
    exact (block_refused yes hyes).choice h
      (.cons hfirst hno (laid_refused first hfirst) (block_refused no hno))

/-- So is a block that holds one. -/
theorem block_refused : ∀ (ls : List Laid), Statement.areWritable (Laid.statements ls) →
    BlockRefused ls
  | [], _ => .nil
  | l :: ls, h => by
    rw [Laid.statements, Statement.areWritable, Bool.and_eq_true] at h
    exact .cons h.1 h.2 (laid_refused l h.1) (block_refused ls h.2)

end

/-! ## Programs -/

/-- The statements are read one after the other, up to the end of the tokens. -/
structure ReadsAll (R : Nat → Parse (List Tree)) : Prop where
  nil (fuel : Nat) : R (fuel + 1) [] = .ok [] []
  proceeds {l : Laid} {ts rest : List Token} (h : l.statement.isWritable)
    (hbreak : l.statement ≠ .breakLoop) (hs : Spells l.marks ts rest) : Proceeds R ts

theorem readsAll_flat : ReadsAll (statements flatStops) where
  nil fuel := by
    rw [statements]
    rfl
  proceeds h _ hs := by
    obtain ⟨m, ms, hm, hkind, -⟩ := laid_marks_eq_cons h
    rw [hm] at hs
    obtain ⟨t, ts, rfl, ht, -⟩ := hs
    exact proceeds_statements (.inr rfl) (ht.kind_eq ▸ hkind)

theorem readsAll_program : ReadsAll program where
  nil fuel := by
    rw [program]
    rfl
  proceeds h hbreak hs := proceeds_program fun _ => program_of_laid h hbreak hs

/-- Up to the end of the tokens, statements are read as `absorb` says, unless they are refused. -/
theorem ReadsAll.absorbs {R : Nat → Parse (List Tree)} (hR : ReadsAll R) (ls : List Laid)
    (h : Statement.areWritable (Laid.statements ls))
    (hbreak : (Laid.statements ls).all fun s => !(s matches .breakLoop))
    (hfuel : 6 * (Laid.marksAll ls).length + 4 < fuel) (hs : Spells (Laid.marksAll ls) ts []) :
    (ls.all Laid.isSound → R fuel ts = .ok (Statement.trees (absorb ls)) []) ∧
    (ls.all Laid.isSound = false → RefusesAt EndsBlock (R fuel) ts) := by
  induction ls generalizing R fuel ts with
  | nil =>
    obtain ⟨fuel, rfl⟩ : ∃ f, fuel = f + 1 := ⟨fuel - 1, by omega⟩
    rw [spells_nil.1 hs, hR.nil]
    exact ⟨fun _ => rfl, fun hsound => by cases hsound⟩
  | cons l ls ih =>
    rw [Laid.statements, Statement.areWritable, Bool.and_eq_true] at h
    rw [Laid.statements, List.all_cons, Bool.and_eq_true] at hbreak
    rw [Laid.marksAll] at hs hfuel
    rw [List.length_append] at hfuel
    obtain ⟨mid, hs₁, hs₂⟩ := spells_append.1 hs
    have hmid : Fresh mid := fresh_of_laid h.2 hs₂ fun t ht => by cases ht
    have hpos : 0 < l.marks.length := by
      obtain ⟨m, ms, hm, -⟩ := laid_marks_eq_cons h.1
      simp [hm]
    obtain ⟨fuel, rfl⟩ : ∃ f, fuel = f + 1 := ⟨fuel - 1, by omega⟩
    obtain ⟨k, hk, hok, hrefused⟩ := hR.proceeds h.1 (ne_breakLoop hbreak.1) hs₁ fuel
    rcases l.sorts with ⟨hwhole, hne⟩ | ⟨header, s, rfl⟩ | ⟨hwhole, hne⟩
    · obtain ⟨hsound, hunsound⟩ := ih hR h.2 hbreak.2 (by omega : _ < fuel) hs₂
      have hall : (l :: ls).all Laid.isSound = ls.all Laid.isSound := by
        simp [Laid.isSound, hwhole]
      rw [hall, RefusesAt, hok (whole_reads h.1 hwhole (by omega : _ < k) hs₁ hmid) hmid,
        absorb_of_not_oneLine hne]
      refine ⟨fun hls => ?_, fun hls => (hunsound hls).bind _⟩
      rw [bind_of_ok (hsound hls)]
      rfl
    · -- The statements after this one are read as its block, and nothing is left after that.
      obtain ⟨k, rfl⟩ : ∃ j, k = j + 4 := ⟨k - 4, by omega⟩
      obtain ⟨fuel, rfl⟩ : ∃ f, fuel = f + 1 := ⟨fuel - 1, by omega⟩
      obtain ⟨hsound, hunsound⟩ := ih readsAll_flat h.2 hbreak.2 (by omega : _ < k) hs₂
      have hread := oneLine_reads h.1 (by omega : _ < k) hs₁ hmid
      have hall : (Laid.oneLine header s :: ls).all Laid.isSound = ls.all Laid.isSound := rfl
      rw [hall]
      refine ⟨fun hls => ?_, fun hls => hrefused ?_⟩
      · have hend : Fresh [] := fun t ht => by cases ht
        rw [bind_of_ok (hsound hls), headerRest_of_fresh header _ hend] at hread
        rw [hok hread hend, bind_of_ok (hR.nil fuel), absorb, Statement.trees, Statement.trees,
          header.statement_tree, Statement.trees]
        rfl
      · rw [RefusesAt, hread]
        exact (hunsound hls).bind _
    · have hall : (l :: ls).all Laid.isSound = false := by simp [Laid.isSound, hwhole, hne]
      rw [hall]
      refine ⟨fun hls => absurd hls (by decide), fun _ => hrefused ?_⟩
      exact (laid_refused l h.1).refused hwhole hne (by omega) hs₁

end Grammar

open Phrase Grammar

theorem read_of_program {source : String} {ts rest : List Token} {trees : List Tree}
    (hts : Token.ofSource source = .ok ts) (h : program (enough ts) ts = .ok trees rest) :
    Run.read source = .ok trees := by
  have hparse : parse ts = .ok trees := by rw [parse, run, h]
  rw [Run.read, hts]
  simp only [hparse]
  rfl

theorem read_of_refused {source : String} {ts : List Token} {P : Token → Prop}
    (hts : Token.ofSource source = .ok ts) (h : RefusesAt P (program (enough ts)) ts) :
    ∃ t, P t ∧ Run.read source = .error (.parse, .unexpected (some t)) := by
  obtain ⟨t, rest, ht, h⟩ := h
  have hparse : parse ts = .error (.unexpected (some t)) := by rw [parse, run, h]
  refine ⟨t, ht, ?_⟩
  rw [Run.read, hts]
  simp only [hparse]
  rfl

/-- **A block in one line goes on after its line.**

With all blocks indented, the text of a program gives the statements that are meant.  With blocks in
the lines that open them, it gives these statements only if no block in one line stands within an
indented one, and at the outermost level only the last statement has its block in one line.  If
another one has, that block goes on up to the end of the program.  If one stands within an indented
block, the program is refused at the end of an indented block. -/
theorem one_line_block_goes_on (program : List Laid)
    (h : isWritableProgram (Laid.statements program)) :
    Run.read (Statement.writeAll 0 (Laid.statements program)) =
      .ok (Statement.trees (Laid.statements program)) ∧
    (program.all Laid.isSound →
      Run.read (Laid.writeAll 0 program) = .ok (Statement.trees (absorb program))) ∧
    (program.all Laid.isSound = false →
      ∃ t, EndsBlock t ∧
        Run.read (Laid.writeAll 0 program) = .error (.parse, .unexpected (some t))) ∧
    (Run.read (Laid.writeAll 0 program) =
        Run.read (Statement.writeAll 0 (Laid.statements program)) ↔
      program.all Laid.isSound ∧ ∀ l ∈ program.dropLast, l.isOneLine = false) := by
  have hwritable := h
  rw [isWritableProgram, Bool.and_eq_true] at hwritable
  have hmeant : Run.read (Statement.writeAll 0 (Laid.statements program)) =
      .ok (Statement.trees (Laid.statements program)) := by
    obtain ⟨ts, hts, hs⟩ := ofSource_program hwritable.1
    refine read_of_program hts (program_reads _ h ?_ hs)
    rw [enough, hs.length_eq]
    omega
  obtain ⟨ts, hts, hs⟩ := ofSource_laid hwritable.1
  have hfuel : 6 * (Laid.marksAll program).length + 4 < enough ts := by
    rw [enough, hs.length_eq]
    omega
  obtain ⟨hsound, hunsound⟩ :=
    readsAll_program.absorbs program hwritable.1 hwritable.2 hfuel hs
  have hread := fun hall => read_of_program hts (hsound hall)
  have hrefused := fun hall => read_of_refused hts (hunsound hall)
  refine ⟨hmeant, hread, hrefused, ?_⟩
  rw [hmeant]
  cases hall : program.all Laid.isSound with
  | true =>
    rw [hread hall]
    constructor
    · intro hsame
      -- each statement that a block takes in is one less at the outermost level
      have hlength := congrArg List.length (Except.ok.inj hsame)
      rw [Statement.trees_eq_map, Statement.trees_eq_map, List.length_map, List.length_map,
        Laid.statements_length] at hlength
      exact ⟨rfl, isOneLine_of_length_absorb hlength⟩
    · rintro ⟨-, hlast⟩
      rw [absorb_eq_statements hlast]
  | false =>
    obtain ⟨t, -, hread⟩ := hrefused hall
    rw [hread]
    simp

/-- A choice with its block in one line. -/
def choiceInLine : Laid :=
  .oneLine (.choice (.literal (.name "a"))) (.assign "x" (.literal (.int 1)))

/-- A statement after it. -/
def assignmentAfter : Laid :=
  .plain (.assign "y" (.literal (.int 2)))

/-- The assignment in the second line becomes a part of the choice. -/
theorem one_line_block_goes_on_choice :
    Laid.writeAll 0 [choiceInLine, assignmentAfter] = "if a: x = 1\ny = 2\n" ∧
    Run.read (Laid.writeAll 0 [choiceInLine, assignmentAfter]) =
      .ok [.branch (.text "a") [.assign (.text "x") (.int 1), .assign (.text "y") (.int 2)] [] []] ∧
    Run.read (Laid.writeAll 0 [.indented (.whileLoop (.literal (.name "b"))) [choiceInLine]]) ≠
      .ok (Statement.trees
        (Laid.statements [.indented (.whileLoop (.literal (.name "b"))) [choiceInLine]])) := by
  obtain ⟨-, hread, -⟩ := one_line_block_goes_on [choiceInLine, assignmentAfter] (by decide)
  obtain ⟨-, -, hrefused, -⟩ :=
    one_line_block_goes_on [.indented (.whileLoop (.literal (.name "b"))) [choiceInLine]]
      (by decide)
  obtain ⟨t, -, hrefused⟩ := hrefused rfl
  refine ⟨by decide, hread rfl, ?_⟩
  rw [hrefused]
  intro h
  cases h

/-- With the block in one line the second statement is part of the choice, and with the block
indented it is not. -/
theorem read_choiceInLine_ne :
    Run.read "if a: x = 1\ny = 2\n" ≠ Run.read "if a:\n    x = 1\ny = 2\n" := by
  have hline : Run.read "if a: x = 1\ny = 2\n" =
      .ok [.branch (.text "a") [.assign (.text "x") (.int 1), .assign (.text "y") (.int 2)]
        [] []] := by
    cbv
  have hindented : Run.read "if a:\n    x = 1\ny = 2\n" =
      .ok [.branch (.text "a") [.assign (.text "x") (.int 1)] [] [],
        .assign (.text "y") (.int 2)] := by
    cbv
  rw [hline, hindented]
  intro h
  cases h

end Retrace
