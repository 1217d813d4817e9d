import Retrace.Proofs.Library
import Retrace.Proofs.Scanning

/-!
# Where tokens stand

A token says where it comes from: the number of its line and the characters before it in the line.
In a text whose literal texts stay within a line, that is where the characters of the token are, and
nothing of the text is lost: what belongs to no token is a blank, a line break, or part of a
comment.

The condition on literal texts is needed.  A text between quotes may go on across line breaks, and
the scanner does not count these: all that comes after it is placed as if it were still in the line
in which the quote was opened.

A token does not carry its characters, as the content of a numeral is a number and not the digits
that were written.  So tokens are taken together with the characters that they stand for (`Placed`),
and it is said of the two that the one spells the other.  With that it can be said where a token
ends, that tokens do not overlap, and which characters of the text are left over.

The scanner looks at one lexeme at a time, and so does the proof.  What is shown of the rest of a
text is always said about its whole lines: the characters that the scanner has passed in the current
line are put back in front.  With them in place the lines are the same before and after a lexeme,
until there is a line break.  So each sort of lexeme has one lemma, in which only the column
changes, and a line break is the one case in which a line is added.

Layout tokens stand for no characters, and are left out.

* `Placed`: a token with the characters it stands for; `Placed.Stands`, `Placed.Before`.
* `Accounts`: why a character is passed over, or which token it belongs to.
* `Places`: all of that, from some column of the first line on; one lemma for each sort of lexeme.
* `ofSource_places`: the statement about whole texts.
-/

set_option autoImplicit false

namespace Retrace
namespace Token

/-! ## Lines -/

section Lines

variable {before rest : List Char}

/-- The first line ends at the first line break. -/
theorem splitOn_lineBreak (hbefore : '\n' ∉ before) :
    (before ++ '\n' :: rest).splitOn '\n' = before :: rest.splitOn '\n' := by
  have happend := List.splitOnP_append_cons (p := (· == '\n')) before rest (beq_self_eq_true '\n')
  exact happend.trans (congrArg (· ++ _) (List.splitOn_eq_singleton hbefore))

theorem getElem?_zero_splitOn (cs : List Char) :
    (cs.splitOn '\n')[0]? = some (cs.takeWhile (· != '\n')) := by
  induction cs with
  | nil => rfl
  | cons c cs ih =>
    rw [List.splitOn, List.splitOnP_cons_eq_if_modifyHead]
    by_cases hc : c = '\n'
    · simp [hc]
    · rw [List.splitOn] at ih
      simp [hc, ih]

/-- The first line of a text starts with all that comes before a line break. -/
theorem first_line (hbefore : '\n' ∉ before) (rest : List Char) :
    ((before ++ rest).splitOn '\n')[0]? = some (before ++ rest.takeWhile (· != '\n')) := by
  rw [getElem?_zero_splitOn, List.takeWhile_append_of_pos]
  intro c hc
  have hne : c ≠ '\n' := fun h => hbefore (h ▸ hc)
  simpa using hne

end Lines

/-! ## Lexemes in the text -/

/-- A token, and the characters in the text that it stands for. -/
structure Placed where
  token : Token
  chars : List Char

namespace Placed

/-- The column after the last character. -/
def stop (p : Placed) : Int :=
  p.token.column + p.chars.length

/-- The characters are not none, show the content of the token, and are found at its place in the
lines of a text, if the first of them has the number `first`. -/
structure Stands (first : Nat) (lines : List (List Char)) (p : Placed) : Prop where
  chars_ne_nil : p.chars ≠ []
  spells : p.token.Spells p.chars
  found : ∃ (i column : Nat) (text : List Char), p.token.line = first + i ∧
    p.token.column = column ∧ lines[i]? = some text ∧ p.chars <+: text.drop column

/-- The first token's characters come before those of the second, and do not overlap with them. -/
def Before (p q : Placed) : Prop :=
  p.token.line < q.token.line ∨ p.token.line = q.token.line ∧ p.stop ≤ q.token.column

end Placed

/-- What becomes of the `k`-th character of a line `text`, which is the `i`-th after the first one:
it belongs to a token, or is blank, or is in a comment.  A comment starts with a `#`, and its line
has no token that ends after that. -/
inductive Accounts (first column : Nat) (placed : List Placed) (i : Nat) (text : List Char)
    (k : Nat) : Prop
  | lexeme (p : Placed) (hp : p ∈ placed) (hline : p.token.line = first + i)
      (hstart : p.token.column ≤ k) (hstop : k < p.stop)
  | blank (c : Char) (hc : text[k]? = some c) (hblank : isBlank c = true)
  | comment (start : Nat) (hstart : start ≤ k) (hcolumn : i = 0 → column ≤ start)
      (hsign : text[start]? = some '#')
      (hfree : ∀ p ∈ placed, p.token.line = first + i → p.stop ≤ start)

/-- The tokens of the lines, from the given column of the first line on: each stands where it says
it does, they are in order, and every character is accounted for. -/
structure Places (first column : Nat) (lines : List (List Char)) (placed : List Placed) : Prop where
  stands : ∀ p ∈ placed, p.Stands first lines
  after : ∀ p ∈ placed, p.token.line = first → column ≤ p.token.column
  ordered : placed.Pairwise Placed.Before
  accounts : ∀ (i k : Nat) (text : List Char), lines[i]? = some text → k < text.length →
    (i = 0 → column ≤ k) → Accounts first column placed i text k

namespace Places

variable {first column : Nat} {lines : List (List Char)} {placed : List Placed}
  {before chars rest : List Char} {t : Token}

theorem done : Places first before.length [before] [] where
  stands _ hp := absurd hp List.not_mem_nil
  after _ hp := absurd hp List.not_mem_nil
  ordered := .nil
  accounts i k text htext hk hcolumn := by
    cases i with
    | zero =>
      cases htext
      exact absurd (hcolumn rfl) (by omega)
    | succ i => simp at htext

/-- After a line break, what has been passed is a whole line. -/
theorem lineBreak (h : Places (first + 1) 0 lines placed) :
    Places first before.length (before :: lines) placed where
  stands p hp := by
    obtain ⟨hne, hspells, i, column, text, hline, hcolumn, htext, hchars⟩ := h.stands p hp
    refine ⟨hne, hspells, i + 1, column, text, ?_, hcolumn, htext, hchars⟩
    omega
  after p hp hfirst := by
    obtain ⟨-, -, i, column, text, hline, -⟩ := h.stands p hp
    omega
  ordered := h.ordered
  accounts i k text htext hk hcolumn := by
    cases i with
    | zero =>
      cases htext
      exact absurd (hcolumn rfl) (by omega)
    | succ i =>
      cases h.accounts i k text htext hk (fun _ => Nat.zero_le k) with
      | lexeme p hp hline hstart hstop => exact .lexeme p hp (by omega) hstart hstop
      | blank c hc hblank => exact .blank c hc hblank
      | comment start hstart _ hsign hfree =>
        exact .comment start hstart (by omega) hsign fun p hp hline => hfree p hp (by omega)

/-- The lexeme of a token is the next thing in the current line. -/
theorem token (h : Places first (before.length + chars.length) lines placed) (hne : chars ≠ [])
    (hspells : t.Spells chars) (hline : t.line = first) (hcolumn : t.column = before.length)
    {after : List Char} (htext : lines[0]? = some (before ++ (chars ++ after))) :
    Places first before.length lines (⟨t, chars⟩ :: placed) where
  stands := by
    refine List.forall_mem_cons.2
      ⟨⟨hne, hspells, 0, before.length, _, ?_, hcolumn, htext, ?_⟩, h.stands⟩
    · simpa using hline
    · rw [List.drop_left]
      exact List.prefix_append chars after
  after := by
    refine List.forall_mem_cons.2 ⟨fun _ => Int.le_of_eq hcolumn.symm, fun p hp hfirst => ?_⟩
    have := h.after p hp hfirst
    omega
  ordered := by
    refine List.pairwise_cons.2 ⟨fun p hp => ?_, h.ordered⟩
    obtain ⟨-, -, i, column, text, hp', -⟩ := h.stands p hp
    -- what stands in the same line stands behind this lexeme, all else in a later line
    by_cases hi : i = 0
    · have hfirst : p.token.line = first := by omega
      have := h.after p hp hfirst
      refine .inr ⟨by simp only; omega, ?_⟩
      simp only [Placed.stop]
      omega
    · refine .inl ?_
      simp only
      omega
  accounts i k text hget hk hstart := by
    by_cases hinside : i = 0 ∧ k < before.length + chars.length
    · obtain ⟨rfl, hk'⟩ := hinside
      have := hstart rfl
      refine .lexeme ⟨t, chars⟩ (List.mem_cons_self ..) ?_ ?_ ?_ <;>
        simp only [Placed.stop] <;> omega
    · cases h.accounts i k text hget hk (by omega) with
      | lexeme p hp hline hstart hstop =>
        exact .lexeme p (List.mem_cons_of_mem _ hp) hline hstart hstop
      | blank c hc hblank => exact .blank c hc hblank
      | comment start hstart hcolumn' hsign hfree =>
        refine .comment start hstart (by omega) hsign (List.forall_mem_cons.2 ⟨fun hi => ?_, hfree⟩)
        simp only [Placed.stop] at *
        omega

/-- Characters without a token may be passed over if they are accounted for. -/
theorem skip (h : Places first (before.length + chars.length) lines placed)
    (hpassed : ∀ k text, lines[0]? = some text → before.length ≤ k →
      k < before.length + chars.length → Accounts first before.length placed 0 text k) :
    Places first before.length lines placed where
  stands := h.stands
  after p hp hfirst := by
    have := h.after p hp hfirst
    omega
  ordered := h.ordered
  accounts i k text htext hk hstart := by
    by_cases hinside : i = 0 ∧ k < before.length + chars.length
    · obtain ⟨rfl, hk'⟩ := hinside
      exact hpassed k text htext (hstart rfl) hk'
    · cases h.accounts i k text htext hk (by omega) with
      | lexeme p hp hline hstart hstop => exact .lexeme p hp hline hstart hstop
      | blank c hc hblank => exact .blank c hc hblank
      | comment start hstart hcolumn hsign hfree =>
        exact .comment start hstart (by omega) hsign hfree

/-- Blanks between two tokens. -/
theorem space (h : Places first (before.length + chars.length) lines placed)
    (hblank : ∀ d ∈ chars, isBlank d = true) {after : List Char}
    (htext : lines[0]? = some (before ++ (chars ++ after))) :
    Places first before.length lines placed := by
  refine h.skip fun k text hget hstart hstop => ?_
  rw [htext] at hget
  cases hget
  have hk : k - before.length < chars.length := by omega
  refine .blank chars[k - before.length] ?_ (hblank _ (List.getElem_mem hk))
  rw [List.getElem?_append_right hstart, List.getElem?_append_left hk, List.getElem?_eq_getElem hk]

/-- A comment takes up the rest of the line, so the line has no more tokens. -/
theorem comment (h : Places first (before.length + ('#' :: chars).length) lines placed)
    (htext : lines[0]? = some (before ++ '#' :: chars)) :
    Places first before.length lines placed := by
  refine h.skip fun k text hget hstart hstop => ?_
  rw [htext] at hget
  cases hget
  refine .comment before.length hstart (fun _ => Nat.le_refl _) (by simp) fun p hp hline => ?_
  obtain ⟨hne, -, i, column, text, hline', hcolumn, hget, hchars⟩ := h.stands p hp
  have hafter := h.after p hp (by omega)
  obtain rfl : i = 0 := by omega
  rw [htext] at hget
  cases hget
  have hend : (before ++ '#' :: chars).length ≤ column := by
    rw [List.length_append]
    omega
  rw [List.drop_of_length_le hend] at hchars
  exact absurd (List.prefix_nil.1 hchars) hne

end Places

/-! ## Whole texts -/

variable {line column : Nat} {opened : List Nat} {cs before : List Char} {ts : List Token}

/-- A literal text that stays within its line. -/
def StaysInLine (t : Token) : Prop :=
  t.kind = .string → ∀ s, t.content = .text s → '\n' ∉ s.toList

theorem layout_invisible (n line column : Nat) (opened : List Nat) :
    (layout n line column opened).1.filter isVisible = [] := by
  unfold layout
  split
  · rfl
  · simp [isVisible]

/-- The tokens of a scan, if `before` has been passed in the current line. -/
theorem places_of_scanned (h : Scanned line column opened cs ts) (hstay : ∀ t ∈ ts, t.StaysInLine)
    (hbefore : '\n' ∉ before) (hcolumn : before.length = column) :
    ∃ placed : List Placed, placed.map Placed.token = ts.filter isVisible ∧
      Places line column ((before ++ cs).splitOn '\n') placed := by
  induction h generalizing before with
  | @done line column opened =>
    subst hcolumn
    refine ⟨[], by simp [closing, isVisible], ?_⟩
    rw [List.append_nil, List.splitOn_eq_singleton hbefore]
    exact .done
  | @token line column opened k chars rest t ts hfits hne ht hts ih =>
    subst hcolumn
    obtain ⟨hspells, hvisible, hline, hcolumn, hstring⟩ := spells_ofLexeme hfits ht
    obtain ⟨hhead, htail⟩ := List.forall_mem_cons.1 hstay
    have hchars : '\n' ∉ chars := by
      intro hmem
      have hkind := hstring hmem
      have hcontent : t.content = .text (String.ofList chars) := by
        simpa [Spells, hkind] using hspells
      have := hhead hkind _ hcontent
      simp [hmem] at this
    have hbefore' : '\n' ∉ before ++ chars := by simp [hbefore, hchars]
    obtain ⟨placed, hplaced, hplaces⟩ := ih htail hbefore' (List.length_append ..)
    refine ⟨⟨t, chars⟩ :: placed, by simp [hplaced, hvisible], ?_⟩
    have htext := first_line hbefore' rest
    rw [List.append_assoc] at hplaces
    rw [List.append_assoc, List.append_assoc] at htext
    exact hplaces.token hne hspells hline hcolumn htext
  | @blank line column opened chars rest ts hfits hts ih =>
    subst hcolumn
    have hbefore' : '\n' ∉ before ++ chars := by simp [hbefore, hfits.lineBreak_notMem]
    obtain ⟨placed, hplaced, hplaces⟩ := ih hstay hbefore' (List.length_append ..)
    refine ⟨placed, hplaced, ?_⟩
    have htext := first_line hbefore' rest
    rw [List.append_assoc] at hplaces
    rw [List.append_assoc, List.append_assoc] at htext
    cases hfits with
    | space hblank => exact hplaces.space hblank htext
    | comment _ hrest =>
      have hend : rest.takeWhile (· != '\n') = [] := by
        cases rest with
        | nil => rfl
        | cons d rest => simp [hrest d rfl]
      rw [hend, List.append_nil] at htext
      exact hplaces.comment htext
  | @lineBreak line column opened rest ts hts ih =>
    subst hcolumn
    have htail := (List.forall_mem_append.1 hstay).2
    have hnil : '\n' ∉ ([] : List Char) := List.not_mem_nil
    obtain ⟨placed, hplaced, hplaces⟩ := ih htail hnil rfl
    refine ⟨placed, ?_, ?_⟩
    · rw [List.filter_append, layout_invisible, List.nil_append, hplaced]
    · rw [splitOn_lineBreak hbefore]
      exact hplaces.lineBreak

end Token

open Token

/-- **Tokens stand where they say, and no character is lost.**  In a text whose literal texts stay
within their lines, each token but `INDENT` and `DEDENT` has characters of its own, which show its
content and start at its line and column.  They come in the order of the tokens and do not overlap.
Every other character is a line break, or is blank, or lies in a comment: that goes from a `#` to
the end of the line. -/
theorem ofSource_places {code : String} {ts : List Token} (h : ofSource code = .ok ts)
    (hstay : ∀ t ∈ ts, t.StaysInLine) :
    ∃ placed : List Placed, placed.map Placed.token = ts.filter isVisible ∧
      (∀ p ∈ placed, p.Stands 1 (code.toList.splitOn '\n')) ∧
      placed.Pairwise Placed.Before ∧
      ∀ (i k : Nat) (text : List Char) (c : Char),
        (code.toList.splitOn '\n')[i]? = some text → text[k]? = some c →
        (∃ p ∈ placed, p.token.line = i + 1 ∧ p.token.column ≤ k ∧ k < p.stop) ∨
          isBlank c = true ∨
          ∃ start ≤ k, text[start]? = some '#' ∧
            ∀ p ∈ placed, p.token.line = i + 1 → p.stop ≤ start := by
  have hnil : '\n' ∉ ([] : List Char) := List.not_mem_nil
  obtain ⟨placed, hplaced, hplaces⟩ := places_of_scanned (scanned_of_scan h) hstay hnil rfl
  refine ⟨placed, hplaced, hplaces.stands, hplaces.ordered, fun i k text c htext hc => ?_⟩
  obtain ⟨hk, -⟩ := List.getElem?_eq_some_iff.1 hc
  cases hplaces.accounts i k text htext hk fun _ => Nat.zero_le k with
  | lexeme p hp hline hstart hstop => exact .inl ⟨p, hp, by omega, hstart, hstop⟩
  | blank c' hc' hblank =>
    rw [hc] at hc'
    cases hc'
    exact .inr (.inl hblank)
  | comment start hstart _ hsign hfree =>
    exact .inr (.inr ⟨start, hstart, hsign, fun p hp hline => hfree p hp (by omega)⟩)

/-- Signs without blanks between them, a `#` in a literal text, and one that starts a comment. -/
def mixedSource : String :=
  "x<=`#` # c\n\ty=34"

theorem mixedSource_tokens : ofSource mixedSource =
    .ok [⟨.name, .text "x", 1, 0⟩, ⟨.lte, .text "<=", 1, 1⟩, ⟨.string, .text "`#`", 1, 3⟩,
      ⟨.indent, .int 1, 2, 10⟩, ⟨.name, .text "y", 2, 1⟩, ⟨.assign, .text "=", 2, 2⟩,
      ⟨.number, .int 34, 2, 3⟩, ⟨.dedent, .int 1, 2, 0⟩] := by
  cbv

/-- A text with a comment, an indented line, and a comment sign inside of a literal text. -/
theorem ofSource_places_mixed :
    ∃ ts, ofSource mixedSource = .ok ts ∧ (∀ t ∈ ts, t.StaysInLine) ∧
      ∃ placed : List Placed, placed.map Placed.token = ts.filter isVisible ∧
        (∀ p ∈ placed, p.Stands 1 (mixedSource.toList.splitOn '\n')) ∧
        placed.Pairwise Placed.Before := by
  obtain ⟨ts, hts, hstay⟩ : ∃ ts, ofSource mixedSource = .ok ts ∧ ∀ t ∈ ts, t.StaysInLine :=
    ⟨_, mixedSource_tokens, by simp [StaysInLine]⟩
  obtain ⟨placed, hplaced, hstands, hbefore, -⟩ := ofSource_places hts hstay
  exact ⟨ts, hts, hstay, placed, hplaced, hstands, hbefore⟩

end Retrace
