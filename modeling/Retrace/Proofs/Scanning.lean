import Retrace.Token.Lexer

/-!
# What a scan goes through

A text that can be cut into tokens is a sequence of lexemes: tokens, blanks, comments and line
breaks.  This module says what the lexemes of each sort consist of, and describes a scan that comes
to its end by the lexemes it goes through.  Proofs about scans are inductions over that description,
and need not look at how a lexeme is found.

The scanner is a recursion on what is left of the text behind a lexeme, and it stops with a fault at
a character that starts none, or at a numeral that is too long.  `Scanned` has neither: it is a
relation with one rule for each sort of lexeme, and it holds wherever a scan comes to its end.  The
rules have for hypotheses what is known of the characters of the lexeme, so that it is at hand in
the case of an induction where it is needed.

What is said of the characters is no more than what these inductions need.  A lexeme is not
described exactly: of a literal text only the sort is known, of a word that it stays within its
line, and of a comment that it goes on to the end of it.  Of the tokens it is said what they hold,
as the content of a numeral is a number and not the characters that it was read from
(`Token.Spells`).

* `Lexeme.Fits`: the characters of a lexeme of each sort, and what comes after them; `munch_fits`
  says that every lexeme is of this form.
* `Scanned`: the scans that come to their end, lexeme by lexeme; `scanned_of_scan`.
* `spells_ofLexeme`: what the token of a lexeme holds.
* `isVisible`: the tokens that stand for characters of the text.
-/

set_option autoImplicit false

namespace Retrace
namespace Token

variable {line column : Nat} {opened : List Nat} {c : Char} {cs chars rest : List Char}
  {k : Kind} {t : Token} {ts : List Token}

/-! ## Lexemes -/

/-- The characters of a lexeme, by its sort, and the rest of the text.  Only a literal text may hold
a line break, and a comment goes on to the next one. -/
inductive Lexeme.Fits : Lexeme → List Char → List Char → Prop
  | number {chars rest : List Char} (hdigits : ∀ d ∈ chars, Text.Digit.isDigit d = true) :
      Fits (.token .number) chars rest
  | string {chars rest : List Char} : Fits (.token .string) chars rest
  | word {chars rest : List Char} (hline : '\n' ∉ chars) : Fits (.token .name) chars rest
  | sign {k : Kind} {chars rest : List Char}
      (hk : k ∉ [Kind.number, .string, .name, .indent, .dedent]) (hline : '\n' ∉ chars) :
      Fits (.token k) chars rest
  | space {chars rest : List Char} (hblank : ∀ d ∈ chars, isBlank d = true) : Fits .blank chars rest
  | comment {chars rest : List Char} (hline : '\n' ∉ chars) (hrest : ∀ d ∈ rest.head?, d = '\n') :
      Fits .blank ('#' :: chars) rest
  | lineBreak {rest : List Char} : Fits .lineBreak ['\n'] rest
  | stray {chars rest : List Char} : Fits .stray chars rest

theorem forall_mem_munchWhile {p : Char → Bool} (hc : p c = true) :
    ∀ d ∈ c :: cs.takeWhile p, p d = true := by
  intro d hd
  rcases List.mem_cons.1 hd with rfl | hd
  · exact hc
  · exact List.all_eq_true.1 List.all_takeWhile d hd

theorem isNameChar_of_isNameStart (hc : isNameStart c = true) : isNameChar c = true := by
  rw [isNameStart, Bool.or_eq_true] at hc
  rcases hc with hc | hc <;> simp [isNameChar, Char.isAlphanum, hc]

/-- A text between quotes, or a quote that is never closed. -/
theorem munchText_fits (q : Char) (cs : List Char) :
    (munchText q cs).1.Fits (munchText q cs).2.1 (munchText q cs).2.2 := by
  unfold munchText
  split
  · exact .stray
  · exact .string

theorem munchClass_fits (c : Char) (cs : List Char) :
    (munchClass c cs).1.Fits (munchClass c cs).2.1 (munchClass c cs).2.2 := by
  unfold munchClass
  split
  · next hc => exact .number (forall_mem_munchWhile hc)
  split
  · next hc =>
    refine .word fun hmem => ?_
    exact absurd (forall_mem_munchWhile (isNameChar_of_isNameStart hc) '\n' hmem) (by decide)
  split
  · exact munchText_fits c cs
  split
  · next hc =>
    rw [beq_iff_eq] at hc
    subst hc
    refine .comment (fun hmem => ?_) fun d hd => ?_
    · have := List.all_eq_true.1 List.all_takeWhile '\n' hmem
      simp at this
    · have hstop := List.head?_dropWhile_not (· != '\n') cs
      rw [show (cs.dropWhile (· != '\n')).head? = some d from hd] at hstop
      simpa using hstop
  split
  · next hc => exact .space (forall_mem_munchWhile hc)
  split
  · next hc =>
    rw [beq_iff_eq] at hc
    subst hc
    exact .lineBreak
  · exact .stray

theorem fits_single (hk : single c = some k) : Lexeme.Fits (.token k) [c] rest := by
  unfold single at hk
  split at hk <;> cases hk <;> exact .sign (by decide) (by decide)

theorem fits_double {d : Char} (hk : double c d = some k) :
    Lexeme.Fits (.token k) [c, d] rest := by
  unfold double at hk
  split at hk <;> cases hk <;> exact .sign (by decide) (by decide)

theorem munchSingle_fits (c : Char) (cs : List Char) :
    (munchSingle c cs).1.Fits (munchSingle c cs).2.1 (munchSingle c cs).2.2 := by
  unfold munchSingle
  split
  · next k hk => exact fits_single hk
  · exact munchClass_fits c cs

/-- Every lexeme consists of what its sort allows. -/
theorem munch_fits (c : Char) (cs : List Char) :
    (munch c cs).1.Fits (munch c cs).2.1 (munch c cs).2.2 := by
  unfold munch
  split
  · exact munchSingle_fits c []
  · next d cs =>
    split
    · next k hk => exact fits_double hk
    · exact munchSingle_fits c (d :: cs)

/-- What is blank, or a comment, stays within its line. -/
theorem Lexeme.Fits.lineBreak_notMem (h : Lexeme.Fits .blank chars rest) : '\n' ∉ chars := by
  cases h with
  | space hblank => exact fun hmem => absurd (hblank _ hmem) (by decide)
  | comment hline _ => simpa using hline

/-! ## The tokens of lexemes -/

/-- Does the lexeme `chars` show the content of the token?  The content of a numeral is what its
digits amount to, and that of any other token are its characters. -/
def Spells (t : Token) (chars : List Char) : Prop :=
  if t.kind = .number then
    (∀ d ∈ chars, Text.Digit.isDigit d = true) ∧ t.content = .int (Text.Digit.ofDigits chars)
  else t.content = .text (String.ofList chars)

/-- A token that stands for characters of the text, and not for its layout. -/
def isVisible (t : Token) : Bool :=
  t.kind != .indent && t.kind != .dedent

/-- No reserved word makes a layout token, a numeral or a literal text. -/
theorem ofWord?_getD_notMem (s : String) :
    (Kind.ofWord? s).getD .name ∉ [Kind.number, .string, .indent, .dedent] := by
  have hwords : ∀ p ∈ Kind.words, p.2 ∉ [Kind.number, .string, .indent, .dedent] := by decide
  rw [Kind.ofWord?]
  cases hfind : Kind.words.find? fun p => p.1 == s with
  | none => decide
  | some p => exact hwords p (List.mem_of_find?_eq_some hfind)

/-- The token of a lexeme stands for its characters, where it starts. -/
theorem spells_ofLexeme (hfits : Lexeme.Fits (.token k) chars rest)
    (ht : ofLexeme k chars line column = .ok t) :
    t.Spells chars ∧ t.isVisible = true ∧ t.line = line ∧ t.column = column ∧
      ('\n' ∈ chars → t.kind = .string) := by
  cases hfits with
  | number hdigits =>
    rw [ofLexeme] at ht
    split at ht
    · cases ht
    · cases ht
      exact ⟨⟨hdigits, rfl⟩, rfl, rfl, rfl, fun h => absurd (hdigits _ h) (by decide)⟩
  | string =>
    cases ht
    exact ⟨rfl, rfl, rfl, rfl, fun _ => rfl⟩
  | word hline =>
    cases ht
    have hword := ofWord?_getD_notMem (String.ofList chars)
    simp only [List.mem_cons, List.not_mem_nil, or_false, not_or] at hword
    exact ⟨by simp [Spells, hword], by simp [isVisible, hword], rfl, rfl, fun h => absurd h hline⟩
  | sign hk hline =>
    simp only [List.mem_cons, List.not_mem_nil, or_false, not_or] at hk
    have hsign : ofLexeme k chars line column =
        .ok ⟨k, .text (String.ofList chars), line, column⟩ := by
      unfold ofLexeme
      split <;> simp_all
    rw [hsign] at ht
    cases ht
    exact ⟨by simp [Spells, hk], by simp [isVisible, hk], rfl, rfl, fun h => absurd h hline⟩

/-! ## Scans that come to their end -/

/-- The scans that come to their end, with the tokens they give: at each place there is a lexeme
that is a token, a blank, a comment or a line break. -/
inductive Scanned : Nat → Nat → List Nat → List Char → List Token → Prop
  | done {line column : Nat} {opened : List Nat} :
      Scanned line column opened [] (closing line opened)
  | token {line column : Nat} {opened : List Nat} {k : Kind} {chars rest : List Char} {t : Token}
      {ts : List Token} (hfits : Lexeme.Fits (.token k) chars rest) (hne : chars ≠ [])
      (ht : ofLexeme k chars line column = .ok t)
      (hts : Scanned line (column + chars.length) opened rest ts) :
      Scanned line column opened (chars ++ rest) (t :: ts)
  | blank {line column : Nat} {opened : List Nat} {chars rest : List Char} {ts : List Token}
      (hfits : Lexeme.Fits .blank chars rest)
      (hts : Scanned line (column + chars.length) opened rest ts) :
      Scanned line column opened (chars ++ rest) ts
  | lineBreak {line column : Nat} {opened : List Nat} {rest : List Char} {ts : List Token}
      (hts : Scanned (line + 1) 0
        (layout (rest.takeWhile isBlank).length (line + 1) column opened).2 rest ts) :
      Scanned line column opened ('\n' :: rest)
        ((layout (rest.takeWhile isBlank).length (line + 1) column opened).1 ++ ts)

/-- Induction along the lexemes of a text. -/
@[elab_as_elim]
theorem munch_induction {motive : List Char → Prop} (nil : motive [])
    (cons : ∀ c cs, motive (munch c cs).2.2 → motive (c :: cs)) (cs : List Char) : motive cs := by
  induction hn : cs.length using Nat.strongRecOn generalizing cs with
  | ind n ih =>
    cases cs with
    | nil => exact nil
    | cons c cs => exact cons c cs (ih _ (hn ▸ munch_length c cs) _ rfl)

/-- A scan that comes to its end goes through lexemes of these sorts. -/
theorem scanned_of_scan (h : scan line column opened cs = .ok ts) :
    Scanned line column opened cs ts := by
  induction cs using munch_induction generalizing line column opened ts with
  | nil =>
    rw [scan] at h
    cases h
    exact .done
  | cons c cs ih =>
    have hfits := munch_fits c cs
    have hne := munch_ne_nil c cs
    rw [scan] at h
    rw [← munch_append c cs]
    generalize munch c cs = lexeme at h ih hfits hne
    obtain ⟨sort, chars, rest⟩ := lexeme
    cases sort with
    | token k =>
      simp only at h
      split at h
      · cases h
      · next t ht =>
        split at h
        · cases h
        · next ts' hts =>
          cases h
          exact .token hfits hne ht (ih hts)
    | blank => exact .blank hfits (ih h)
    | lineBreak =>
      simp only at h
      split at h
      · cases h
      · next ts' hts =>
        cases h
        cases hfits
        exact .lineBreak (ih hts)
    | stray => cases h

end Token
end Retrace
