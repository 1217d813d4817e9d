import Retrace.Proofs.Library
import Retrace.Proofs.Writing

/-!
# Cutting written phrases into tokens

The text of a phrase is cut into the tokens of that phrase.  A name or a numeral goes on as long as
it can, so what is proved of a text depends on what comes after it: most texts are cut in the same
way whatever follows (`Free`), but those that end with a name, a numeral or an operator have to be
followed by a character that separates (`Bounded`).

These are two cases of one notion, with the condition on what follows as a parameter (`Cuts`).  It
says of a text that the scanner gives its tokens, with any that the rest gives behind them, and it
is made so that texts can be put together: what comes after the first text is the second one and the
rest.  Thus a text that needs a separator may be followed by one that starts with a separator, and
is free then (`Bounded.close`), and it is by these few rules that all phrases within a line are put
together.

The places of tokens depend on the whole text before them and are of no interest here.  Tokens are
compared with *marks*, which have a kind and a content and no place.

Each line break looks at the blanks that follow it.  What comes after a line is therefore described
together with the break in front of it (`After`), and a whole block is put together from its lines,
from the last one to the first.  Two properties of a text are needed for that.  `Starts` is for a
text that begins with a line of a given level, and `Ensues` for what may come behind a line of a
given level: a line of that level, or of one further out, or the end.  The first gives the second,
and a block is closed by going from a level to the next one outside (`Ensues.dedent`).

* `scan_token`, `scan_space`, `scan_lineBreak`: what the scanner does at a lexeme.
* `munch_word`, `munch_numeral`, `munch_quoted`, …: the lexemes that occur in written text.
* `bounded_expression`, …: phrases within a line.
* `starts_statement`: statements, with their blocks.
* `ofSource_program`: the tokens of a written program are those of the program.
-/

set_option autoImplicit false

namespace Retrace
namespace Token

variable {line column : Nat} {opened : List Nat} {c : Char} {cs chars rest : List Char}
  {ts : List Token}

/-! ## One lexeme -/

/-- A lexeme that is a token, and what comes after it. -/
theorem scan_token {k : Kind} {t : Token} (hmunch : munch c cs = (.token k, chars, rest))
    (ht : ofLexeme k chars line column = .ok t)
    (hts : scan line (column + chars.length) opened rest = .ok ts) :
    scan line column opened (c :: cs) = .ok (t :: ts) := by
  rw [scan]
  simp only [hmunch, ht, hts]

theorem scan_blank (hmunch : munch c cs = (.blank, chars, rest)) :
    scan line column opened (c :: cs) = scan line (column + chars.length) opened rest := by
  rw [scan]
  simp only [hmunch]

theorem munch_blank (hc : isBlank c) :
    munch c cs = (.blank, c :: cs.takeWhile isBlank, cs.dropWhile isBlank) := by
  have hc' : c = ' ' ∨ c = '\t' := by simpa [isBlank] using hc
  rcases hc' with rfl | rfl <;> cases cs <;> rfl

/-- Blanks are passed over one by one as well as all at once. -/
theorem scan_space : scan line column opened (' ' :: cs) = scan line (column + 1) opened cs := by
  rw [scan_blank (munch_blank (by decide))]
  cases cs with
  | nil => rfl
  | cons d cs =>
    by_cases hd : isBlank d
    · rw [scan_blank (munch_blank hd), List.takeWhile_cons_of_pos hd, List.dropWhile_cons_of_pos hd]
      simp only [List.length_cons]
      congr 1
      omega
    · rw [List.takeWhile_cons_of_neg hd, List.dropWhile_cons_of_neg hd]
      rfl

theorem scan_spaces (n : Nat) :
    scan line column opened (List.replicate n ' ' ++ cs) = scan line (column + n) opened cs := by
  induction n generalizing column with
  | zero => rfl
  | succ n ih =>
    rw [List.replicate_succ, List.cons_append, scan_space, ih]
    congr 1
    omega

/-- A line break gives the layout of the next line. -/
theorem scan_lineBreak :
    scan line column opened ('\n' :: cs) =
      (scan (line + 1) 0 (layout (cs.takeWhile isBlank).length (line + 1) column opened).2 cs).map
        ((layout (cs.takeWhile isBlank).length (line + 1) column opened).1 ++ ·) := by
  have hmunch : munch '\n' cs = (.lineBreak, ['\n'], cs) := by
    cases cs <;> rfl
  rw [scan]
  simp only [hmunch]
  generalize layout (cs.takeWhile isBlank).length (line + 1) column opened = step
  cases scan (line + 1) 0 step.2 cs <;> rfl

/-! ## Lexemes of written text -/

/-- The characters that separate in written text. -/
def separators : List Char :=
  [' ', '\n', '(', ')', '[', ']', ',', ':']

/-- The text is at its end, or at a character that separates. -/
def Boundary (rest : List Char) : Prop :=
  ∀ d ∈ rest.head?, d ∈ separators

theorem boundary_cons {d : Char} (h : d ∈ separators) : Boundary (d :: rest) := by
  intro d' hd'
  rw [List.head?_cons, Option.mem_some_iff] at hd'
  exact hd' ▸ h

/-- A lexeme of one class ends where the class does. -/
theorem munchWhile_append {sort : Lexeme} {p : Char → Bool} (hcs : cs.all p)
    (hp : separators.all fun d => !p d) (hrest : Boundary rest) :
    munchWhile sort p c (cs ++ rest) = (sort, c :: cs, rest) := by
  have hstop : rest.takeWhile p = [] ∧ rest.dropWhile p = rest := by
    cases rest with
    | nil => exact ⟨rfl, rfl⟩
    | cons d rest =>
      have hd : ¬ p d := by simpa using List.all_eq_true.1 hp d (hrest d rfl)
      exact ⟨List.takeWhile_cons_of_neg hd, List.dropWhile_cons_of_neg hd⟩
  have hall : ∀ d ∈ cs, p d := List.all_eq_true.1 hcs
  rw [munchWhile, List.takeWhile_append_of_pos hall, List.dropWhile_append_of_pos hall,
    hstop.1, hstop.2, List.append_nil]

/-- The characters that signs are made of. -/
def signs : List Char :=
  ['+', '-', '*', '/', '%', '=', '!', '<', '>', '(', ')', '[', ']', '\x7b', '\x7d', ':', ',']

/-- A character of a class that no sign belongs to. -/
theorem munch_eq_munchClass {p : Char → Bool} (hp : signs.all fun d => !p d) (hc : p c) :
    munch c cs = munchClass c cs := by
  have hsign : c ∉ signs := by
    intro hmem
    have hnot := List.all_eq_true.1 hp c hmem
    rw [hc] at hnot
    cases hnot
  have hdouble (d : Char) : double c d = none := by
    unfold double
    split <;> first | rfl | exact absurd (by decide) hsign
  have hsingle : single c = none := by
    unfold single
    split <;> first | rfl | exact absurd (by decide) hsign
  cases cs with
  | nil => simp only [munch, munchSingle, hsingle]
  | cons d cs => simp only [munch, munchSingle, hdouble, hsingle]

/-- No name starts with a digit of any script. -/
theorem isDigit_of_isNameStart (hc : isNameStart c) : Text.Digit.isDigit c = false := by
  have hval : c.toNat < 128 ∧ c.isDigit = false := by
    simp only [isNameStart, Char.isAlpha, Char.isUpper, Char.isLower, Bool.or_eq_true,
      Bool.and_eq_true, decide_eq_true_eq, beq_iff_eq, ge_iff_le, UInt32.le_iff_toNat_le] at hc
    simp only [Char.isDigit, Bool.and_eq_false_iff, decide_eq_false_iff_not, ge_iff_le,
      UInt32.le_iff_toNat_le]
    rcases hc with hc | rfl
    · have hc' : 65 ≤ c.toNat ∧ c.toNat ≤ 90 ∨ 97 ≤ c.toNat ∧ c.toNat ≤ 122 := hc
      show c.toNat < 128 ∧ (¬ 48 ≤ c.toNat ∨ ¬ c.toNat ≤ 57)
      omega
    · decide
  simp [Text.Digit.isDigit, Text.Digit.value?, hval.1, hval.2]

/-- A word goes on to the next separator. -/
theorem munch_word (hc : isNameStart c) (hcs : cs.all isNameChar) (hrest : Boundary rest) :
    munch c (cs ++ rest) = (.token .name, c :: cs, rest) := by
  rw [munch_eq_munchClass rfl hc, munchClass, isDigit_of_isNameStart hc, if_neg (by simp),
    if_pos hc]
  exact munchWhile_append hcs rfl hrest

/-- What a digit of the usual script counts for. -/
theorem value?_of_isDigit (hc : c.isDigit) : Text.Digit.value? c = some (c.toNat - 48) := by
  have hval : c.toNat < 128 := by
    simp only [Char.isDigit, Bool.and_eq_true, decide_eq_true_eq, ge_iff_le,
      UInt32.le_iff_toNat_le] at hc
    have h9 : c.toNat ≤ 57 := hc.2
    omega
  simp [Text.Digit.value?, hval, hc]

theorem munch_numeral (hc : c.isDigit) (hcs : cs.all Char.isDigit) (hrest : Boundary rest) :
    munch c (cs ++ rest) = (.token .number, c :: cs, rest) := by
  have hdigit {d : Char} (hd : d.isDigit) : Text.Digit.isDigit d := by
    rw [Text.Digit.isDigit, value?_of_isDigit hd]
    rfl
  rw [munch_eq_munchClass rfl hc, munchClass, if_pos (hdigit hc)]
  refine munchWhile_append (List.all_eq_true.2 fun d hd => ?_) rfl hrest
  exact hdigit (List.all_eq_true.1 hcs d hd)

/-- A text between quotes ends with the next quote of its sort, whatever follows. -/
theorem munch_quoted (hc : isQuote c) (hcs : cs.dropWhile (· != c) = [c]) :
    munch c (cs ++ rest) = (.token .string, c :: cs, rest) := by
  have hquote : munch c (cs ++ rest) = munchText c (cs ++ rest) := by
    rw [munch_eq_munchClass rfl hc]
    have hc' : c = '"' ∨ c = '\x60' := by simpa [isQuote] using hc
    rcases hc' with rfl | rfl <;> rfl
  have hsplit := List.takeWhile_append_dropWhile (p := (· != c)) (l := cs)
  rw [hcs] at hsplit
  have hdrop : (cs ++ rest).dropWhile (· != c) = c :: rest := by
    rw [List.dropWhile_append, hcs]
    rfl
  have htake : (cs ++ rest).takeWhile (· != c) = cs.takeWhile (· != c) := by
    have hlength := congrArg List.length hsplit
    rw [List.length_append, List.length_singleton] at hlength
    rw [List.takeWhile_append, if_neg (by omega)]
  rw [hquote, munchText, hdrop]
  simp only [htake, hsplit]

theorem double_of_separator {d : Char} (hd : d ∈ separators) : double c d = none := by
  unfold double
  split <;> first | rfl | exact absurd hd (by decide)

/-- A sign of one character, if no sign of two starts with it here. -/
theorem munch_single {k : Kind} (hc : single c = some k) (hrest : Boundary rest) :
    munch c rest = (.token k, [c], rest) := by
  cases rest with
  | nil => simp only [munch, munchSingle, hc]
  | cons d rest => simp only [munch, munchSingle, double_of_separator (hrest d rfl), hc]

theorem munch_double {k : Kind} {d : Char} (h : double c d = some k) :
    munch c (d :: rest) = (.token k, [c, d], rest) := by
  simp only [munch, h]

/-- Brackets, commas and colons are never part of a longer sign. -/
theorem munch_bracket {k : Kind} (hc : single c = some k) (hsep : c ∈ separators) :
    munch c rest = (.token k, [c], rest) := by
  cases rest with
  | nil => simp only [munch, munchSingle, hc]
  | cons d rest =>
    have hd : double c d = none := by
      unfold double
      split <;> first | rfl | exact absurd hsep (by decide)
    simp only [munch, munchSingle, hd, hc]

/-- The number that a numeral spells. -/
theorem ofDigits_toDigits (n : Nat) : Text.Digit.ofDigits (Nat.toDigits 10 n) = n := by
  have hfold (cs : List Char) (hcs : ∀ c ∈ cs, c.isDigit) (m : Nat) :
      cs.foldl (fun n c => 10 * n + (Text.Digit.value? c).getD 0) m = Nat.ofDigitChars 10 cs m := by
    induction cs generalizing m with
    | nil => rfl
    | cons c cs ih =>
      rw [List.foldl_cons, value?_of_isDigit (hcs c List.mem_cons_self),
        ih fun d hd => hcs d (List.mem_cons_of_mem c hd)]
      rfl
  have hdigits : ∀ c ∈ Nat.toDigits 10 n, c.isDigit :=
    fun c hc => Nat.isDigit_of_mem_toDigits (by decide) (by decide) hc
  rw [Text.Digit.ofDigits, hfold _ hdigits]
  exact Nat.ofDigitChars_toDigits (by decide) (by decide)

end Token

/-! ## Texts within a line -/

/-- The text is cut into tokens with the given marks if what follows it has the property. -/
structure Cuts (P : List Char → Prop) (s : String) (ms : List Mark) : Prop where
  scan {line column : Nat} {opened : List Nat} {rest : List Char} {ts : List Token} (hrest : P rest)
    (hts : Token.scan line (column + s.toList.length) opened rest = .ok ts) :
    ∃ ts', Token.scan line column opened (s.toList ++ rest) = .ok ts' ∧ Spells ms ts' ts

/-- The text is cut in the same way whatever follows. -/
def Free : String → List Mark → Prop :=
  Cuts fun _ => True

/-- The text is cut in this way if a character that separates follows. -/
def Bounded : String → List Mark → Prop :=
  Cuts Token.Boundary

section Cuts

variable {P Q : List Char → Prop} {s t : String} {ms ms' : List Mark}

/-- Two texts in a row, if the second one is what the first one may be followed by. -/
theorem Cuts.append (hs : Cuts P s ms) (ht : Cuts Q t ms')
    (hP : ∀ rest, Q rest → P (t.toList ++ rest)) : Cuts Q (s ++ t) (ms ++ ms') where
  scan {line column opened rest ts} hrest hts := by
    rw [String.toList_append, List.length_append, ← Nat.add_assoc] at hts
    obtain ⟨ts₁, hts₁, hms'⟩ := ht.scan hrest hts
    obtain ⟨ts₂, hts₂, hms⟩ := hs.scan (hP rest hrest) hts₁
    rw [String.toList_append, List.append_assoc]
    exact ⟨ts₂, hts₂, spells_append.2 ⟨ts₁, hms, hms'⟩⟩

theorem Free.bounded (h : Free s ms) : Bounded s ms where
  scan _ hts := h.scan trivial hts

theorem free_space : Free " " [] where
  scan {_ _ _ _ ts} _ hts := ⟨ts, Token.scan_space.trans hts, rfl⟩

/-- Anything may follow a text that is cut in the same way whatever follows. -/
theorem Free.append (hs : Free s ms) (ht : Free t ms') : Free (s ++ t) (ms ++ ms') :=
  Cuts.append hs ht fun _ _ => trivial

theorem Free.next (hs : Free s ms) (ht : Bounded t ms') : Bounded (s ++ t) (ms ++ ms') :=
  Cuts.append hs ht fun _ _ => trivial

/-- A text that starts with a character that separates may follow any other one. -/
theorem Bounded.close {c : Char} {cs : List Char} (hs : Bounded s ms) (ht : Free t ms')
    (hsep : t.toList = c :: cs) (hc : c ∈ Token.separators) : Free (s ++ t) (ms ++ ms') :=
  Cuts.append hs ht fun rest _ => by
    rw [hsep]
    exact Token.boundary_cons hc

/-- A space, too, ends a lexeme. -/
theorem Bounded.space (hs : Bounded s ms) : Free (s ++ " ") ms := by
  have hspace := hs.close free_space rfl (by decide)
  rwa [List.append_nil] at hspace

/-- One lexeme. -/
theorem cuts_lexeme {c : Char} {cs : List Char} {k : Kind} {m : Mark} (hs : s.toList = c :: cs)
    (hmunch : ∀ rest, P rest → Token.munch c (cs ++ rest) = (.token k, c :: cs, rest))
    (hm : ∀ line column, ∃ t, Token.ofLexeme k (c :: cs) line column = .ok t ∧ t.Shows m) :
    Cuts P s [m] where
  scan {line column opened rest ts} hrest hts := by
    obtain ⟨t, ht, hshows⟩ := hm line column
    rw [hs] at hts ⊢
    exact ⟨t :: ts, Token.scan_token (hmunch rest hrest) ht hts, t, ts, rfl, hshows, rfl⟩

/-- The content of a token matters only for names and literals. -/
theorem ofLexeme_sign {k : Kind} {chars : List Char} {line column : Nat}
    (hk : k ≠ .name ∧ k ≠ .number) :
    ∃ t, Token.ofLexeme k chars line column = .ok t ∧ t.Shows (.sign k) := by
  cases k <;> first | exact ⟨_, rfl, rfl⟩ | exact absurd rfl hk.1 | exact absurd rfl hk.2

end Cuts

namespace Phrase

open Token

section Lexemes

variable {s : String} {ms : List Mark} {k : Kind}

theorem free_bracket {c : Char} (hs : s.toList = [c]) (hc : single c = some k)
    (hsep : c ∈ separators) (hk : k ≠ .name ∧ k ≠ .number) : Free s [.sign k] :=
  cuts_lexeme hs (fun _ _ => munch_bracket hc hsep) fun _ _ => ofLexeme_sign hk

theorem free_lparen : Free "(" [.sign .lparen] :=
  free_bracket rfl rfl (by decide) (by decide)

theorem free_rparen : Free ")" [.sign .rparen] :=
  free_bracket rfl rfl (by decide) (by decide)

theorem free_lbracket : Free "[" [.sign .lbracket] :=
  free_bracket rfl rfl (by decide) (by decide)

theorem free_rbracket : Free "]" [.sign .rbracket] :=
  free_bracket rfl rfl (by decide) (by decide)

theorem free_colon : Free ":" [.sign .colon] :=
  free_bracket rfl rfl (by decide) (by decide)

theorem free_comma : Free ", " [.sign .comma] :=
  Free.append (free_bracket rfl rfl (by decide) (by decide) : Free "," _) free_space

theorem bounded_single {c : Char} (hs : s.toList = [c]) (hc : single c = some k)
    (hk : k ≠ .name ∧ k ≠ .number) : Bounded s [.sign k] :=
  cuts_lexeme hs (fun _ hrest => munch_single hc hrest) fun _ _ => ofLexeme_sign hk

theorem bounded_double {c d : Char} (hs : s.toList = [c, d]) (hc : double c d = some k)
    (hk : k ≠ .name ∧ k ≠ .number) : Bounded s [.sign k] :=
  cuts_lexeme hs (fun _ _ => munch_double hc) fun _ _ => ofLexeme_sign hk

/-- A word is a reserved one, or a name. -/
theorem bounded_word {m : Mark} (hs : isWord s)
    (hm : ∀ line column, Token.Shows ⟨(Kind.ofWord? s).getD .name, .text s, line, column⟩ m) :
    Bounded s [m] := by
  unfold isWord at hs
  split at hs
  · cases hs
  · next c cs hcs =>
    rw [Bool.and_eq_true] at hs
    refine cuts_lexeme hcs (fun _ hrest => munch_word hs.1 hs.2 hrest) fun line column => ?_
    refine ⟨_, rfl, ?_⟩
    rw [← hcs, String.ofList_toList]
    exact hm line column

/-- A reserved word. -/
theorem bounded_reserved (hs : isWord s) (hk : Kind.ofWord? s = some k) : Bounded s [.sign k] :=
  bounded_word hs fun _ _ => by rw [hk]; rfl

/-- A name, which is no reserved word. -/
theorem bounded_name (hs : isName s) : Bounded s [.name s] := by
  rw [isName, Bool.and_eq_true, Option.isNone_iff_eq_none] at hs
  refine bounded_word hs.1 fun _ _ => ?_
  rw [hs.2]
  exact ⟨rfl, rfl⟩

theorem bounded_quoted (hs : isQuoted s) : Bounded s [.string s] := by
  unfold isQuoted at hs
  split at hs
  · cases hs
  · next c cs hcs =>
    rw [Bool.and_eq_true, beq_iff_eq] at hs
    refine cuts_lexeme hcs (fun _ _ => munch_quoted hs.1 hs.2) fun line column => ⟨_, rfl, rfl, ?_⟩
    rw [← hcs, String.ofList_toList]

theorem bounded_numeral {n : Int} (hn : isNumeral n) : Bounded (toString n) [.number n.toNat] := by
  rw [isNumeral, Bool.and_eq_true, decide_eq_true_eq, decide_eq_true_eq] at hn
  obtain ⟨m, rfl⟩ := Int.eq_ofNat_of_zero_le hn.1
  have hchars : (toString (m : Int)).toList = Nat.toDigits 10 m := Nat.toList_repr
  have hdigits : (Nat.toDigits 10 m).all Char.isDigit :=
    List.all_eq_true.2 fun c hc => Nat.isDigit_of_mem_toDigits (by decide) (by decide) hc
  have hlength : (Nat.toDigits 10 m).length ≤ numeralLimit := by
    rw [← hchars, String.length_toList]
    exact hn.2
  have hne : Nat.toDigits 10 m ≠ [] := Nat.toDigits_ne_nil
  have hvalue := ofDigits_toDigits m
  generalize Nat.toDigits 10 m = chars at *
  cases chars with
  | nil => exact absurd rfl hne
  | cons c cs =>
    rw [List.all_cons, Bool.and_eq_true] at hdigits
    refine cuts_lexeme hchars (fun _ hrest => munch_numeral hdigits.1 hdigits.2 hrest)
      fun line column => ?_
    refine ⟨_, if_neg (Nat.not_lt.2 hlength), rfl, ?_⟩
    rw [hvalue]
    rfl

theorem bounded_op (op : Op) : Bounded op.symbol [.sign op.kind] := by
  cases op
  case and => exact bounded_reserved (by decide) (by decide)
  case or => exact bounded_reserved (by decide) (by decide)
  all_goals first
    | exact bounded_single rfl rfl (by decide)
    | exact bounded_double rfl rfl (by decide)

theorem bounded_compound (op : Compound) : Bounded op.symbol [.sign op.kind] := by
  cases op <;> exact bounded_double rfl rfl (by decide)

theorem free_assign : Free " = " [.sign .assign] :=
  free_space.append (bounded_single rfl rfl (by decide) : Bounded "=" _).space

/-- A reserved word and the character after it. -/
theorem free_reserved {c : Char} {t : String} {m : List Mark} (s : String) (hs : isWord s)
    (hk : Kind.ofWord? s = some k) (ht : Free t m) (hc : t.toList = [c]) (hsep : c ∈ separators) :
    Free (s ++ t) (.sign k :: m) :=
  (bounded_reserved hs hk).close ht hc hsep

theorem free_length : Free "len(" [.sign .lenWord, .sign .lparen] :=
  free_reserved "len" rfl rfl free_lparen rfl (by decide)

theorem free_range : Free "range(" [.sign .rangeWord, .sign .lparen] :=
  free_reserved "range" rfl rfl free_lparen rfl (by decide)

theorem free_print : Free "print(" [.sign .printWord, .sign .lparen] :=
  free_reserved "print" rfl rfl free_lparen rfl (by decide)

theorem free_else : Free "else:" [.sign .elseWord, .sign .colon] :=
  free_reserved "else" rfl rfl free_colon rfl (by decide)

theorem free_rev : Free "rev " [.sign .revWord] :=
  free_reserved "rev" rfl rfl free_space rfl (by decide)

theorem free_revtrace : Free "revtrace " [.sign .revtraceWord] :=
  free_reserved "revtrace" rfl rfl free_space rfl (by decide)

theorem free_if : Free "if " [.sign .ifWord] :=
  free_reserved "if" rfl rfl free_space rfl (by decide)

theorem free_while : Free "while " [.sign .whileWord] :=
  free_reserved "while" rfl rfl free_space rfl (by decide)

theorem free_for : Free "for " [.sign .forWord] :=
  free_reserved "for" rfl rfl free_space rfl (by decide)

theorem free_in : Free " in " [.sign .inWord] :=
  free_space.append (free_reserved "in" rfl rfl free_space rfl (by decide))

/-- The word in front of a further condition is not reserved, so it is a name. -/
theorem free_elif : Free "elif " [.name "elif"] :=
  (bounded_name rfl : Bounded "elif" _).space

end Lexemes

/-! ## Expressions -/

mutual

theorem bounded_literal : ∀ v : Literal, v.isWritable → Bounded v.write v.marks
  | .int n, h => bounded_numeral h
  | .bool true, _ => bounded_reserved (by decide) (by decide)
  | .bool false, _ => bounded_reserved (by decide) (by decide)
  | .name _, h => bounded_name h
  | .string _, h => bounded_quoted h
  | .list [], _ => (free_lbracket.append free_rbracket).bounded
  | .list (v :: rest), h => by
    rw [Literal.isWritable, Literal.areWritable, Bool.and_eq_true] at h
    have hitems := bounded_literals rest h.2 (free_lbracket.next (bounded_literal v h.1))
    have hlist := (hitems.close free_rbracket rfl (by decide)).bounded
    rw [Literal.write, Literal.marks]
    simpa only [List.append_assoc, List.cons_append, List.nil_append] using hlist

/-- Further items of a list, each behind a comma. -/
theorem bounded_literals : ∀ vs : List Literal, Literal.areWritable vs →
    ∀ {s : String} {ms : List Mark}, Bounded s ms →
      Bounded (s ++ Literal.writeRest vs) (ms ++ Literal.marksRest vs)
  | [], _, s, ms, hs => by
    rwa [Literal.writeRest, Literal.marksRest, String.append_empty, List.append_nil]
  | v :: rest, h, s, ms, hs => by
    rw [Literal.areWritable, Bool.and_eq_true] at h
    have hfirst := (hs.close free_comma rfl (by decide)).next (bounded_literal v h.1)
    have hrest := bounded_literals rest h.2 hfirst
    rw [Literal.writeRest, Literal.marksRest]
    simpa only [String.append_assoc, List.append_assoc, List.cons_append, List.nil_append]
      using hrest

end

theorem Bounded.enclose {s : String} {ms : List Mark} (needed : Bool) (h : Bounded s ms) :
    Bounded (enclose needed s) (encloseMarks needed ms) := by
  cases needed with
  | false => exact h
  | true => exact ((free_lparen.next h).close free_rparen rfl (by decide)).bounded

/-- An expression, with the parentheses that its place asks for. -/
theorem bounded_expression (e : Expression) (he : e.isWritable) (place : Place) :
    Bounded (e.write place) (e.marks place) := by
  induction e generalizing place with
  | literal v => exact bounded_literal v he
  | binary l op r ihl ihr =>
    simp only [Expression.isWritable, Bool.and_eq_true, decide_eq_true_eq] at he
    obtain ⟨⟨hl, hop⟩, hr⟩ := he
    have hsymbol : Bounded op.write [.sign op.kind] := by
      cases op with
      | known op => exact bounded_op op
      | dot => exact absurd rfl hop
    have hoperator := ((ihl hl .left).space.next hsymbol).space
    rw [Expression.write, Expression.marks]
    refine Bounded.enclose _ ?_
    simpa only [List.append_assoc, List.singleton_append] using hoperator.next (ihr hr .right)
  | index name position ih =>
    rw [Expression.isWritable, Bool.and_eq_true] at he
    have hopen := (bounded_name he.1).close free_lbracket rfl (by decide)
    exact ((hopen.next (ih he.2 .whole)).close free_rbracket rfl (by decide)).bounded
  | length e ih =>
    refine Bounded.enclose _ ?_
    exact ((free_length.next (ih he .whole)).close free_rparen rfl (by decide)).bounded

theorem bounded_expressions (es : List Expression) (hes : es.all Expression.isWritable)
    {s : String} {ms : List Mark} (hs : Bounded s ms) :
    Bounded (s ++ Expression.writeRest es) (ms ++ Expression.marksRest es) := by
  induction es generalizing s ms with
  | nil => rwa [Expression.writeRest, Expression.marksRest, String.append_empty, List.append_nil]
  | cons e rest ih =>
    rw [List.all_cons, Bool.and_eq_true] at hes
    have hfirst :=
      (hs.close free_comma rfl (by decide)).next (bounded_expression e hes.1 .whole)
    rw [Expression.writeRest, Expression.marksRest]
    simpa only [String.append_assoc, List.append_assoc, List.cons_append, List.nil_append]
      using ih hes.2 hfirst

/-- What a `for` loop goes through. -/
theorem bounded_source (source : Source) (h : source.isWritable) :
    Bounded source.write source.marks := by
  cases source with
  | items e => exact bounded_expression e h .right
  | upTo stop =>
    have hstop := free_range.next (bounded_expression stop h .whole)
    exact (hstop.close free_rparen rfl (by decide)).bounded
  | between start stop =>
    rw [Source.isWritable, Bool.and_eq_true] at h
    have hstart := free_range.next (bounded_expression start h.1 .whole)
    have hstop := (hstart.close free_comma rfl (by decide)).next
      (bounded_expression stop h.2 .whole)
    rw [Source.write, Source.marks]
    simpa only [List.append_assoc, List.cons_append, List.nil_append]
      using (hstop.close free_rparen rfl (by decide)).bounded
  | steps start stop step =>
    simp only [Source.isWritable, Bool.and_eq_true] at h
    have hstart := free_range.next (bounded_expression start h.1.1 .whole)
    have hstop := (hstart.close free_comma rfl (by decide)).next
      (bounded_expression stop h.1.2 .whole)
    have hstep := (hstop.close free_comma rfl (by decide)).next
      (bounded_expression step h.2 .whole)
    rw [Source.write, Source.marks]
    simpa only [List.append_assoc, List.cons_append, List.nil_append]
      using (hstep.close free_rparen rfl (by decide)).bounded

/-! ## Lines and blocks -/

/-- The indentations that are open at a level of blocks. -/
def openedAt : Nat → List Nat
  | 0 => []
  | level + 1 => 4 * (level + 1) :: openedAt level

theorem level_openedAt (level : Nat) : Token.level (openedAt level) = 4 * level := by
  cases level <;> rfl

/-- How far the first line of the text is indented. -/
def indentation (text : List Char) : Nat :=
  (text.takeWhile isBlank).length

/-- A line break at a level, and the text after it, give the tokens with these marks. -/
def After (level : Nat) (text : List Char) (ms : List Mark) : Prop :=
  ∀ line column, ∃ ts, scan line column (openedAt level) ('\n' :: text) = .ok ts ∧ Spells ms ts []

/-- The text starts with a line of the given level, and it gives the tokens with these marks. -/
structure Starts (level : Nat) (text : List Char) (ms : List Mark) : Prop where
  scan (line column : Nat) :
    ∃ ts, Token.scan line column (openedAt level) text = .ok ts ∧ Spells ms ts []
  indented : indentation text = 4 * level

/-- The text can follow a line of the given level that opens no block. -/
structure Ensues (level : Nat) (text : List Char) (ms : List Mark) : Prop where
  after : After level text ms
  indented : indentation text ≤ 4 * level

section Lines

variable {level : Nat} {text : List Char} {ms ms' : List Mark}

theorem layout_same (line column : Nat) :
    layout (4 * level) line column (openedAt level) = ([], openedAt level) := by
  rw [layout, level_openedAt, if_neg (Nat.lt_irrefl _)]
  cases level with
  | zero => rfl
  | succ level => simp [openedAt]

theorem layout_deeper (line column : Nat) :
    layout (4 * (level + 1)) line column (openedAt level) =
      ([⟨.indent, .int (4 * (level + 1) : Nat), line, column⟩], openedAt (level + 1)) := by
  rw [layout, level_openedAt, if_pos (by omega), openedAt]

/-- Of two levels the inner one is closed first. -/
theorem layout_outer {i : Nat} (line column : Nat) (hi : i ≤ 4 * level) :
    layout i line column (openedAt (level + 1)) =
      (⟨.dedent, .int i, line, column⟩ :: (layout i line column (openedAt level)).1,
        (layout i line column (openedAt level)).2) := by
  simp only [layout, level_openedAt, if_neg (by omega : ¬ 4 * (level + 1) < i),
    if_neg (by omega : ¬ 4 * level < i)]
  have hlt : i < 4 * (level + 1) := by omega
  simp only [openedAt, List.takeWhile_cons, List.dropWhile_cons, hlt, decide_true, if_true,
    List.map_cons]

/-- A line of some level may come behind a line of that level. -/
theorem Starts.ensues (h : Starts level text ms) : Ensues level text ms where
  after line column := by
    obtain ⟨ts, hts, hms⟩ := h.scan (line + 1) 0
    refine ⟨ts, ?_, hms⟩
    rw [scan_lineBreak, ← indentation, h.indented, layout_same, hts]
    rfl
  indented := Nat.le_of_eq h.indented

/-- The first line of a block. -/
theorem Starts.indent (h : Starts (level + 1) text ms) :
    After level text (.sign .indent :: ms) := by
  intro line column
  obtain ⟨ts, hts, hms⟩ := h.scan (line + 1) 0
  rw [scan_lineBreak, ← indentation, h.indented, layout_deeper, hts]
  exact ⟨_, rfl, _, ts, rfl, rfl, hms⟩

/-- The line after a block. -/
theorem Ensues.dedent (h : Ensues level text ms) :
    Ensues (level + 1) text (.sign .dedent :: ms) where
  after line column := by
    obtain ⟨ts, hts, hms⟩ := h.after line column
    rw [scan_lineBreak, ← indentation] at hts ⊢
    rw [layout_outer _ _ h.indented]
    generalize layout (indentation text) (line + 1) column (openedAt level) = step at hts ⊢
    cases hscan : Token.scan (line + 1) 0 step.2 text with
    | error e =>
      rw [hscan] at hts
      cases hts
    | ok ts' =>
      rw [hscan] at hts
      cases hts
      exact ⟨_, rfl, _, _, rfl, rfl, hms⟩
  indented := by
    have hlevel := h.indented
    omega

/-- The text does not start with a blank, and is not empty. -/
def isSolid (s : String) : Bool :=
  match s.toList with
  | [] => false
  | c :: _ => !isBlank c

theorem isSolid_append {s t : String} (hs : isSolid s) : isSolid (s ++ t) := by
  rw [isSolid, String.toList_append]
  rw [isSolid] at hs
  split at hs
  · cases hs
  · next c cs hcs =>
    rw [hcs]
    exact hs

theorem isSolid_of_isName {s : String} (hs : isName s) : isSolid s := by
  rw [isName, Bool.and_eq_true, isWord] at hs
  rw [isSolid]
  cases hcs : s.toList with
  | nil =>
    rw [hcs] at hs
    cases hs.1
  | cons c cs =>
    simp only [hcs, Bool.and_eq_true] at hs
    have hc : c ≠ ' ' ∧ c ≠ '\t' := by
      constructor <;> rintro rfl <;> exact absurd hs.1.1 (by decide)
    simp [isBlank, hc]

theorem line_toList (level : Nat) (s : String) (text : List Char) :
    (line level s).toList ++ text =
      List.replicate (4 * level) ' ' ++ (s.toList ++ '\n' :: text) := by
  simp [line]

theorem indentation_line {s : String} (hsolid : isSolid s) :
    indentation ((line level s).toList ++ text) = 4 * level := by
  rw [isSolid] at hsolid
  split at hsolid
  · cases hsolid
  · next c cs hcs =>
    have hblanks : ∀ d ∈ List.replicate (4 * level) ' ', isBlank d := by
      intro d hd
      rw [List.eq_of_mem_replicate hd]
      rfl
    have hc : ¬ isBlank c := by simpa using hsolid
    rw [line_toList, hcs, List.cons_append, indentation, List.takeWhile_append_of_pos hblanks,
      List.takeWhile_cons_of_neg hc, List.append_nil, List.length_replicate]

/-- One line, and what comes after it. -/
theorem starts_line {s : String} (hs : Bounded s ms) (hsolid : isSolid s)
    (hafter : After level text ms') :
    Starts level ((line level s).toList ++ text) (ms ++ ms') where
  scan l column := by
    obtain ⟨ts', hts', hms'⟩ := hafter l (column + 4 * level + s.toList.length)
    obtain ⟨ts, hts, hms⟩ := hs.scan (boundary_cons (by decide)) hts'
    exact ⟨ts, by rw [line_toList, scan_spaces, hts], spells_append.2 ⟨ts', hms, hms'⟩⟩
  indented := indentation_line hsolid

/-- A line may also stand behind something else, in the line of that. -/
theorem Starts.behind {s s' : String} (h : Starts level ((line level s').toList ++ text) ms')
    (hs : Free s ms) (hsolid : isSolid s) :
    Starts level ((line level (s ++ s')).toList ++ text) (ms ++ ms') where
  scan l column := by
    obtain ⟨ts', hts', hms'⟩ := h.scan l (column + s.toList.length)
    rw [line_toList, scan_spaces, Nat.add_right_comm] at hts'
    obtain ⟨ts, hts, hms⟩ := hs.scan trivial hts'
    refine ⟨ts, ?_, spells_append.2 ⟨ts', hms, hms'⟩⟩
    rw [line_toList, scan_spaces, String.toList_append, List.append_assoc, hts]
  indented := indentation_line (isSolid_append hsolid)

end Lines

/-! ## Statements -/

/-- The line of a condition, and what comes after it. -/
theorem starts_condition {level : Nat} {text : List Char} {ms : List Mark} {word : String}
    {m : Mark} {e : Expression} (hword : Free word [m]) (hsolid : isSolid word)
    (he : e.isWritable) (hafter : After level text ms) :
    Starts level ((line level (word ++ e.write .whole ++ ":")).toList ++ text)
      (m :: (e.marks .whole ++ .sign .colon :: ms)) := by
  have hline := (hword.next (bounded_expression e he .whole)).close free_colon rfl (by decide)
  have hstarts := starts_line hline.bounded (isSolid_append (isSolid_append hsolid)) hafter
  simpa only [List.append_assoc, List.cons_append, List.nil_append] using hstarts

mutual

/-- A written statement is cut into its tokens, whatever comes behind it in its block or further
out. -/
theorem starts_statement : ∀ (s : Statement), s.isSpellable →
    ∀ {level : Nat} {text : List Char} {ms : List Mark}, Ensues level text ms →
      Starts level ((s.write level).toList ++ text) (s.marksWith (.name "elif") ++ ms)
  | .assign name e, h, level, text, ms, hrest => by
    simp only [Statement.isSpellable, Statement.isWritable, Bool.and_eq_true] at h
    have hline := ((bounded_name h.1).close free_assign rfl (by decide)).next
      (bounded_expression e h.2 .whole)
    have hsolid : isSolid (name ++ " = " ++ e.write .whole) :=
      isSolid_append (isSolid_append (isSolid_of_isName h.1))
    exact starts_line hline hsolid hrest.after
  | .compound op name e, h, level, text, ms, hrest => by
    simp only [Statement.isSpellable, Statement.isWritable, Bool.and_eq_true] at h
    have hline := ((bounded_name h.1).space.next (bounded_compound op)).space.next
      (bounded_expression e h.2 .whole)
    have hsolid : isSolid (name ++ " " ++ op.symbol ++ " " ++ e.write .whole) := by
      iterate 4 apply isSolid_append
      exact isSolid_of_isName h.1
    exact starts_line hline hsolid hrest.after
  | .reverse name, h, level, text, ms, hrest => by
    have hline := free_rev.next (bounded_name h)
    exact starts_line hline (isSolid_append rfl) hrest.after
  | .revtrace name position, h, level, text, ms, hrest => by
    simp only [Statement.isSpellable, Statement.isWritable, Bool.and_eq_true] at h
    have hname := free_revtrace.next (bounded_name h.1)
    have hline := hname.space.next (bounded_expression position h.2 .whole)
    exact starts_line hline (isSolid_append (isSolid_append (isSolid_append rfl))) hrest.after
  | .branch condition yes elifs [], h, level, text, ms, hrest => by
    simp only [Statement.isSpellable, Bool.and_eq_true, Bool.not_eq_true',
      List.isEmpty_eq_false_iff] at h
    obtain ⟨⟨⟨⟨hcondition, hne⟩, hyes⟩, helifs⟩, -⟩ := h
    have hfurther := ensues_elifs elifs helifs hrest
    have hblock := ((ensues_statements yes hyes hfurther.dedent).2 hne).indent
    have hstatement := starts_condition free_if rfl hcondition hblock
    simp only [Statement.write, Statement.marksWith, List.isEmpty_nil, if_true,
      String.append_empty, String.toList_append]
    simpa only [List.append_assoc, List.cons_append, List.nil_append] using hstatement
  | .branch condition yes elifs (s :: no), h, level, text, ms, hrest => by
    simp only [Statement.isSpellable, Bool.and_eq_true, Bool.not_eq_true',
      List.isEmpty_eq_false_iff] at h
    obtain ⟨⟨⟨⟨hcondition, hne⟩, hyes⟩, helifs⟩, hno⟩ := h
    -- From the end: the last block, the line in front of it, and then what comes before.
    have hlast := ((ensues_statements (s :: no) hno hrest.dedent).2 (by simp)).indent
    have helse := starts_line free_else.bounded rfl hlast
    have hfurther := ensues_elifs elifs helifs helse.ensues
    have hblock := ((ensues_statements yes hyes hfurther.dedent).2 hne).indent
    have hstatement := starts_condition free_if rfl hcondition hblock
    simp only [Statement.write, Statement.marksWith, List.isEmpty_cons, if_false,
      Bool.false_eq_true, String.toList_append]
    simpa only [List.append_assoc, List.cons_append, List.nil_append] using hstatement
  | .forLoop name source body, h, level, text, ms, hrest => by
    simp only [Statement.isSpellable, Bool.and_eq_true, Bool.not_eq_true',
      List.isEmpty_eq_false_iff] at h
    obtain ⟨⟨⟨hname, hsource⟩, hne⟩, hbody⟩ := h
    have hfor := free_for.next (bounded_name hname)
    have hin := (hfor.close free_in rfl (by decide)).next (bounded_source source hsource)
    have hline := hin.close free_colon rfl (by decide)
    have hblock := ((ensues_statements body hbody hrest.dedent).2 hne).indent
    have hsolid : isSolid ("for " ++ name ++ " in " ++ source.write ++ ":") :=
      isSolid_append (isSolid_append (isSolid_append (isSolid_append rfl)))
    have hstatement := starts_line hline.bounded hsolid hblock
    rw [Statement.write, Statement.marksWith, String.toList_append, List.append_assoc]
    simpa only [List.append_assoc, List.cons_append, List.nil_append] using hstatement
  | .whileLoop condition body, h, level, text, ms, hrest => by
    simp only [Statement.isSpellable, Bool.and_eq_true, Bool.not_eq_true',
      List.isEmpty_eq_false_iff] at h
    obtain ⟨⟨hcondition, hne⟩, hbody⟩ := h
    have hblock := ((ensues_statements body hbody hrest.dedent).2 hne).indent
    have hstatement := starts_condition free_while rfl hcondition hblock
    rw [Statement.write, Statement.marksWith, String.toList_append, List.append_assoc]
    simpa only [List.append_assoc, List.cons_append, List.nil_append] using hstatement
  | .print first rest, h, level, text, ms, hrest => by
    simp only [Statement.isSpellable, Statement.isWritable, Bool.and_eq_true] at h
    have hfirst := free_print.next (bounded_expression first h.1 .whole)
    have hline := (bounded_expressions rest h.2 hfirst).close free_rparen rfl (by decide)
    have hsolid : isSolid ("print(" ++ first.write .whole ++ Expression.writeRest rest ++ ")") :=
      isSolid_append (isSolid_append (isSolid_append rfl))
    have hstatement := starts_line hline.bounded hsolid hrest.after
    simp only [Statement.write, Statement.marksWith, Statement.marks]
    simpa only [List.append_assoc, List.cons_append, List.nil_append] using hstatement
  | .breakLoop, _, level, text, ms, hrest =>
    starts_line (bounded_reserved (s := "break") rfl rfl) rfl hrest.after
  | .literals _, h, _, _, _, _ => by cases h

theorem ensues_elifs : ∀ (elifs : List Elif), Elif.areSpellable elifs →
    ∀ {level : Nat} {text : List Char} {ms : List Mark}, Ensues level text ms →
      Ensues level ((Elif.writeAll level elifs).toList ++ text)
        (Elif.marksAllWith (.name "elif") elifs ++ ms)
  | [], _, _, _, _, hrest => hrest
  | .mk condition body :: elifs, h, level, text, ms, hrest => by
    simp only [Elif.areSpellable, Elif.isSpellable, Bool.and_eq_true, Bool.not_eq_true',
      List.isEmpty_eq_false_iff] at h
    obtain ⟨⟨⟨hcondition, hne⟩, hbody⟩, helifs⟩ := h
    have hfurther := ensues_elifs elifs helifs hrest
    have hblock := ((ensues_statements body hbody hfurther.dedent).2 hne).indent
    have hfirst := (starts_condition free_elif rfl hcondition hblock).ensues
    simp only [Elif.writeAll, Elif.write, Elif.marksAllWith, Elif.marksWith, String.toList_append]
    simpa only [List.append_assoc, List.cons_append, List.nil_append] using hfirst

/-- Written statements in a row. -/
theorem ensues_statements : ∀ (ss : List Statement), Statement.areSpellable ss →
    ∀ {level : Nat} {text : List Char} {ms : List Mark}, Ensues level text ms →
      Ensues level ((Statement.writeAll level ss).toList ++ text)
          (Statement.marksAllWith (.name "elif") ss ++ ms) ∧
        (ss ≠ [] → Starts level ((Statement.writeAll level ss).toList ++ text)
          (Statement.marksAllWith (.name "elif") ss ++ ms))
  | [], _, _, _, _, hrest => ⟨hrest, fun h => absurd rfl h⟩
  | s :: ss, h, level, text, ms, hrest => by
    rw [Statement.areSpellable, Bool.and_eq_true] at h
    have hss := (ensues_statements ss h.2 hrest).1
    have hs := starts_statement s h.1 hss
    rw [Statement.writeAll, Statement.marksAllWith, String.toList_append, List.append_assoc,
      List.append_assoc]
    exact ⟨hs.ensues, fun _ => hs⟩

end

theorem ensues_end : Ensues 0 [] [] where
  after line column := by
    refine ⟨[], ?_, rfl⟩
    rw [scan_lineBreak, scan]
    rfl
  indented := Nat.le_refl 0

/-- The text of a program is cut into the tokens of the program, and `elif` is a name in them. -/
theorem ofSource_spellable {program : List Statement} (h : Statement.areSpellable program) :
    ∃ ts, ofSource (Statement.writeAll 0 program) = .ok ts ∧
      Spells (Statement.marksAllWith (.name "elif") program) ts [] := by
  cases program with
  | nil => exact ⟨[], by rw [ofSource, Statement.writeAll, String.toList_empty, scan]; rfl, rfl⟩
  | cons s ss =>
    have hstarts := (ensues_statements (s :: ss) h ensues_end).2 (List.cons_ne_nil s ss)
    rw [List.append_nil, List.append_nil] at hstarts
    exact hstarts.scan 1 0

/-- The text of a program is cut into the tokens of the program. -/
theorem ofSource_program {program : List Statement} (h : Statement.areWritable program) :
    ∃ ts, ofSource (Statement.writeAll 0 program) = .ok ts ∧
      Spells (Statement.marksAll program) ts [] := by
  rw [Statement.areWritable_eq, Bool.and_eq_true, Bool.not_eq_true'] at h
  rw [← Statement.marksAllWith_eq (.name "elif") program h.2]
  exact ofSource_spellable h.1

end Phrase
end Retrace
