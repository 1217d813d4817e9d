import Mathlib.Data.List.Basic
import Mathlib.Data.List.Induction
import Mathlib.Data.Nat.Digits.Defs
import Retrace.Proofs.IdleLines

/-!
# Tokens written side by side

The tokens of a text stand for lexemes between which there may be anything that separates: blanks,
comments, line breaks, or nothing at all.  Here they are written out again, less those for the
layout, with a single space between any two of them.  What was a numeral in digits of any script is
now one in decimal digits, and everything else is as it was.

That text is cut into the same tokens again.  A lexeme that was found in front of some text is found
in front of every text that starts with a character that separates, since what it consists of does
not depend on what follows it (`Lexical`).  So each token by itself can be read back before a space
(`Recuts`), and a list of such tokens is read back one by one.

What a lexeme consists of has to be said for that in terms of its characters alone.  The scanner
does not find it that way: it tries signs of two characters before those of one, and goes on with a
name as long as it can, so a lexeme is what was left when nothing longer was found.  `Lexical` lists
the five sorts of lexemes that are tokens, by their characters, and is the result of going through
the scanner once.

A numeral is the one token whose text changes, and it may not be longer than a limit.  In decimal
digits it has at most as many digits as it had, since leading zeros are lost and none is gained, so
it stays within the limit.

The layout is lost: the new text has one line, unless a literal text brings a line break along, and
that one is in a literal text again.

* `Lexical`: the characters of the lexemes that are tokens; `lexical_munch`.
* `Recuts`: the tokens that are read back from their contents; `Lexical.recuts`.
* `respaced`: the text of tokens, with a space between any two.
* `ofSource_respaced`: the text of the visible tokens of a text has these tokens.
-/

set_option autoImplicit false

namespace Retrace
namespace Token

variable {c : Char} {cs chars rest : List Char} {opened : List Nat} {k : Kind} {t : Token}

/-! ## The lexemes of tokens -/

/-- The characters of the lexemes that are tokens, by their kinds.  Reserved words are still words
here. -/
inductive Lexical : Kind → List Char → Prop
  | numeral {chars : List Char} (hdigits : ∀ d ∈ chars, Text.Digit.isDigit d = true) :
      Lexical .number chars
  | word {c : Char} {cs : List Char} (hc : isNameStart c = true) (hcs : cs.all isNameChar = true) :
      Lexical .name (c :: cs)
  | quoted {c : Char} {cs : List Char} (hc : isQuote c = true)
      (hcs : cs.dropWhile (· != c) = [c]) : Lexical .string (c :: cs)
  | single {k : Kind} {c : Char} (h : single c = some k) : Lexical k [c]
  | double {k : Kind} {c d : Char} (h : double c d = some k) : Lexical k [c, d]

/-- A literal text ends with its second quote. -/
theorem lexical_munchText (hc : isQuote c = true) (h : (munchText c cs).1 = .token k) :
    Lexical k (munchText c cs).2.1 := by
  unfold munchText at h ⊢
  split at h
  · cases h
  · next d rest hd =>
    cases h
    have hquote : d = c := by
      have hstop := List.head?_dropWhile_not (· != c) cs
      rw [hd] at hstop
      simpa using hstop
    subst hquote
    refine .quoted hc ?_
    rw [List.dropWhile_append_of_pos fun a ha => List.all_eq_true.1 List.all_takeWhile a ha]
    simp

theorem lexical_munchClass (h : (munchClass c cs).1 = .token k) :
    Lexical k (munchClass c cs).2.1 := by
  unfold munchClass at h ⊢
  split_ifs at h ⊢ with hdigit hname hquote
  · cases h
    exact .numeral (forall_mem_munchWhile hdigit)
  · cases h
    exact .word hname List.all_takeWhile
  · exact lexical_munchText hquote h
  all_goals cases h

theorem lexical_munchSingle (h : (munchSingle c cs).1 = .token k) :
    Lexical k (munchSingle c cs).2.1 := by
  unfold munchSingle at h ⊢
  cases hc : single c with
  | some k' =>
    rw [hc] at h
    cases h
    exact .single hc
  | none =>
    rw [hc] at h
    exact lexical_munchClass h

/-- A token that is found at the front of a text has the characters of its kind. -/
theorem lexical_munch (h : (munch c cs).1 = .token k) : Lexical k (munch c cs).2.1 := by
  cases cs with
  | nil => exact lexical_munchSingle h
  | cons d cs =>
    cases hd : double c d with
    | some k' =>
      rw [munch_double hd] at h ⊢
      cases h
      exact .double hd
    | none =>
      simp only [munch, hd] at h ⊢
      exact lexical_munchSingle h

/-- A lexeme that is no numeral is found again wherever a character that separates follows. -/
theorem Lexical.munch_append (h : Lexical k chars) (hk : k ≠ .number) :
    ∃ c cs, chars = c :: cs ∧
      ∀ rest, Boundary rest → munch c (cs ++ rest) = (.token k, chars, rest) := by
  cases h with
  | numeral => exact absurd rfl hk
  | word hc hcs => exact ⟨_, _, rfl, fun rest hrest => munch_word hc hcs hrest⟩
  | quoted hc hcs => exact ⟨_, _, rfl, fun rest _ => munch_quoted hc hcs⟩
  | single h => exact ⟨_, _, rfl, fun rest hrest => munch_single h hrest⟩
  | double h => exact ⟨_, _, rfl, fun rest _ => munch_double h⟩

/-! ## Numerals -/

theorem value?_lt {n : Nat} (h : Text.Digit.value? c = some n) : n < 10 := by
  unfold Text.Digit.value? at h
  split_ifs at h with hascii hdigit
  · simp only [Char.isDigit, Bool.and_eq_true, decide_eq_true_eq, ge_iff_le,
      UInt32.le_iff_toNat_le] at hdigit
    have hnine : c.toNat ≤ 57 := hdigit.2
    cases h
    omega
  · obtain ⟨z, hfind, rfl⟩ := Option.map_eq_some_iff.1 h
    have hz := List.find?_some hfind
    simp only [Bool.and_eq_true, decide_eq_true_eq] at hz
    omega

/-- A number is not larger than its digits allow, in whatever script they are written. -/
theorem ofDigits_lt (chars : List Char) : Text.Digit.ofDigits chars < 10 ^ chars.length := by
  induction chars using List.reverseRecOn with
  | nil => decide
  | append_singleton chars c ih =>
    have hdigit : (Text.Digit.value? c).getD 0 < 10 := by
      cases hc : Text.Digit.value? c with
      | none => decide
      | some n => exact value?_lt hc
    rw [Text.Digit.ofDigits, List.foldl_append, ← Text.Digit.ofDigits, List.length_append,
      List.length_singleton, pow_succ]
    show 10 * Text.Digit.ofDigits chars + _ < _
    omega

/-- In decimal digits a number is not longer than it was in digits of any script. -/
theorem length_toDigits_ofDigits (h : chars.length ≤ numeralLimit) :
    (Nat.toDigits 10 (Text.Digit.ofDigits chars)).length ≤ numeralLimit := by
  refine Nat.toDigits_length 10 _ numeralLimit (by decide) ?_
  exact Nat.lt_of_lt_of_le (ofDigits_lt chars) (Nat.pow_le_pow_right (by decide) h)

/-! ## Tokens that are read back -/

/-- The content of the token, written in front of something that separates, is cut into this token
again. -/
def Recuts (f : Kind × Tree) : Prop :=
  ∀ opened rest, Boundary rest →
    faces opened (f.2.shown.toList ++ rest) = (faces opened rest).map (f :: ·)

theorem recuts_of_munch (hshown : t.content.shown.toList = c :: cs)
    (hmunch : ∀ rest, Boundary rest → munch c (cs ++ rest) = (.token k, c :: cs, rest))
    (ht : ofLexeme k (c :: cs) 0 0 = .ok t) : Recuts t.face := by
  intro opened rest hrest
  have hone : facesOf opened (.token k, c :: cs, rest) = some [t.face] := by
    simp only [facesOf, ht]
    rfl
  have hopened : openedBy opened (.token k, c :: cs, rest) = opened := openedBy_of_ne (by simp)
  rw [face, hshown, List.cons_append, faces, hmunch rest hrest]
  simp only [hone, hopened]
  rfl

/-- A numeral is read back from its decimal digits. -/
theorem recuts_numeral {n : Nat} (hlength : (Nat.toDigits 10 n).length ≤ numeralLimit) :
    Recuts (.number, .int n) := by
  have hshown : (Tree.int n).shown.toList = Nat.toDigits 10 n := by
    rw [show (Tree.int n).shown = toString (n : Int) from String.empty_append]
    exact Nat.toList_repr
  have hdigits : ∀ d ∈ Nat.toDigits 10 n, d.isDigit = true :=
    fun d hd => Nat.isDigit_of_mem_toDigits (by decide) (by decide) hd
  have hvalue := ofDigits_toDigits n
  obtain ⟨c, cs, hchars⟩ := List.exists_cons_of_ne_nil (Nat.toDigits_ne_nil (b := 10) (n := n))
  rw [hchars] at hlength hshown hdigits hvalue
  refine recuts_of_munch (k := .number) (t := ⟨.number, .int n, 0, 0⟩) hshown
    (fun rest hrest => ?_) ?_
  · refine munch_numeral (hdigits c List.mem_cons_self) ?_ hrest
    exact List.all_eq_true.2 fun d hd => hdigits d (List.mem_cons_of_mem c hd)
  · simp only [ofLexeme, if_neg (Nat.not_lt.2 hlength), hvalue]
    rfl

/-- All tokens but numerals hold their characters. -/
theorem content_ofLexeme {line column : Nat} (hk : k ≠ .number)
    (ht : ofLexeme k chars line column = .ok t) : t.content = .text (String.ofList chars) := by
  unfold ofLexeme at ht
  split at ht
  · exact absurd rfl hk
  · cases ht
    rfl
  · cases ht
    rfl

/-- Every token of a text is read back from its content. -/
theorem Lexical.recuts (h : Lexical k chars) (ht : ofLexeme k chars 0 0 = .ok t) :
    Recuts t.face := by
  by_cases hk : k = .number
  · subst hk
    simp only [ofLexeme] at ht
    split at ht
    · cases ht
    · next hlength =>
      cases ht
      exact recuts_numeral (length_toDigits_ofDigits (Nat.not_lt.1 hlength))
  · obtain ⟨c, cs, rfl, hmunch⟩ := h.munch_append hk
    refine recuts_of_munch ?_ hmunch ht
    rw [content_ofLexeme hk ht]
    exact String.toList_ofList

theorem recuts_of_facesOf {fs : List (Kind × Tree)}
    (h : facesOf opened (munch c cs) = some fs) : ∀ f ∈ fs.filter shows, Recuts f := by
  unfold facesOf at h
  split at h
  · next k hk =>
    cases ht : ofLexeme k (munch c cs).2.1 0 0 with
    | error e =>
      rw [ht] at h
      cases h
    | ok t =>
      rw [ht] at h
      cases h
      intro f hf
      rw [List.mem_singleton.1 (List.mem_of_mem_filter hf)]
      exact (lexical_munch hk).recuts ht
  · cases h
    simp
  · cases h
    simp [filter_margin]
  · cases h

/-- Every visible token of a text is read back from its content. -/
theorem recuts_of_faces {fs : List (Kind × Tree)} (h : faces opened cs = some fs) :
    ∀ f ∈ fs.filter shows, Recuts f := by
  induction cs using munch_induction generalizing opened fs with
  | nil =>
    rw [faces] at h
    cases h
    simp [filter_dedents]
  | cons c cs ih =>
    rw [faces] at h
    cases hfirst : facesOf opened (munch c cs) with
    | none =>
      rw [hfirst] at h
      cases h
    | some first =>
      simp only [hfirst] at h
      obtain ⟨more, hmore, rfl⟩ := Option.map_eq_some_iff.1 h
      intro f hf
      rw [List.filter_append, List.mem_append] at hf
      rcases hf with hf | hf
      · exact recuts_of_facesOf hfirst f hf
      · exact ih hmore f hf

/-! ## Side by side -/

theorem faces_space (opened : List Nat) (cs : List Char) :
    faces opened (' ' :: cs) = faces opened cs := by
  rw [← faces_dropWhile_blank, List.dropWhile_cons_of_pos (by decide), faces_dropWhile_blank]

/-- Tokens that are read back one by one are read back side by side. -/
theorem faces_intercalate {fs : List (Kind × Tree)} (h : ∀ f ∈ fs, Recuts f) :
    faces [] (" ".intercalate (fs.map fun f => f.2.shown)).toList = some fs := by
  induction fs with
  | nil => simp [faces]
  | cons f fs ih =>
    have hfirst : Recuts f := h f List.mem_cons_self
    have hrest := ih fun g hg => h g (List.mem_cons_of_mem f hg)
    cases fs with
    | nil =>
      have hlast := hfirst [] [] (by simp [Boundary])
      rw [List.append_nil] at hlast
      simpa [faces] using hlast
    | cons g fs =>
      have hsplit : (" ".intercalate ((f :: g :: fs).map fun f => f.2.shown)).toList =
          f.2.shown.toList ++
            ' ' :: (" ".intercalate ((g :: fs).map fun f => f.2.shown)).toList := by
        simp [String.intercalate_cons_cons]
      rw [hsplit, hfirst [] _ (boundary_cons (by decide)), faces_space, hrest, Option.map_some]

/-- The text of tokens: their contents with a space between any two. -/
def respaced (ts : List Token) : String :=
  " ".intercalate (ts.map fun t => t.content.shown)

end Token

open Token in
/-- **The tokens of a text stay the same when they are written side by side.**  The visible tokens
of a text, written with a space between any two of them, are a text that has these tokens and no
others. -/
theorem ofSource_respaced {code : String} {ts : List Token} (h : ofSource code = .ok ts) :
    ∃ ts', ofSource (respaced (ts.filter isVisible)) = .ok ts' ∧
      ts'.map face = (ts.filter isVisible).map face := by
  have hvisible : (ts.filter isVisible).map face = (ts.map face).filter shows := by
    rw [List.filter_map]
    rfl
  have hrecuts := recuts_of_faces (ofSource_eq_ok_iff.2 ⟨ts, h, rfl⟩)
  rw [← hvisible] at hrecuts
  have hfaces := faces_intercalate hrecuts
  rw [List.map_map] at hfaces
  exact ofSource_eq_ok_iff.1 hfaces

open Token in
set_option maxRecDepth 4000 in
/-- A literal text over two lines, a comment, a block, a digit of another script and a zero in front
of a numeral. -/
theorem ofSource_respaced_scripts :
    ∃ ts ts', ofSource "if x==\"a\n#\":# c\n\ty=٣//=07\n" = .ok ts ∧
      respaced (ts.filter isVisible) = "if x == \"a\n#\" : y = 3 // = 7" ∧
      ofSource "if x == \"a\n#\" : y = 3 // = 7" = .ok ts' ∧
      ts'.map face = (ts.filter isVisible).map face := by
  obtain ⟨ts, hts, htext⟩ : ∃ ts, ofSource "if x==\"a\n#\":# c\n\ty=٣//=07\n" = .ok ts ∧
      respaced (ts.filter isVisible) = "if x == \"a\n#\" : y = 3 // = 7" :=
    ⟨_, by cbv, by cbv⟩
  obtain ⟨ts', hts', hfaces⟩ := ofSource_respaced hts
  exact ⟨ts, ts', hts, htext, htext ▸ hts', hfaces⟩

end Retrace
