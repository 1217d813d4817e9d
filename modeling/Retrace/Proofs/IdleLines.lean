import Mathlib.Algebra.Order.Ring.Int
import Mathlib.Tactic.SplitIfs
import Retrace.Proofs.Lexing
import Retrace.Proofs.Nesting

/-!
# Lines without tokens

A line that is blank, or holds nothing but a comment, gives no tokens of its own.  Its indentation
is looked at all the same, as if a statement stood there: it may open a block or close some, and the
line after it is compared with what is open then.  So such a line can be told from the tokens unless
it is indented like the lines around it, and this module says exactly when.

Places do not matter here, as a line more moves all that comes after it; so tokens are taken without
them.  `faces` is a scanner that gives tokens without places, and `scan_faces` says that it gives
those of the scanner.  It depends on the text and on the indentations that are open, and on nothing
else, and thus a text can be followed from any place of it on.

The text in front of a line break is cut into the same tokens whatever comes after the break
(`faces_append`), if the break is in no literal text.  This is not obvious, since the scanner takes
the longest piece that it can, and a piece may go on across the break: a quote that is closed
further down makes a literal text of all that is in between.  The condition that the break is in no
literal text (`InLiteral`) is just what rules this out, and it is needed, as a line that is put into
a literal text becomes a part of it.

What is left is to compare the tokens of the rest for different indentations that are open.  They
start with the same visible token, unless the rest starts with idle lines itself, and then an
induction on these lines decides (`opens_iff`, `reopens_ne`).  The condition that comes out
(`Unnoticed`) has three cases: the line is indented like the line before it; or it opens a block
that the next line would have opened; or it closes blocks that the next line would have closed, and
nothing is left to be opened again.  One of the cases has an idle line behind it, since there it is
the line after that one which counts.

* `faces`: the tokens of a text without their places; `scan_faces` ties them to the scanner.
* `InLiteral`: places inside of literal texts.
* `Idle`: lines without tokens.
* `Unnoticed`: when such a line makes no difference; `margin_eq_iff`.
* `idle_line_unnoticed_iff`: the statement about whole texts.
-/

set_option autoImplicit false

namespace Retrace
namespace Token

open Phrase (indentation)

variable {c : Char} {cs rest : List Char} {opened : List Nat}

/-! ## Tokens without their places -/

/-- A token without its place: its kind and its content. -/
def face (t : Token) : Kind × Tree :=
  (t.kind, t.content)

/-- The layout tokens that an indentation gives rise to. -/
def margin (n : Nat) (opened : List Nat) : List (Kind × Tree) :=
  if level opened < n then [(.indent, .int n)]
  else (opened.takeWhile (n < ·)).map fun _ => (.dedent, .int n)

/-- The indentations that are open after a line with the given one. -/
def settle (n : Nat) (opened : List Nat) : List Nat :=
  if level opened < n then n :: opened else opened.dropWhile (n < ·)

/-- The tokens of a lexeme without their places, and nothing if it is a stray character or a numeral
that is too long. -/
def facesOf (opened : List Nat) (lexeme : Lexeme × List Char × List Char) :
    Option (List (Kind × Tree)) :=
  match lexeme.1 with
  | .token kind => (ofLexeme kind lexeme.2.1 0 0).toOption.map fun t => [t.face]
  | .blank => some []
  | .lineBreak => some (margin (indentation lexeme.2.2) opened)
  | .stray => none

/-- The indentations that are open after a lexeme. -/
def openedBy (opened : List Nat) (lexeme : Lexeme × List Char × List Char) : List Nat :=
  if lexeme.1 = .lineBreak then settle (indentation lexeme.2.2) opened else opened

theorem openedBy_of_ne {lexeme : Lexeme × List Char × List Char} (h : lexeme.1 ≠ .lineBreak) :
    openedBy opened lexeme = opened :=
  if_neg h

/-- The tokens of a text without their places, and nothing if the text cannot be cut into tokens. -/
def faces (opened : List Nat) : List Char → Option (List (Kind × Tree))
  | [] => some (opened.map fun n : Nat => (.dedent, .int n))
  | c :: cs =>
    let lexeme := munch c cs
    match facesOf opened lexeme with
    | none => none
    | some fs => (faces (openedBy opened lexeme) lexeme.2.2).map (fs ++ ·)
termination_by cs => cs.length
decreasing_by exact munch_length c cs

/-- The tokens of an indentation do not depend on the line that it is in. -/
theorem layout_faces (n line column : Nat) (opened : List Nat) :
    (layout n line column opened).1.map face = margin n opened ∧
      (layout n line column opened).2 = settle n opened := by
  unfold layout margin settle
  split
  · exact ⟨rfl, rfl⟩
  · exact ⟨by rw [List.map_map]; rfl, rfl⟩

/-- The token of a lexeme is the same at all places, but for its place. -/
theorem ofLexeme_place (kind : Kind) (chars : List Char) (line column : Nat) :
    ofLexeme kind chars line column =
      (ofLexeme kind chars 0 0).map fun t => { t with line := line, column := column } := by
  unfold ofLexeme
  split
  · split <;> rfl
  · rfl
  · rfl

/-- Without their places the tokens of the scanner are the faces of the text. -/
theorem scan_faces (line column : Nat) (opened : List Nat) (cs : List Char) :
    (scan line column opened cs).toOption.map (List.map face) = faces opened cs := by
  induction cs using munch_induction generalizing line column opened with
  | nil =>
    rw [scan, faces, closing]
    exact congrArg some List.map_map
  | cons c cs ih =>
    rw [scan, faces]
    generalize munch c cs = lexeme at ih ⊢
    obtain ⟨sort, chars, rest⟩ := lexeme
    cases sort with
    | token k =>
      rw [openedBy_of_ne (by simp)]
      simp only [facesOf, ofLexeme_place k chars line column]
      cases ofLexeme k chars 0 0 with
      | error e => rfl
      | ok t =>
        simp only [Except.map, ← ih line (column + chars.length) opened]
        cases scan line (column + chars.length) opened rest <;> rfl
    | blank =>
      rw [openedBy_of_ne (by simp)]
      simp only [facesOf, ← ih line (column + chars.length) opened]
      cases scan line (column + chars.length) opened rest <;> rfl
    | lineBreak =>
      obtain ⟨hfaces, hopened⟩ :=
        layout_faces (rest.takeWhile isBlank).length (line + 1) column opened
      simp only [facesOf, openedBy, if_true, indentation, ← hfaces, ← hopened, ← ih (line + 1) 0]
      generalize layout (rest.takeWhile isBlank).length (line + 1) column opened = step
      cases scan (line + 1) 0 step.2 rest with
      | error e => rfl
      | ok ts => exact congrArg some List.map_append
    | stray => rfl

/-! ## The ends of lines -/

/-- The text is at its end, or at a line break. -/
def LineEnd (cs : List Char) : Prop :=
  ∀ d ∈ cs.head?, d = '\n'

theorem lineEnd_nil : LineEnd [] :=
  nofun

theorem lineEnd_lineBreak (cs : List Char) : LineEnd ('\n' :: cs) := by
  intro d hd
  exact (Option.mem_some_iff.1 hd).symm

/-- What has no line break among it ends with its line. -/
theorem LineEnd.takeWhile_append {p : Char → Bool} (h : LineEnd rest) (hp : p '\n' = false)
    (cs : List Char) :
    (cs ++ rest).takeWhile p = cs.takeWhile p ∧
      (cs ++ rest).dropWhile p = cs.dropWhile p ++ rest := by
  induction cs with
  | nil =>
    cases rest with
    | nil => exact ⟨rfl, rfl⟩
    | cons d rest =>
      obtain rfl : d = '\n' := h d rfl
      simp [hp]
  | cons c cs ih =>
    rw [List.cons_append]
    by_cases hc : p c = true
    · simp [hc, ih]
    · simp [hc]

theorem LineEnd.indentation_append (h : LineEnd rest) (cs : List Char) :
    indentation (cs ++ rest) = indentation cs := by
  rw [indentation, (h.takeWhile_append (by decide) cs).1, indentation]

/-- What ends within a text ends there whatever follows. -/
theorem takeWhile_append_of_dropWhile {p : Char → Bool} (h : cs.dropWhile p ≠ [])
    (rest : List Char) :
    (cs ++ rest).takeWhile p = cs.takeWhile p ∧
      (cs ++ rest).dropWhile p = cs.dropWhile p ++ rest := by
  induction cs with
  | nil => exact absurd rfl h
  | cons c cs ih =>
    rw [List.cons_append]
    by_cases hc : p c = true
    · rw [List.dropWhile_cons_of_pos hc] at h
      simp [hc, ih h]
    · simp [hc]

/-- A lexeme with more text behind it. -/
def followedBy (rest : List Char) (lexeme : Lexeme × List Char × List Char) :
    Lexeme × List Char × List Char :=
  (lexeme.1, lexeme.2.1, lexeme.2.2 ++ rest)

theorem munchWhile_lineEnd {sort : Lexeme} {p : Char → Bool} (h : LineEnd rest)
    (hp : p '\n' = false) :
    munchWhile sort p c (cs ++ rest) = followedBy rest (munchWhile sort p c cs) := by
  obtain ⟨htake, hdrop⟩ := h.takeWhile_append hp cs
  rw [munchWhile, htake, hdrop, followedBy, munchWhile]

theorem munchText_append_of_ne_stray (hs : (munchText c cs).1 ≠ .stray) :
    munchText c (cs ++ rest) = followedBy rest (munchText c cs) := by
  unfold munchText at hs ⊢
  split at hs
  · exact absurd rfl hs
  · next d after hd =>
    have hne : cs.dropWhile (· != c) ≠ [] := by
      rw [hd]
      exact List.cons_ne_nil d after
    obtain ⟨htake, hdrop⟩ := takeWhile_append_of_dropWhile hne rest
    rw [htake, hdrop, hd]
    rfl

theorem munchClass_lineEnd (h : LineEnd rest) (hs : (munchClass c cs).1 ≠ .stray) :
    munchClass c (cs ++ rest) = followedBy rest (munchClass c cs) := by
  unfold munchClass at hs ⊢
  split_ifs at hs ⊢
  · exact munchWhile_lineEnd h (by decide)
  · exact munchWhile_lineEnd h (by decide)
  · exact munchText_append_of_ne_stray hs
  · exact munchWhile_lineEnd h (by decide)
  · exact munchWhile_lineEnd h (by decide)
  · rfl
  · rfl

theorem munchSingle_lineEnd (h : LineEnd rest) (cs : List Char)
    (hs : (munchSingle c cs).1 ≠ .stray) :
    munchSingle c (cs ++ rest) = followedBy rest (munchSingle c cs) := by
  unfold munchSingle at hs ⊢
  cases hc : single c with
  | some k => rfl
  | none =>
    rw [hc] at hs
    exact munchClass_lineEnd h hs

theorem LineEnd.facesOf_followedBy (h : LineEnd rest) (opened : List Nat)
    (lexeme : Lexeme × List Char × List Char) :
    facesOf opened (followedBy rest lexeme) = facesOf opened lexeme := by
  simp only [facesOf, followedBy, h.indentation_append]

theorem LineEnd.openedBy_followedBy (h : LineEnd rest) (opened : List Nat)
    (lexeme : Lexeme × List Char × List Char) :
    openedBy opened (followedBy rest lexeme) = openedBy opened lexeme := by
  simp only [openedBy, followedBy, h.indentation_append]

/-- The characters of no sign go on in the next line. -/
theorem munch_of_lineEnd (h : LineEnd rest) : munch c rest = munchSingle c rest := by
  cases rest with
  | nil => rfl
  | cons d rest =>
    obtain rfl : d = '\n' := h d rfl
    simp only [munch, double_of_separator (by decide : '\n' ∈ separators)]

/-- A lexeme of a line is the same whatever comes in the lines after it. -/
theorem munch_lineEnd (h : LineEnd rest) (hs : (munch c cs).1 ≠ .stray) :
    munch c (cs ++ rest) = followedBy rest (munch c cs) := by
  cases cs with
  | nil =>
    rw [List.nil_append, munch_of_lineEnd h]
    exact munchSingle_lineEnd h [] hs
  | cons d cs =>
    rw [List.cons_append]
    cases hd : double c d with
    | some k => rw [munch_double hd, munch_double hd, followedBy]
    | none =>
      simp only [munch, hd] at hs ⊢
      exact munchSingle_lineEnd h (d :: cs) hs

/-- A literal text goes on beyond what is given of it, and ends later. -/
def GoesOn (rest : List Char) (lexeme : Lexeme × List Char × List Char) : Prop :=
  lexeme.1 = .token .string ∧ lexeme.2.2.length < rest.length

theorem munchText_goesOn (hs : (munchText c cs).1 = .stray)
    (hs' : (munchText c (cs ++ rest)).1 ≠ .stray) : GoesOn rest (munchText c (cs ++ rest)) := by
  unfold munchText at hs hs' ⊢
  split at hs
  · next hnil =>
    have hdrop : (cs ++ rest).dropWhile (· != c) = rest.dropWhile (· != c) := by
      rw [List.dropWhile_append, hnil]
      rfl
    split at hs'
    · exact absurd rfl hs'
    · next d after hd =>
      refine ⟨rfl, ?_⟩
      rw [hdrop] at hd
      have hle := (List.dropWhile_sublist (l := rest) (· != c)).length_le
      rw [hd] at hle
      exact hle
  · cases hs

theorem munchClass_goesOn (hs : (munchClass c cs).1 = .stray)
    (hs' : (munchClass c (cs ++ rest)).1 ≠ .stray) : GoesOn rest (munchClass c (cs ++ rest)) := by
  unfold munchClass at hs hs' ⊢
  split_ifs at hs hs' ⊢
  all_goals first
    | exact munchText_goesOn hs hs'
    | exact absurd rfl hs'
    | cases hs

theorem munchSingle_goesOn (cs : List Char) (hs : (munchSingle c cs).1 = .stray)
    (hs' : (munchSingle c (cs ++ rest)).1 ≠ .stray) :
    GoesOn rest (munchSingle c (cs ++ rest)) := by
  unfold munchSingle at hs hs' ⊢
  cases hc : single c with
  | some k =>
    rw [hc] at hs
    cases hs
  | none =>
    simp only [hc] at hs hs' ⊢
    exact munchClass_goesOn hs hs'

/-- What is no lexeme of its line can only be the first line of a literal text. -/
theorem munch_goesOn (h : LineEnd rest) (hs : (munch c cs).1 = .stray)
    (hs' : (munch c (cs ++ rest)).1 ≠ .stray) : GoesOn rest (munch c (cs ++ rest)) := by
  cases cs with
  | nil =>
    rw [List.nil_append, munch_of_lineEnd h] at hs' ⊢
    exact munchSingle_goesOn [] hs hs'
  | cons d cs =>
    rw [List.cons_append] at hs' ⊢
    cases hd : double c d with
    | some k =>
      rw [munch_double hd] at hs
      cases hs
    | none =>
      simp only [munch, hd] at hs hs' ⊢
      exact munchSingle_goesOn (d :: cs) hs hs'

/-! ## Line breaks outside of literal texts -/

/-- Lexeme by lexeme the scanner comes from one place of the text to another. -/
inductive Reaches : List Char → List Char → Prop
  | refl (cs : List Char) : Reaches cs cs
  | step {c : Char} {cs rest : List Char} (h : Reaches (munch c cs).2.2 rest) :
      Reaches (c :: cs) rest

/-- The place of the text where `rest` is left lies inside of a literal text: after its first
character and before its end. -/
def InLiteral (text rest : List Char) : Prop :=
  ∃ c cs, Reaches text (c :: cs) ∧ (munch c cs).1 = .token .string ∧
    (munch c cs).2.2.length < rest.length ∧ rest.length < (c :: cs).length

/-- A place in a literal text further on. -/
theorem InLiteral.step (h : InLiteral (munch c cs).2.2 rest) : InLiteral (c :: cs) rest := by
  obtain ⟨q, after, hreaches, hplace⟩ := h
  exact ⟨q, after, .step hreaches, hplace⟩

theorem Reaches.subset {text : List Char} (h : Reaches text rest) : rest ⊆ text := by
  induction h with
  | refl => exact List.Subset.refl _
  | @step c cs rest _ ih =>
    rw [← munch_append c cs]
    exact List.subset_append_of_subset_right _ ih

theorem isQuote_of_string (h : (munch c cs).1 = .token .string) : isQuote c = true := by
  have hclass (cs : List Char) (h : (munchSingle c cs).1 = .token .string) : isQuote c = true := by
    unfold munchSingle at h
    split at h
    · next k hk =>
      cases h
      unfold single at hk
      split at hk <;> cases hk
    · unfold munchClass at h
      split_ifs at h <;> first | assumption | cases h
  cases cs with
  | nil => exact hclass [] h
  | cons d cs =>
    cases hd : double c d with
    | some k =>
      rw [munch_double hd] at h
      cases h
      unfold double at hd
      split at hd <;> cases hd
    | none =>
      simp only [munch, hd] at h
      exact hclass _ h

/-- A text without quotes holds no literal texts. -/
theorem not_inLiteral {text : List Char} (h : ∀ c ∈ text, isQuote c = false) (rest : List Char) :
    ¬ InLiteral text rest := by
  rintro ⟨c, cs, hreaches, hstring, -⟩
  have hc := h c (hreaches.subset (List.mem_cons_self ..))
  rw [isQuote_of_string hstring] at hc
  cases hc

/-- The indentations that are open after a text. -/
def openedAfter (opened : List Nat) : List Char → List Nat
  | [] => opened
  | c :: cs => openedAfter (openedBy opened (munch c cs)) (munch c cs).2.2
termination_by cs => cs.length
decreasing_by exact munch_length c cs

/-- A text is cut into the same tokens, with the same indentations open after them, whatever follows
it at a line break that is in no literal text. -/
theorem faces_append (hrest : LineEnd rest) (text : List Char) (opened : List Nat)
    (hplace : ¬ InLiteral (text ++ rest) rest) (h : faces opened (text ++ rest) ≠ none) :
    ∃ fs, ∀ rest', LineEnd rest' →
      faces opened (text ++ rest') = (faces (openedAfter opened text) rest').map (fs ++ ·) := by
  induction text using munch_induction generalizing opened with
  | nil =>
    refine ⟨[], fun rest' _ => ?_⟩
    rw [List.nil_append, openedAfter]
    exact Option.map_id'.symm
  | cons c cs ih =>
    rw [List.cons_append, faces] at h
    -- what is stray by itself, but not before `rest`, is a text that is open where `rest` starts
    have hsort : (munch c cs).1 ≠ .stray := by
      intro hstray
      have hsort' : (munch c (cs ++ rest)).1 ≠ .stray := by
        intro hstray'
        simp only [facesOf, hstray'] at h
        exact h rfl
      obtain ⟨hstring, hlength⟩ := munch_goesOn hrest hstray hsort'
      have hshorter : rest.length < (c :: (cs ++ rest)).length := by
        rw [List.length_cons, List.length_append]
        omega
      exact hplace ⟨c, cs ++ rest, .refl _, hstring, hlength, hshorter⟩
    have hmunch (rest' : List Char) (h' : LineEnd rest') :
        munch c (cs ++ rest') = followedBy rest' (munch c cs) := munch_lineEnd h' hsort
    have hplace' : ¬ InLiteral ((munch c cs).2.2 ++ rest) rest := by
      intro hin
      have hstep : InLiteral (munch c (cs ++ rest)).2.2 rest := by rwa [hmunch rest hrest]
      exact hplace hstep.step
    rw [hmunch rest hrest, hrest.facesOf_followedBy, hrest.openedBy_followedBy] at h
    cases hfaces : facesOf opened (munch c cs) with
    | none =>
      rw [hfaces] at h
      exact absurd rfl h
    | some fs =>
      rw [hfaces] at h
      obtain ⟨fs', hfs'⟩ := ih (openedBy opened (munch c cs)) hplace' fun hnone => by
        rw [followedBy, hnone] at h
        exact h rfl
      refine ⟨fs ++ fs', fun rest' h' => ?_⟩
      rw [List.cons_append, faces, hmunch rest' h', h'.facesOf_followedBy,
        h'.openedBy_followedBy, hfaces, openedAfter]
      simp only [followedBy, hfs' rest' h', Option.map_map, Function.comp_def, List.append_assoc]

/-! ## Layout tokens and visible ones -/

/-- Does the token stand for characters of the text, and not for its layout? -/
def shows (f : Kind × Tree) : Bool :=
  f.1 != .indent && f.1 != .dedent

theorem filter_dedents (n : Nat → Tree) (opened : List Nat) :
    (opened.map fun m => (Kind.dedent, n m)).filter shows = [] := by
  rw [List.filter_eq_nil_iff]
  intro f hf
  obtain ⟨_, _, rfl⟩ := List.mem_map.1 hf
  simp [shows]

theorem filter_margin (n : Nat) (opened : List Nat) : (margin n opened).filter shows = [] := by
  unfold margin
  split
  · rfl
  · exact filter_dedents (fun _ => .int n) _

theorem filter_facesOf (opened opened' : List Nat) (lexeme : Lexeme × List Char × List Char) :
    (facesOf opened lexeme).map (List.filter shows) =
      (facesOf opened' lexeme).map (List.filter shows) := by
  unfold facesOf
  split
  · rfl
  · rfl
  · simp only [Option.map_some, filter_margin]
  · rfl

/-- The indentations that are open make no difference to the visible tokens. -/
theorem filter_faces (cs : List Char) (opened opened' : List Nat) :
    (faces opened cs).map (List.filter shows) = (faces opened' cs).map (List.filter shows) := by
  induction cs using munch_induction generalizing opened opened' with
  | nil => simp only [faces, Option.map_some, filter_dedents]
  | cons c cs ih =>
    have hlexeme := filter_facesOf opened opened' (munch c cs)
    have hrest := ih (openedBy opened (munch c cs)) (openedBy opened' (munch c cs))
    simp only [faces]
    generalize faces (openedBy opened (munch c cs)) (munch c cs).2.2 = after at hrest
    generalize faces (openedBy opened' (munch c cs)) (munch c cs).2.2 = after' at hrest
    cases hfs : facesOf opened (munch c cs) <;> cases hfs' : facesOf opened' (munch c cs) <;>
      cases after <;> cases after' <;> simp_all

/-- Whether a text can be cut into tokens does not depend on the indentations that are open. -/
theorem exists_faces {fs : List (Kind × Tree)} (h : faces opened cs = some fs)
    (opened' : List Nat) :
    ∃ fs', faces opened' cs = some fs' ∧ fs'.filter shows = fs.filter shows := by
  have heq := filter_faces cs opened' opened
  rw [h, Option.map_some, Option.map_eq_some_iff] at heq
  exact heq

/-! ## Idle lines -/

/-- A line that is blank, or holds a comment and nothing else. -/
def Idle (line : List Char) : Prop :=
  '\n' ∉ line ∧ ∀ c ∈ (line.dropWhile isBlank).head?, c = '#'

instance (line : List Char) : Decidable (Idle line) :=
  inferInstanceAs (Decidable (_ ∧ _))

/-- A comment goes on to the end of its line. -/
theorem munch_comment (cs : List Char) :
    munch '#' cs = (.blank, '#' :: cs.takeWhile (· != '\n'), cs.dropWhile (· != '\n')) := by
  cases cs <;> rfl

/-- Blanks in front of a text make no difference. -/
theorem faces_dropWhile_blank (opened : List Nat) (cs : List Char) :
    faces opened (cs.dropWhile isBlank) = faces opened cs := by
  cases cs with
  | nil => rfl
  | cons c cs =>
    by_cases hc : isBlank c = true
    · rw [List.dropWhile_cons_of_pos hc, faces, munch_blank hc]
      exact Option.map_id'.symm
    · rw [List.dropWhile_cons_of_neg hc]

/-- An idle line has no tokens. -/
theorem faces_idle {line : List Char} (h : Idle line) (hrest : LineEnd rest) (opened : List Nat) :
    faces opened (line ++ rest) = faces opened rest := by
  rw [← faces_dropWhile_blank, (hrest.takeWhile_append (by decide) line).2]
  obtain ⟨hline, hcomment⟩ := h
  have hdrop : '\n' ∉ line.dropWhile isBlank := fun hmem =>
    hline ((List.dropWhile_sublist _).subset hmem)
  generalize line.dropWhile isBlank = comment at hdrop hcomment
  cases comment with
  | nil => rfl
  | cons c comment =>
    obtain rfl : c = '#' := hcomment c rfl
    have hall : ∀ d ∈ comment, (d != '\n') = true := by
      intro d hd
      rw [bne_iff_ne]
      rintro rfl
      exact hdrop (List.mem_cons_of_mem _ hd)
    have hstop : rest.dropWhile (· != '\n') = rest := by
      simpa using (hrest.takeWhile_append (p := (· != '\n')) (by decide) []).2
    rw [List.cons_append, faces, munch_comment, List.dropWhile_append_of_pos hall, hstop]
    exact Option.map_id'

/-- What the first line of a text holds: nothing, and there is no other line; nothing, and there are
further lines; or something. -/
inductive FirstLine : List Char → Prop
  | last {line : List Char} (h : Idle line) : FirstLine line
  | idle {line rest : List Char} (h : Idle line) : FirstLine (line ++ '\n' :: rest)
  | solid {blanks rest : List Char} {c : Char} (hblanks : ∀ d ∈ blanks, isBlank d = true)
      (hblank : isBlank c = false) (hcomment : c ≠ '#') (hline : c ≠ '\n') :
      FirstLine (blanks ++ c :: rest)

theorem idle_append {blanks comment : List Char} (hblanks : ∀ d ∈ blanks, isBlank d = true)
    (hline : '\n' ∉ comment) (hsign : ∀ c ∈ comment.head?, c = '#') : Idle (blanks ++ comment) := by
  refine ⟨?_, ?_⟩
  · rw [List.mem_append, not_or]
    exact ⟨fun hmem => absurd (hblanks _ hmem) (by decide), hline⟩
  · rw [List.dropWhile_append_of_pos hblanks]
    intro c hc
    cases comment with
    | nil => cases hc
    | cons d comment =>
      obtain rfl : d = '#' := hsign d rfl
      exact (Option.mem_some_iff.1 hc).symm

theorem firstLine_comment {blanks : List Char} (hblanks : ∀ d ∈ blanks, isBlank d = true)
    (cs : List Char) : FirstLine (blanks ++ '#' :: cs) := by
  have hline : '\n' ∉ '#' :: cs.takeWhile (· != '\n') := by
    rw [List.mem_cons, not_or]
    refine ⟨by decide, fun hmem => ?_⟩
    have := List.all_eq_true.1 List.all_takeWhile '\n' hmem
    simp at this
  have hidle := idle_append hblanks hline fun c hc => (Option.mem_some_iff.1 hc).symm
  have hstop := List.head?_dropWhile_not (· != '\n') cs
  rw [← List.takeWhile_append_dropWhile (p := (· != '\n')) (l := cs)]
  cases hdrop : cs.dropWhile (· != '\n') with
  | nil =>
    rw [List.append_nil]
    exact .last hidle
  | cons d rest =>
    rw [hdrop] at hstop
    obtain rfl : d = '\n' := by simpa using hstop
    rw [← List.cons_append, ← List.append_assoc]
    exact .idle hidle

/-- Every text starts with an idle line, or with one that has a token. -/
theorem firstLine (cs : List Char) : FirstLine cs := by
  have hsplit : cs.takeWhile isBlank ++ cs.dropWhile isBlank = cs := List.takeWhile_append_dropWhile
  have hblanks : ∀ d ∈ cs.takeWhile isBlank, isBlank d = true :=
    List.all_eq_true.1 List.all_takeWhile
  have hhead := List.head?_dropWhile_not isBlank cs
  have hidle := idle_append hblanks List.not_mem_nil nofun
  generalize cs.takeWhile isBlank = blanks at hsplit hblanks hidle
  generalize cs.dropWhile isBlank = after at hsplit hhead
  subst hsplit
  cases after with
  | nil => exact .last hidle
  | cons c after =>
    by_cases hline : c = '\n'
    · subst hline
      rw [List.append_nil] at hidle
      exact .idle hidle
    by_cases hcomment : c = '#'
    · subst hcomment
      exact firstLine_comment hblanks after
    · exact .solid hblanks (by simpa using hhead) hcomment hline

theorem munch_lineBreak (cs : List Char) : munch '\n' cs = (.lineBreak, ['\n'], cs) := by
  cases cs <;> rfl

theorem faces_lineBreak (opened : List Nat) (cs : List Char) :
    faces opened ('\n' :: cs) =
      (faces (settle (indentation cs) opened) cs).map (margin (indentation cs) opened ++ ·) := by
  rw [faces, munch_lineBreak]
  rfl

/-- An idle line with the next line break in front of a text. -/
theorem faces_idle_lineBreak {line : List Char} (h : Idle line) (opened : List Nat)
    (cs : List Char) :
    faces opened (line ++ '\n' :: cs) =
      (faces (settle (indentation cs) opened) cs).map (margin (indentation cs) opened ++ ·) := by
  rw [faces_idle h (lineEnd_lineBreak cs), faces_lineBreak]

/-- What starts neither a blank, a comment nor a line break is a token, or stray. -/
theorem munch_solid (cs : List Char) (hblank : isBlank c = false) (hcomment : c ≠ '#')
    (hline : c ≠ '\n') :
    (munch c cs).1 = .stray ∨ ∃ k, (munch c cs).1 = .token k := by
  have hfits := munch_fits c cs
  have happend := munch_append c cs
  have hne := munch_ne_nil c cs
  generalize munch c cs = lexeme at *
  obtain ⟨sort, chars, rest⟩ := lexeme
  cases sort with
  | token k => exact .inr ⟨k, rfl⟩
  | stray => exact .inl rfl
  | blank =>
    cases hfits with
    | comment => exact absurd (List.cons.inj happend).1.symm hcomment
    | space hall =>
      cases chars with
      | nil => exact absurd rfl hne
      | cons d chars =>
        obtain rfl : d = c := (List.cons.inj happend).1
        rw [hall d (List.mem_cons_self ..)] at hblank
        cases hblank
  | lineBreak =>
    cases hfits
    exact absurd (List.cons.inj happend).1.symm hline

/-- A line that is not idle starts with a token. -/
theorem faces_solid {blanks : List Char} (hblanks : ∀ d ∈ blanks, isBlank d = true)
    (hblank : isBlank c = false) (hcomment : c ≠ '#') (hline : c ≠ '\n')
    {fs : List (Kind × Tree)} (h : faces opened (blanks ++ c :: cs) = some fs) :
    ∃ f fs', fs = f :: fs' ∧ shows f = true := by
  rw [← faces_dropWhile_blank, List.dropWhile_append_of_pos hblanks,
    List.dropWhile_cons_of_neg (by simp [hblank]), faces] at h
  have hfits := munch_fits c cs
  rcases munch_solid cs hblank hcomment hline with hsort | ⟨k, hsort⟩
  · simp only [facesOf, hsort] at h
    cases h
  · rw [hsort] at hfits
    simp only [facesOf, hsort] at h
    cases ht : ofLexeme k (munch c cs).2.1 0 0 with
    | error e =>
      rw [ht] at h
      cases h
    | ok t =>
      rw [ht] at h
      obtain ⟨fs', -, rfl⟩ := Option.map_eq_some_iff.1 h
      exact ⟨t.face, fs', rfl, (spells_ofLexeme hfits ht).2.1⟩

/-! ## Indentation -/

theorem margin_deeper {n : Nat} (h : level opened < n) : margin n opened = [(.indent, .int n)] :=
  if_pos h

theorem settle_deeper {n : Nat} (h : level opened < n) : settle n opened = n :: opened :=
  if_pos h

theorem margin_level (opened : List Nat) : margin (level opened) opened = [] := by
  rw [margin, if_neg (Nat.lt_irrefl _)]
  cases opened with
  | nil => rfl
  | cons n opened => simp [level]

theorem settle_level (opened : List Nat) : settle (level opened) opened = opened := by
  rw [settle, if_neg (Nat.lt_irrefl _)]
  cases opened with
  | nil => rfl
  | cons n opened => simp [level]

theorem takeWhile_lt_cons {n m : Nat} (h : n < m) (opened : List Nat) :
    (m :: opened).takeWhile (n < ·) = m :: opened.takeWhile (n < ·) :=
  List.takeWhile_cons_of_pos (decide_eq_true h)

theorem dropWhile_lt_cons {n m : Nat} (h : n < m) (opened : List Nat) :
    (m :: opened).dropWhile (n < ·) = opened.dropWhile (n < ·) :=
  List.dropWhile_cons_of_pos (decide_eq_true h)

theorem margin_shallower {n : Nat} (h : n < level opened) :
    ∃ fs, margin n opened = (.dedent, .int n) :: fs := by
  cases opened with
  | nil => exact absurd h (Nat.not_lt_zero n)
  | cons m opened =>
    have hnot : ¬ level (m :: opened) < n := Nat.not_lt.2 (Nat.le_of_lt h)
    rw [margin, if_neg hnot, takeWhile_lt_cons (m := m) h]
    exact ⟨_, rfl⟩

/-- An inner block is closed before those around it. -/
theorem margin_outer {n m : Nat} (h : n ≤ level opened) (hm : n < m) :
    margin n (m :: opened) = (.dedent, .int n) :: margin n opened ∧
      settle n (m :: opened) = settle n opened := by
  have hnot : ¬ level (m :: opened) < n := Nat.not_lt.2 (Nat.le_of_lt hm)
  rw [margin, margin, settle, settle, if_neg hnot, if_neg hnot, if_neg (Nat.not_lt.2 h),
    if_neg (Nat.not_lt.2 h), takeWhile_lt_cons hm, dropWhile_lt_cons hm]
  exact ⟨rfl, rfl⟩

/-- A block is closed, and none of those around it. -/
theorem margin_inner {n m : Nat} (h : level opened ≤ n) (hm : n < m) :
    margin n (m :: opened) = [(.dedent, .int n)] ∧ settle n (m :: opened) = opened := by
  have hnot : ¬ level (m :: opened) < n := Nat.not_lt.2 (Nat.le_of_lt hm)
  rw [margin, settle, if_neg hnot, if_neg hnot, takeWhile_lt_cons hm, dropWhile_lt_cons hm]
  cases opened with
  | nil => exact ⟨rfl, rfl⟩
  | cons o opened =>
    change o ≤ n at h
    simp [Nat.not_lt.2 h]

theorem level_settle_le {n : Nat} (h : n ≤ level opened) : level (settle n opened) ≤ n := by
  rw [settle, if_neg (Nat.not_lt.2 h)]
  have hhead := List.head?_dropWhile_not (fun m => decide (n < m)) opened
  cases hdrop : opened.dropWhile (fun m => decide (n < m)) with
  | nil => exact Nat.zero_le n
  | cons m rest =>
    rw [hdrop] at hhead
    simpa [level] using hhead

/-- A line goes back to its own indentation if that is open. -/
theorem level_settle_eq_iff {n : Nat} (hnested : (opened ++ [0]).Pairwise (· > ·))
    (h : n ≤ level opened) : level (settle n opened) = n ↔ n ∈ 0 :: opened := by
  rw [settle, if_neg (Nat.not_lt.2 h)]
  clear h
  induction opened with
  | nil => simp [level, eq_comm]
  | cons m opened ih =>
    rw [List.cons_append, List.pairwise_cons] at hnested
    by_cases hm : n < m
    · rw [dropWhile_lt_cons hm, ih hnested.2]
      simp [Nat.ne_of_lt hm]
    · rw [List.dropWhile_cons_of_neg (by simpa using hm)]
      show m = n ↔ _
      refine ⟨fun heq => by simp [heq], fun hmem => ?_⟩
      rcases List.mem_cons.1 hmem with rfl | hmem
      · exact Nat.le_zero.1 (Nat.not_lt.1 hm)
      · rcases List.mem_cons.1 hmem with rfl | hmem
        · rfl
        · exact absurd (hnested.1 n (List.mem_append_left _ hmem)) hm

theorem pairwise_settle (hnested : (opened ++ [0]).Pairwise (· > ·)) (n : Nat) :
    (settle n opened ++ [0]).Pairwise (· > ·) := by
  by_cases hn : level opened < n
  · have hlevels : Levels opened (opened.map fun m : Nat => ⟨.indent, .int m, 0, 0⟩) :=
      ⟨List.map_map, hnested⟩
    rw [settle_deeper hn]
    exact (hlevels.push (t := ⟨.indent, .int n, 0, 0⟩) hn rfl).decreasing
  · rw [settle, if_neg hn]
    exact hnested.sublist ((List.dropWhile_sublist _).append_right _)

/-- The indentations that are open lie inside of each other, at every place of a text. -/
theorem pairwise_openedAfter (cs : List Char) (hnested : (opened ++ [0]).Pairwise (· > ·)) :
    (openedAfter opened cs ++ [0]).Pairwise (· > ·) := by
  induction cs using munch_induction generalizing opened with
  | nil => rwa [openedAfter]
  | cons c cs ih =>
    rw [openedAfter, openedBy]
    refine ih ?_
    split
    · exact pairwise_settle hnested _
    · exact hnested

/-! ## Lines that make no difference -/

/-- The text starts with an idle line, and the line after that has the given indentation. -/
def IdleBefore (n : Nat) (cs : List Char) : Prop :=
  ∃ line rest, Idle line ∧ cs = line ++ '\n' :: rest ∧ indentation rest = n

theorem idleBefore_idle {n : Nat} {line : List Char} (h : Idle line) :
    IdleBefore n (line ++ '\n' :: rest) ↔ indentation rest = n := by
  refine ⟨?_, fun hn => ⟨line, rest, h, rfl, hn⟩⟩
  rintro ⟨line', rest', h', heq, rfl⟩
  have hdrop {l : List Char} (hl : Idle l) (r : List Char) :
      (l ++ '\n' :: r).dropWhile (· != '\n') = '\n' :: r := by
    have hall : ∀ d ∈ l, (d != '\n') = true := by
      intro d hd
      rw [bne_iff_ne]
      rintro rfl
      exact hl.1 hd
    rw [List.dropWhile_append_of_pos hall]
    rfl
  have hrest := hdrop h' rest'
  rw [← heq, hdrop h rest] at hrest
  rw [(List.cons.inj hrest).2]

theorem not_idleBefore_last {n : Nat} {line : List Char} (h : Idle line) : ¬ IdleBefore n line := by
  rintro ⟨line', rest, -, rfl, -⟩
  exact h.1 (List.mem_append_right _ (List.mem_cons_self ..))

theorem not_idleBefore_solid {n : Nat} {blanks : List Char}
    (hblanks : ∀ d ∈ blanks, isBlank d = true) (hblank : isBlank c = false) (hcomment : c ≠ '#')
    (hline : c ≠ '\n') : ¬ IdleBefore n (blanks ++ c :: rest) := by
  rintro ⟨line, rest', h, heq, -⟩
  have hdrop := congrArg (List.dropWhile isBlank) heq
  rw [List.dropWhile_append_of_pos hblanks, List.dropWhile_cons_of_neg (by simp [hblank]),
    ((lineEnd_lineBreak rest').takeWhile_append (by decide) line).2] at hdrop
  have hhead := h.2
  cases hafter : line.dropWhile isBlank with
  | nil =>
    rw [hafter] at hdrop
    exact hline (List.cons.inj hdrop).1
  | cons d after =>
    rw [hafter] at hdrop hhead
    exact hcomment ((List.cons.inj hdrop).1.trans (hhead d rfl))

/-- A text from which a block is opened, compared with the same text inside of that block: it opens
the block itself if its first line is idle and the next one is indented that far. -/
theorem opens_iff {n : Nat} {fs fs' : List (Kind × Tree)} (hn : level opened < n)
    (hfs : faces opened cs = some fs) (hfs' : faces (n :: opened) cs = some fs') :
    (.indent, .int n) :: fs' = fs ↔ IdleBefore n cs := by
  cases firstLine cs with
  | last h =>
    refine iff_of_false (fun heq => ?_) (not_idleBefore_last h)
    rw [← List.append_nil cs, faces_idle h lineEnd_nil, faces] at hfs
    cases hfs
    cases opened <;> cases heq
  | @idle line rest h =>
    rw [faces_idle_lineBreak h] at hfs hfs'
    rw [idleBefore_idle h]
    obtain ⟨ts, hts, rfl⟩ := Option.map_eq_some_iff.1 hfs
    obtain ⟨ts', hts', rfl⟩ := Option.map_eq_some_iff.1 hfs'
    generalize indentation rest = m at hts hts' ⊢
    by_cases hm : level opened < m
    · rw [margin_deeper hm]
      rw [settle_deeper hm] at hts
      refine ⟨fun heq => ?_, ?_⟩
      · simpa [eq_comm] using (List.cons.inj heq).1
      · rintro rfl
        have hmargin : margin m (m :: opened) = [] := margin_level (m :: opened)
        have hsettle : settle m (m :: opened) = m :: opened := settle_level (m :: opened)
        rw [hsettle, hts] at hts'
        cases hts'
        rw [hmargin]
        rfl
    · -- the next line closes the block again, so that there are two tokens more
      have hle := Nat.not_lt.1 hm
      obtain ⟨hmargin, hsettle⟩ := margin_outer hle (Nat.lt_of_le_of_lt hle hn)
      rw [hsettle, hts] at hts'
      cases hts'
      refine iff_of_false (fun heq => ?_) (by omega)
      have hlength := congrArg List.length heq
      rw [hmargin] at hlength
      simp at hlength
      omega
  | solid hblanks hblank hcomment hline =>
    refine iff_of_false (fun heq => ?_) (not_idleBefore_solid hblanks hblank hcomment hline)
    obtain ⟨f, ts, rfl, hf⟩ := faces_solid hblanks hblank hcomment hline hfs
    rw [← (List.cons.inj heq).1] at hf
    cases hf

/-- Blocks that are closed and opened again are noticed: the text after them, at the indentation of
the innermost one, cannot be the same. -/
theorem reopens_ne {n : Nat} (hn : n < level opened) (cs : List Char) {fs fs' : List (Kind × Tree)}
    (hfs : faces opened cs = some fs)
    (hfs' : faces (level opened :: settle n opened) cs = some fs') :
    margin n opened ++ (.indent, .int (level opened)) :: fs' ≠ fs := by
  obtain ⟨ds, hds⟩ := margin_shallower hn
  intro heq
  induction hlength : cs.length using Nat.strongRecOn generalizing cs fs fs' with
  | ind k ih =>
  cases firstLine cs with
  | last h =>
    rw [← List.append_nil cs, faces_idle h lineEnd_nil, faces] at hfs
    cases hfs
    rw [hds] at heq
    cases opened with
    | nil => cases heq
    | cons m opened =>
      have := (List.cons.inj heq).1
      simp [level] at this hn
      omega
  | @idle line rest h =>
    rw [faces_idle_lineBreak h] at hfs hfs'
    obtain ⟨ts, hts, rfl⟩ := Option.map_eq_some_iff.1 hfs
    obtain ⟨ts', hts', rfl⟩ := Option.map_eq_some_iff.1 hfs'
    generalize indentation rest = m at hts hts' heq
    rcases Nat.lt_trichotomy m (level opened) with hm | rfl | hm
    · -- the next line closes the same blocks, and the rest would be longer than itself
      obtain ⟨ds', hds'⟩ := margin_shallower hm
      obtain rfl : n = m := by
        rw [hds, hds'] at heq
        simpa using (List.cons.inj heq).1
      obtain ⟨hmargin, hsettle⟩ := margin_inner (level_settle_le (Nat.le_of_lt hn)) hn
      rw [hsettle, hts] at hts'
      cases hts'
      rw [hmargin] at heq
      have := congrArg List.length (List.append_cancel_left heq)
      simp at this
      omega
    · have hmargin : margin (level opened) (level opened :: settle n opened) = [] :=
        margin_level (level opened :: _)
      have hsettle : settle (level opened) (level opened :: settle n opened) = _ :=
        settle_level (level opened :: _)
      rw [settle_level] at hts
      rw [hsettle] at hts'
      rw [hmargin, margin_level] at heq
      refine ih rest.length ?_ rest hts hts' heq rfl
      rw [← hlength]
      simp
      omega
    · rw [hds, margin_deeper hm] at heq
      cases (List.cons.inj heq).1
  | solid hblanks hblank hcomment hline =>
    obtain ⟨f, ts, rfl, hf⟩ := faces_solid hblanks hblank hcomment hline hfs
    rw [hds] at heq
    rw [← (List.cons.inj heq).1] at hf
    cases hf

/-- An idle line that is indented by `n` makes no difference between a text, with the given
indentations open after it, and the rest: it is indented like the block that is open, or like the
first line of the rest.  In that case that line opens a block or closes some, and the idle line
already does so; but if it goes back to an indentation that is not open, then the line after the
idle one opens a block, which is the same only if the rest starts with such an idle line itself. -/
def Unnoticed (opened : List Nat) (n : Nat) (rest : List Char) : Prop :=
  n = level opened ∨
    n = indentation rest ∧ (level opened < n ∨ n ∈ 0 :: opened ∨ IdleBefore n rest)

/-- A line that is indented deeper than the open block. -/
theorem margin_eq_iff_of_deeper {n m : Nat} (hn : level opened < n) {fs fs' : List (Kind × Tree)}
    (hfs : faces (settle m opened) cs = some fs)
    (hfs' : faces (settle m (n :: opened)) cs = some fs') :
    (.indent, .int n) :: (margin m (n :: opened) ++ fs') = margin m opened ++ fs ↔ n = m := by
  by_cases hm : level opened < m
  · rw [margin_deeper hm]
    refine ⟨fun heq => ?_, ?_⟩
    · simpa using (List.cons.inj heq).1
    · rintro rfl
      have hmargin : margin n (n :: opened) = [] := margin_level (n :: opened)
      have hsettle : settle n (n :: opened) = n :: opened := settle_level (n :: opened)
      rw [hsettle, ← settle_deeper hn, hfs] at hfs'
      cases hfs'
      rw [hmargin]
      rfl
  · have hle := Nat.not_lt.1 hm
    obtain ⟨hmargin, hsettle⟩ := margin_outer hle (Nat.lt_of_le_of_lt hle hn)
    rw [hsettle, hfs] at hfs'
    cases hfs'
    -- a block is opened and closed again at once, which takes two tokens
    refine iff_of_false (fun heq => ?_) (by omega)
    have hlength := congrArg List.length heq
    rw [hmargin] at hlength
    simp at hlength
    omega

/-- A line that closes blocks. -/
theorem margin_eq_iff_of_shallower {n : Nat} (hnested : (opened ++ [0]).Pairwise (· > ·))
    (hn : n < level opened) {fs fs' : List (Kind × Tree)}
    (hfs : faces (settle (indentation cs) opened) cs = some fs)
    (hfs' : faces (settle (indentation cs) (settle n opened)) cs = some fs') :
    margin n opened ++ (margin (indentation cs) (settle n opened) ++ fs') =
        margin (indentation cs) opened ++ fs ↔
      n = indentation cs ∧ (n ∈ 0 :: opened ∨ IdleBefore n cs) := by
  obtain ⟨ds, hds⟩ := margin_shallower hn
  have hle := level_settle_le (Nat.le_of_lt hn)
  by_cases hm : n = indentation cs
  · rw [← hm] at hfs hfs' ⊢
    rw [List.append_cancel_left_eq, and_iff_right rfl,
      ← level_settle_eq_iff hnested (Nat.le_of_lt hn)]
    rcases Nat.eq_or_lt_of_le hle with heq | hlt
    · have hmargin := margin_level (settle n opened)
      have hsettle := settle_level (settle n opened)
      rw [heq] at hmargin hsettle
      rw [hsettle, hfs] at hfs'
      cases hfs'
      exact iff_of_true (by rw [hmargin]; rfl) (.inl heq)
    · rw [settle_deeper hlt] at hfs'
      rw [margin_deeper hlt, or_iff_right (Nat.ne_of_lt hlt)]
      exact opens_iff hlt hfs hfs'
  · refine iff_of_false (fun heq => ?_) (fun h => hm h.1)
    -- by itself the next line would close blocks too, stay in the innermost one, or open another
    rcases Nat.lt_trichotomy (indentation cs) (level opened) with hlt | heq' | hlt
    · obtain ⟨ds', hds'⟩ := margin_shallower hlt
      rw [hds, hds'] at heq
      exact hm (by simpa using (List.cons.inj heq).1)
    · rw [heq', settle_level] at hfs
      rw [heq', settle_deeper (Nat.lt_of_le_of_lt hle hn)] at hfs'
      rw [heq', margin_level, margin_deeper (Nat.lt_of_le_of_lt hle hn)] at heq
      exact reopens_ne hn cs hfs hfs' heq
    · rw [hds, margin_deeper hlt] at heq
      cases (List.cons.inj heq).1

/-- An idle line between a text and the rest makes no difference exactly if it goes unnoticed. -/
theorem margin_eq_iff {n : Nat} (hnested : (opened ++ [0]).Pairwise (· > ·))
    {fs fs' : List (Kind × Tree)} (hfs : faces opened ('\n' :: cs) = some fs)
    (hfs' : faces (settle n opened) ('\n' :: cs) = some fs') :
    margin n opened ++ fs' = fs ↔ Unnoticed opened n cs := by
  rw [faces_lineBreak] at hfs hfs'
  obtain ⟨ts, hts, rfl⟩ := Option.map_eq_some_iff.1 hfs
  obtain ⟨ts', hts', rfl⟩ := Option.map_eq_some_iff.1 hfs'
  rw [Unnoticed]
  rcases Nat.lt_trichotomy n (level opened) with hn | rfl | hn
  · rw [margin_eq_iff_of_shallower hnested hn hts hts', or_iff_right (Nat.ne_of_lt hn),
      or_iff_right (Nat.lt_asymm hn)]
  · rw [settle_level] at hts' ⊢
    rw [hts] at hts'
    cases hts'
    exact iff_of_true (by rw [margin_level]; rfl) (.inl rfl)
  · rw [settle_deeper hn] at hts' ⊢
    rw [margin_deeper hn, or_iff_right (Nat.ne_of_gt hn), and_iff_left (.inl hn)]
    exact margin_eq_iff_of_deeper hn hts hts'

/-- At the end of the text all blocks are closed, so the line shows unless it closes none. -/
theorem closing_eq_iff (n : Nat) (opened : List Nat) :
    margin n opened ++ (settle n opened).map (fun m : Nat => (Kind.dedent, Tree.int m)) =
        opened.map (fun m : Nat => (Kind.dedent, Tree.int m)) ↔
      n = level opened := by
  rcases Nat.lt_trichotomy n (level opened) with hn | rfl | hn
  · refine iff_of_false (fun heq => ?_) (Nat.ne_of_lt hn)
    obtain ⟨ds, hds⟩ := margin_shallower hn
    rw [hds] at heq
    cases opened with
    | nil => cases heq
    | cons m opened =>
      have hm : n = m := by simpa using (List.cons.inj heq).1
      exact Nat.ne_of_lt hn hm
  · exact iff_of_true (by rw [margin_level, settle_level]; rfl) rfl
  · refine iff_of_false (fun heq => ?_) (Nat.ne_of_gt hn)
    rw [margin_deeper hn] at heq
    cases opened with
    | nil => cases heq
    | cons m opened => cases (List.cons.inj heq).1

/-- An idle line is put in at a line break outside of literal texts, or at the end of the text.
What is left to compare are the tokens of the rest, with the indentations that are open before and
after the idle line. -/
theorem faces_insert {line text : List Char} (hline : Idle line) (hrest : LineEnd rest)
    (hplace : ¬ InLiteral (text ++ rest) rest) {fs : List (Kind × Tree)}
    (hfs : faces [] (text ++ rest) = some fs) :
    ∃ fs', faces [] (text ++ '\n' :: (line ++ rest)) = some fs' ∧
      fs'.filter shows = fs.filter shows ∧
      ∃ gs gs', faces (openedAfter [] text) rest = some gs ∧
        faces (settle (indentation line) (openedAfter [] text)) rest = some gs' ∧
        (fs' = fs ↔ margin (indentation line) (openedAfter [] text) ++ gs' = gs) := by
  obtain ⟨hs, hhs⟩ := faces_append hrest text [] hplace (by rw [hfs]; exact Option.some_ne_none fs)
  have hold := hhs rest hrest
  have hnew := hhs ('\n' :: (line ++ rest)) (lineEnd_lineBreak _)
  rw [faces_lineBreak, hrest.indentation_append, faces_idle hline hrest] at hnew
  generalize openedAfter [] text = opened at hold hnew ⊢
  rw [hfs] at hold
  obtain ⟨gs, hgs, rfl⟩ := Option.map_eq_some_iff.1 hold.symm
  obtain ⟨gs', hgs', hshows⟩ := exists_faces hgs (settle (indentation line) opened)
  rw [hgs', Option.map_some, Option.map_some] at hnew
  refine ⟨_, hnew, ?_, gs, gs', hgs, hgs', by rw [List.append_cancel_left_eq]⟩
  rw [List.filter_append, List.filter_append, List.filter_append, filter_margin, hshows,
    List.nil_append]

/-- An idle line is put in before the first line, which is not looked at otherwise. -/
theorem faces_first {line : List Char} (hline : Idle line) {fs : List (Kind × Tree)}
    (hfs : faces [] cs = some fs) :
    ∃ fs', faces [] (line ++ '\n' :: cs) = some fs' ∧ fs'.filter shows = fs.filter shows ∧
      (fs' = fs ↔ indentation cs = 0 ∨ IdleBefore (indentation cs) cs) := by
  rw [faces_idle_lineBreak hline]
  obtain ⟨gs, hgs, hshows⟩ := exists_faces hfs (settle (indentation cs) [])
  rw [hgs, Option.map_some]
  refine ⟨_, rfl, ?_, ?_⟩
  · rw [List.filter_append, filter_margin, List.nil_append, hshows]
  · rcases Nat.eq_zero_or_pos (indentation cs) with hzero | hpos
    · rw [hzero] at hgs ⊢
      cases hfs.symm.trans hgs
      exact iff_of_true rfl (.inl rfl)
    · have hdeeper : level [] < indentation cs := hpos
      rw [settle_deeper hdeeper] at hgs
      rw [margin_deeper hdeeper, or_iff_right (Nat.ne_of_gt hpos)]
      exact opens_iff hdeeper hfs hgs

/-- A text has faces exactly if it has tokens. -/
theorem ofSource_eq_ok_iff {code : String} {fs : List (Kind × Tree)} :
    faces [] code.toList = some fs ↔ ∃ ts, ofSource code = .ok ts ∧ ts.map face = fs := by
  rw [← scan_faces 1 0, ofSource]
  cases scan 1 0 [] code.toList with
  | error e => simp [Except.toOption]
  | ok ts => simp [Except.toOption]

/-- Tokens are compared without their places. -/
theorem exists_ofSource {code code' : String} {p : Prop} {ts : List Token}
    (hts : ofSource code = .ok ts)
    (h : ∀ fs, faces [] code.toList = some fs → ∃ fs', faces [] code'.toList = some fs' ∧
      fs'.filter shows = fs.filter shows ∧ (fs' = fs ↔ p)) :
    ∃ ts', ofSource code' = .ok ts' ∧
      (ts'.filter isVisible).map face = (ts.filter isVisible).map face ∧
      (ts'.map face = ts.map face ↔ p) := by
  have hvisible (ts : List Token) :
      (ts.filter isVisible).map face = (ts.map face).filter shows := by
    rw [List.filter_map]
    rfl
  obtain ⟨_, hfs', hshows, heq⟩ := h _ (ofSource_eq_ok_iff.2 ⟨ts, hts, rfl⟩)
  obtain ⟨ts', hts', rfl⟩ := ofSource_eq_ok_iff.1 hfs'
  exact ⟨ts', hts', by rwa [hvisible, hvisible], heq⟩

end Token

open Token Phrase in
/-- **Lines without tokens.**  A line that is blank, or holds only a comment, is put into a text
that can be cut into tokens, at a line break that is in no literal text, before the first line or
after the last one.  The new text can be cut into tokens too, and its visible tokens are the same.
The layout tokens need not be: they are the same exactly if the line goes unnoticed between the two
parts of the text; before the first line, if that line is not indented or is idle itself, with the
next line indented as far; and after the last one, if the new line is indented like the innermost
block that is open. -/
theorem idle_line_unnoticed_iff {line : String} (hline : Idle line.toList) :
    (∀ {text rest : String} {ts : List Token}, ofSource (text ++ "\n" ++ rest) = .ok ts →
      ¬ InLiteral (text ++ "\n" ++ rest).toList ("\n" ++ rest).toList →
      ∃ ts', ofSource (text ++ "\n" ++ line ++ "\n" ++ rest) = .ok ts' ∧
        (ts'.filter isVisible).map face = (ts.filter isVisible).map face ∧
        (ts'.map face = ts.map face ↔
          Unnoticed (openedAfter [] text.toList) (indentation line.toList) rest.toList)) ∧
    (∀ {rest : String} {ts : List Token}, ofSource rest = .ok ts →
      ∃ ts', ofSource (line ++ "\n" ++ rest) = .ok ts' ∧
        (ts'.filter isVisible).map face = (ts.filter isVisible).map face ∧
        (ts'.map face = ts.map face ↔
          indentation rest.toList = 0 ∨ IdleBefore (indentation rest.toList) rest.toList)) ∧
    ∀ {text : String} {ts : List Token}, ofSource text = .ok ts →
      ∃ ts', ofSource (text ++ "\n" ++ line) = .ok ts' ∧
        (ts'.filter isVisible).map face = (ts.filter isVisible).map face ∧
        (ts'.map face = ts.map face ↔
          indentation line.toList = level (openedAfter [] text.toList)) := by
  refine ⟨?_, ?_, ?_⟩
  · intro text rest ts hts hplace
    refine exists_ofSource hts fun fs hfs => ?_
    simp only [String.toList_append, List.append_assoc] at hfs hplace ⊢
    obtain ⟨fs', hfs', hshows, gs, gs', hgs, hgs', heq⟩ :=
      faces_insert hline (lineEnd_lineBreak rest.toList) hplace hfs
    refine ⟨fs', hfs', hshows, heq.trans (margin_eq_iff ?_ hgs hgs')⟩
    exact pairwise_openedAfter _ (List.pairwise_singleton _ 0)
  · intro rest ts hts
    refine exists_ofSource hts fun fs hfs => ?_
    simp only [String.toList_append, List.append_assoc]
    exact faces_first hline hfs
  · intro text ts hts
    refine exists_ofSource hts fun fs hfs => ?_
    have hplace : ¬ InLiteral (text.toList ++ []) [] := by
      rintro ⟨_, _, -, -, hlt, -⟩
      exact Nat.not_lt_zero _ hlt
    rw [← List.append_nil text.toList] at hfs
    obtain ⟨fs', hfs', hshows, gs, gs', hgs, hgs', heq⟩ :=
      faces_insert hline lineEnd_nil hplace hfs
    rw [faces] at hgs hgs'
    cases hgs
    cases hgs'
    simp only [String.toList_append, List.append_assoc]
    rw [List.append_nil] at hfs'
    exact ⟨fs', hfs', hshows, heq.trans (closing_eq_iff _ _)⟩

open Token in
/-- A comment in a block, indented like the block. -/
theorem idle_line_unnoticed_comment :
    ∃ ts ts', ofSource ("if x:\n    y = 1" ++ "\n" ++ "    z = 2\n") = .ok ts ∧
      ofSource ("if x:\n    y = 1" ++ "\n" ++ "    # note" ++ "\n" ++ "    z = 2\n") = .ok ts' ∧
      ts'.map face = ts.map face := by
  have hline : Idle "    # note".toList := by simp [Idle, isBlank]
  obtain ⟨ts, hts⟩ : ∃ ts, ofSource ("if x:\n    y = 1" ++ "\n" ++ "    z = 2\n") = .ok ts :=
    ⟨_, by cbv⟩
  have hopened : openedAfter [] "if x:\n    y = 1".toList = [4] := by cbv
  obtain ⟨ts', hts', -, hiff⟩ :=
    (idle_line_unnoticed_iff hline).1 hts (not_inLiteral (by simp [isQuote]) _)
  refine ⟨ts, ts', hts, hts', hiff.2 (.inl ?_)⟩
  rw [hopened]
  simp [Phrase.indentation, isBlank, level]

open Token in
/-- An empty line in a block closes the block, and the next line opens it again. -/
theorem blank_line_noticed :
    Idle "".toList ∧
      ¬ InLiteral ("if x:\n    y = 1" ++ "\n" ++ "    z = 2\n").toList
        ("\n" ++ "    z = 2\n").toList ∧
      ∃ ts ts', ofSource ("if x:\n    y = 1" ++ "\n" ++ "    z = 2\n") = .ok ts ∧
        ofSource ("if x:\n    y = 1" ++ "\n" ++ "" ++ "\n" ++ "    z = 2\n") = .ok ts' ∧
        ts.map kind = [.ifWord, .name, .colon, .indent, .name, .assign, .number, .name, .assign,
          .number, .dedent] ∧
        ts'.map kind = [.ifWord, .name, .colon, .indent, .name, .assign, .number, .dedent, .indent,
          .name, .assign, .number, .dedent] ∧
        ts'.map face ≠ ts.map face := by
  refine ⟨by simp [Idle], not_inLiteral (by simp [isQuote]) _, ?_⟩
  obtain ⟨ts, hts, hkinds⟩ : ∃ ts,
      ofSource ("if x:\n    y = 1" ++ "\n" ++ "    z = 2\n") = .ok ts ∧
      ts.map kind = [.ifWord, .name, .colon, .indent, .name, .assign, .number, .name, .assign,
        .number, .dedent] := ⟨_, by cbv, by cbv⟩
  obtain ⟨ts', hts', hkinds'⟩ : ∃ ts,
      ofSource ("if x:\n    y = 1" ++ "\n" ++ "" ++ "\n" ++ "    z = 2\n") = .ok ts ∧
      ts.map kind = [.ifWord, .name, .colon, .indent, .name, .assign, .number, .dedent, .indent,
        .name, .assign, .number, .dedent] := ⟨_, by cbv, by cbv⟩
  refine ⟨ts, ts', hts, hts', hkinds, hkinds', fun heq => ?_⟩
  have hlength := congrArg List.length heq
  have hlong := congrArg List.length hkinds
  have hlong' := congrArg List.length hkinds'
  simp only [List.length_map, List.length_cons, List.length_nil] at hlength hlong hlong'
  omega

end Retrace
