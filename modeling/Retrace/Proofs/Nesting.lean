import Retrace.Proofs.Library
import Retrace.Proofs.Scanning

/-!
# Layout tokens nest

The layout of a text appears in its tokens as `INDENT` and `DEDENT`.  They match like brackets: each
`DEDENT` closes the latest `INDENT` that is still open, there always is one, and at the end none is
left.  A block is indented deeper than the one around it, so the contents of the `INDENT` tokens
that are open increase from the outside in.

To say which `INDENT` is closed by a `DEDENT`, the tokens are gone through with a stack of those
that are open, where a `DEDENT` takes the top off and there is no result if the stack is empty
(`nest`).  That there is a result for every beginning of the tokens says that there always is one to
be closed, and that the stack is empty in the end says that all are.  Counting alone would say less.

The scanner keeps the indentations that are open in a list, as numbers.  Its invariant ties the two
together: the contents of the tokens that are open are the indentations that the scanner has in its
list, and these decrease down to zero (`Levels`).  What is to be shown of the tokens from some place
on depends on what is open there (`Nests`), and it is shown along the relation `Scanned`, which has
one case for each sort of lexeme; a line break may close several blocks, which is one lemma
(`Nests.dedents`).

One may also keep the indentations on a stack with a zero at the bottom, and close blocks one by
one, reading the new top each time; that could fail if the stack ran empty.  It never does, and both
scanners are the same.

* `enter`, `nest`: the `INDENT` tokens that are open after some tokens.
* `Levels`: the invariant of the scanner, between the indentations and the open tokens.
* `Nests`: what is to be shown of the tokens from some place on; `nests_of_scanned`.
* `scanStacked`: the scanner with a stack, and `scanStacked_eq`.
* `ofSource_nests`: the statement about whole texts.
-/

set_option autoImplicit false

namespace Retrace
namespace Token

variable {line column : Nat} {opened : List Nat} {cs : List Char} {t : Token}
  {stack stack' ts : List Token}

/-! ## The blocks that are open -/

/-- The `INDENT` tokens that are open after a token, the latest first.  A `DEDENT` closes the latest
one; if none is open, there is no answer. -/
def enter (stack : List Token) (t : Token) : Option (List Token) :=
  match t.kind with
  | .indent => some (t :: stack)
  | .dedent => stack.tail?
  | _ => some stack

/-- The `INDENT` tokens that are open after some tokens, the latest first. -/
def nest (stack ts : List Token) : Option (List Token) :=
  ts.foldlM enter stack

theorem nest_cons : nest stack (t :: ts) = (enter stack t).bind fun stack' => nest stack' ts :=
  List.foldlM_cons

/-- Only layout tokens open and close blocks. -/
theorem enter_visible (ht : t.isVisible = true) : enter stack t = some stack := by
  unfold enter
  split <;> simp_all [isVisible]

/-- How many tokens of a kind there are. -/
def countKind (k : Kind) (ts : List Token) : Nat :=
  ts.countP (·.kind = k)

theorem countKind_cons (k : Kind) :
    countKind k (t :: ts) = countKind k ts + if t.kind = k then 1 else 0 := by
  simp [countKind, List.countP_cons]

theorem length_enter (h : enter stack t = some stack') :
    stack.length + (if t.kind = .indent then 1 else 0) =
      stack'.length + if t.kind = .dedent then 1 else 0 := by
  unfold enter at h
  split at h
  · next hk =>
    cases h
    simp [hk]
  · next hk =>
    cases stack with
    | nil => cases h
    | cons s stack =>
      cases h
      simp [hk]
  · next hindent hdedent =>
    cases h
    rw [if_neg hindent, if_neg hdedent]

/-- What is open was open before or has been opened, and all else has been closed. -/
theorem length_nest (h : nest stack ts = some stack') :
    stack.length + countKind .indent ts = stack'.length + countKind .dedent ts := by
  induction ts generalizing stack with
  | nil =>
    cases h
    rfl
  | cons t ts ih =>
    rw [nest_cons, Option.bind_eq_some_iff] at h
    obtain ⟨stack₁, henter, hnest⟩ := h
    have hfirst := length_enter henter
    have hrest := ih hnest
    rw [countKind_cons, countKind_cons]
    omega

/-! ## The invariant -/

/-- The `INDENT` tokens on the stack show the indentations that are open, and these decrease to the
outside, where they are still positive. -/
structure Levels (opened : List Nat) (stack : List Token) : Prop where
  contents : stack.map content = opened.map fun n : Nat => .int n
  decreasing : (opened ++ [0]).Pairwise (· > ·)

namespace Levels

theorem nil : Levels [] [] :=
  ⟨rfl, List.pairwise_singleton _ _⟩

theorem length_eq (h : Levels opened stack) : stack.length = opened.length := by
  simpa using congrArg List.length h.contents

theorem lt_of_mem (h : Levels opened stack) {n a : Nat} (hn : level opened < n)
    (ha : a ∈ opened ++ [0]) : a < n := by
  cases opened with
  | nil =>
    rw [List.nil_append, List.mem_singleton] at ha
    exact ha ▸ hn
  | cons o opened =>
    rcases List.mem_cons.1 ha with rfl | ha
    · exact hn
    · exact Nat.lt_trans (List.rel_of_pairwise_cons h.decreasing ha) hn

/-- A block that is indented deeper is opened. -/
theorem push (h : Levels opened stack) {n : Nat} (hn : level opened < n) (ht : t.content = .int n) :
    Levels (n :: opened) (t :: stack) where
  contents := by rw [List.map_cons, List.map_cons, h.contents, ht]
  decreasing := List.pairwise_cons.2 ⟨fun _ ha => h.lt_of_mem hn ha, h.decreasing⟩

/-- Blocks are closed from the inside out. -/
theorem drop (h : Levels opened stack) (n : Nat) (hn : n ≤ opened.length) :
    Levels (opened.drop n) (stack.drop n) where
  contents := by rw [List.map_drop, h.contents, List.map_drop]
  decreasing := by
    have hdrop : opened.drop n ++ [0] = (opened ++ [0]).drop n := by
      rw [List.drop_append_of_le_length hn]
    rw [hdrop]
    exact h.decreasing.drop

end Levels

/-! ## The tokens of a scan -/

/-- The tokens match, with the tokens on the stack already open: all are closed at the end, and
after each of them the invariant holds. -/
structure Nests (stack ts : List Token) : Prop where
  closes : nest stack ts = some []
  levels : ∀ p, p <+: ts → ∃ opened stack', nest stack p = some stack' ∧ Levels opened stack'

namespace Nests

theorem nil : Nests [] [] where
  closes := rfl
  levels p hp := ⟨[], [], by rw [List.prefix_nil.1 hp]; rfl, .nil⟩

theorem cons (hlevels : Levels opened stack) (henter : enter stack t = some stack')
    (h : Nests stack' ts) : Nests stack (t :: ts) where
  closes := by
    rw [nest_cons, henter]
    exact h.closes
  levels p hp := by
    rcases List.prefix_cons_iff.1 hp with rfl | ⟨q, rfl, hq⟩
    · exact ⟨opened, stack, rfl, hlevels⟩
    · rw [nest_cons, henter]
      exact h.levels q hq

/-- Blocks may be closed before the rest of the tokens, as long as they are open. -/
theorem dedents {ds : List Token} (hds : ∀ d ∈ ds, d.kind = .dedent) (hlevels : Levels opened stack)
    (hlength : ds.length ≤ opened.length) (h : Nests (stack.drop ds.length) ts) :
    Nests stack (ds ++ ts) := by
  induction ds generalizing opened stack with
  | nil => exact h
  | cons d ds ih =>
    rw [List.length_cons] at hlength
    have henter : enter stack d = some (stack.drop 1) := by
      cases stack with
      | nil =>
        have := hlevels.length_eq
        rw [List.length_nil] at this
        omega
      | cons s stack => simp [enter, hds d (List.mem_cons_self ..)]
    refine cons hlevels henter ?_
    refine ih (fun d' hd' => hds d' (List.mem_cons_of_mem _ hd')) (hlevels.drop 1 (by omega)) ?_ ?_
    · rw [List.length_drop]
      omega
    · rw [List.drop_drop, Nat.add_comm]
      exact h

end Nests

/-- The tokens of a scan match, whatever is open at its start. -/
theorem nests_of_scanned (h : Scanned line column opened cs ts) (hlevels : Levels opened stack) :
    Nests stack ts := by
  induction h generalizing stack with
  | @done line column opened =>
    rw [← List.append_nil (closing line opened)]
    have hlength : (closing line opened).length = opened.length := List.length_map _
    refine .dedents (fun d hd => ?_) hlevels (Nat.le_of_eq hlength) ?_
    · obtain ⟨n, -, rfl⟩ := List.mem_map.1 hd
      rfl
    · rw [hlength, ← hlevels.length_eq, List.drop_length]
      exact .nil
  | token hfits hne ht _ ih =>
    obtain ⟨-, hvisible, -⟩ := spells_ofLexeme hfits ht
    exact .cons hlevels (enter_visible hvisible) (ih hlevels)
  | blank _ _ ih => exact ih hlevels
  | @lineBreak line column opened rest ts _ ih =>
    generalize (rest.takeWhile isBlank).length = n at ih ⊢
    unfold layout at ih ⊢
    by_cases hn : level opened < n
    · rw [if_pos hn] at ih ⊢
      exact .cons hlevels rfl (ih (hlevels.push hn rfl))
    · -- the levels that are closed are those deeper than `n`, and they are the innermost ones
      rw [if_neg hn] at ih ⊢
      have hle : (opened.takeWhile (n < ·)).length ≤ opened.length :=
        (List.takeWhile_prefix _).length_le
      have hdrop : opened.drop (opened.takeWhile (n < ·)).length = opened.dropWhile (n < ·) := by
        conv => enter [1, 2]; rw [← List.takeWhile_append_dropWhile (p := (n < ·)) (l := opened)]
        exact List.drop_left
      refine .dedents (fun d hd => ?_) hlevels (by rwa [List.length_map]) ?_
      · obtain ⟨_, -, rfl⟩ := List.mem_map.1 hd
        rfl
      · rw [List.length_map]
        exact ih (hdrop ▸ hlevels.drop _ hle)

/-! ## A stack of indentations -/

/-- Closes blocks one by one, as long as the indentation is less than the current one: the top of
the stack goes away, and the new top becomes the current indentation.  There is no answer if there
is no top to take away or to read. -/
def unwind (dedent : Token) (indentation : Nat) :
    Nat → List Nat → Option (List Token × Nat × List Nat)
  | current, stack =>
    if indentation < current then
      match stack with
      | [] => none
      | _ :: rest => do
        let top ← rest.head?
        let (ts, after) ← unwind dedent indentation top rest
        return (dedent :: ts, after)
    else some ([], current, stack)

/-- The tokens that the indentation of a new line gives rise to, the new current indentation and the
new stack. -/
def layoutStacked (indentation line column current : Nat) (stack : List Nat) :
    Option (List Token × Nat × List Nat) :=
  if current < indentation then
    some ([⟨.indent, .int indentation, line, column⟩], indentation, indentation :: stack)
  else unwind ⟨.dedent, .int indentation, line, column⟩ indentation current stack

/-- The `DEDENT` tokens at the end of the text, for all that stands above the bottom of the
stack. -/
def closingStacked (line : Nat) : List Nat → List Token
  | [] => []
  | [_] => []
  | top :: rest => ⟨.dedent, .int top, line, 0⟩ :: closingStacked line rest

/-- The tokens of a text, with the indentations on a stack.  There is no answer if a block is to be
closed when the stack has run empty. -/
def scanStacked (line column current : Nat) (stack : List Nat) :
    List Char → Option (Except Fault (List Token))
  | [] => some (.ok (closingStacked line stack))
  | c :: cs =>
    let lexeme := munch c cs
    match lexeme.1 with
    | .token kind =>
      match ofLexeme kind lexeme.2.1 line column with
      | .error e => some (.error e)
      | .ok t =>
        (scanStacked line (column + lexeme.2.1.length) current stack lexeme.2.2).map
          (·.map (t :: ·))
    | .blank => scanStacked line (column + lexeme.2.1.length) current stack lexeme.2.2
    | .lineBreak =>
      match layoutStacked (lexeme.2.2.takeWhile isBlank).length (line + 1) column current stack with
      | none => none
      | some (ts, current, stack) =>
        (scanStacked (line + 1) 0 current stack lexeme.2.2).map (·.map (ts ++ ·))
    | .stray => some (.error (.strayCharacter c line column))
termination_by cs => cs.length
decreasing_by all_goals exact munch_length c cs

/-- Closing blocks one by one closes those that are indented deeper, and stops at the zero at the
latest. -/
theorem unwind_eq (dedent : Token) (n : Nat) (opened : List Nat) :
    unwind dedent n (level opened) (opened ++ [0]) =
      some ((opened.takeWhile (n < ·)).map fun _ => dedent,
        level (opened.dropWhile (n < ·)), opened.dropWhile (n < ·) ++ [0]) := by
  induction opened with
  | nil => rfl
  | cons o opened ih =>
    have hlevel : level (o :: opened) = o := rfl
    rw [List.cons_append, hlevel, unwind]
    by_cases hn : n < o
    · have htop : (opened ++ [0]).head? = some (level opened) := by cases opened <;> rfl
      simp [hn, htop, ih]
    · simp [hn, hlevel]

theorem layoutStacked_eq (n line column : Nat) (opened : List Nat) :
    layoutStacked n line column (level opened) (opened ++ [0]) =
      some ((layout n line column opened).1, level (layout n line column opened).2,
        (layout n line column opened).2 ++ [0]) := by
  unfold layoutStacked layout
  split
  · rfl
  · exact unwind_eq _ n opened

theorem closingStacked_eq (line : Nat) (opened : List Nat) :
    closingStacked line (opened ++ [0]) = closing line opened := by
  induction opened with
  | nil => rfl
  | cons o opened ih =>
    cases opened with
    | nil => rfl
    | cons o' opened => exact congrArg (_ :: ·) ih

/-- The stack holds the indentations that are open, above a zero, so it never runs empty. -/
theorem scanStacked_eq (line column : Nat) (opened : List Nat) (cs : List Char) :
    scanStacked line column (level opened) (opened ++ [0]) cs =
      some (scan line column opened cs) := by
  induction cs using munch_induction generalizing line column opened with
  | nil => rw [scanStacked, scan, closingStacked_eq]
  | cons c cs ih =>
    rw [scanStacked, scan]
    generalize munch c cs = lexeme at ih
    obtain ⟨sort, chars, rest⟩ := lexeme
    cases sort with
    | token k =>
      simp only
      cases ofLexeme k chars line column with
      | error e => rfl
      | ok t =>
        simp only [ih, Option.map_some]
        cases scan line (column + chars.length) opened rest <;> rfl
    | blank => exact ih ..
    | lineBreak =>
      simp only [layoutStacked_eq, ih, Option.map_some]
      generalize layout _ _ _ _ = step
      cases scan (line + 1) 0 step.2 rest <;> rfl
    | stray => rfl

/-- The tokens of a source text, with the indentations on a stack. -/
def ofSourceStacked (code : String) : Option (Except Fault (List Token)) :=
  scanStacked 1 0 0 [0] code.toList

end Token

open Token

/-- **Layout tokens are balanced.**  In the tokens of a text there are as many `INDENT` as `DEDENT`
tokens, and in the first tokens of them, however many, at most as many `DEDENT` as `INDENT` tokens.
If each `DEDENT` closes the latest `INDENT` that is open, there always is one; the contents of those
that are open decrease strictly from the inside out, and are positive; in the end none is open.  A
scanner that keeps indentations on a stack, with a zero at the bottom, never takes the zero away,
and gives the same tokens. -/
theorem ofSource_nests {code : String} {ts : List Token} (h : ofSource code = .ok ts) :
    countKind .indent ts = countKind .dedent ts ∧
      nest [] ts = some [] ∧
      (∀ p, p <+: ts → countKind .dedent p ≤ countKind .indent p ∧
        ∃ (levels : List Nat) (stack : List Token), nest [] p = some stack ∧
          stack.map content = levels.map (fun n : Nat => .int n) ∧
          levels.Pairwise (· > ·) ∧ ∀ n ∈ levels, 0 < n) ∧
      ofSourceStacked code = some (.ok ts) := by
  have hnests := nests_of_scanned (scanned_of_scan h) .nil
  refine ⟨?_, hnests.closes, fun p hp => ?_, ?_⟩
  · simpa using length_nest hnests.closes
  · obtain ⟨levels, stack, hnest, hlevels⟩ := hnests.levels p hp
    have hcount := length_nest hnest
    rw [List.length_nil] at hcount
    obtain ⟨hpairwise, -, hpositive⟩ := List.pairwise_append.1 hlevels.decreasing
    exact ⟨by omega, levels, stack, hnest, hlevels.contents, hpairwise,
      fun n hn => hpositive n hn 0 (List.mem_singleton.2 rfl)⟩
  · exact (scanStacked_eq 1 0 [] code.toList).trans (congrArg some h)

/-- A line may go back to an indentation that was never opened, as `d` does here: both blocks are
closed, and the next line opens one although it is not indented deeper. -/
theorem ofSource_nests_uneven :
    ∃ ts, ofSource "a\n  b\n    c\n d\n e" = .ok ts ∧
      ts.map kind = [.name, .indent, .name, .indent, .name, .dedent, .dedent, .name, .indent, .name,
        .dedent] ∧
      countKind .indent ts = countKind .dedent ts ∧ nest [] ts = some [] ∧
      ofSourceStacked "a\n  b\n    c\n d\n e" = some (.ok ts) := by
  obtain ⟨ts, h, hkinds⟩ : ∃ ts, ofSource "a\n  b\n    c\n d\n e" = .ok ts ∧
      ts.map kind = [.name, .indent, .name, .indent, .name, .dedent, .dedent, .name, .indent, .name,
        .dedent] :=
    ⟨_, by cbv, by cbv⟩
  obtain ⟨hcount, hnest, -, hstacked⟩ := ofSource_nests h
  exact ⟨ts, h, hkinds, hcount, hnest, hstacked⟩

end Retrace
