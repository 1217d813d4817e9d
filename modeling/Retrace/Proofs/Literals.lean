import Mathlib.Algebra.BigOperators.Group.List.Basic
import Mathlib.Algebra.Group.Action.Defs
import Retrace.Proofs.Registering
import Retrace.Proofs.Visiting

/-!
# Values of literals

The value of a literal is the literal as it is written, quotes included.  Only `print` takes quotes
off, one at each end of what it prints.  Everything else sees them: a sum of literals is again a
text between quotes, with two more quotes at each of its joints; a length counts all of them; and a
loop visits them as it visits other characters.

What is said of literals is said of all expressions that come to a text between quotes, since that
is what a variable is after a literal was assigned to it.  `Machine.Quotes m e s` is this property
of an expression.  It has to be known of several expressions on one machine, and evaluating one of
them changes the machine; so the property is turned into one of what the expression reads as
(`Numbered.quotes_iff`), which does not mention a second machine, and then sums are a matter of
reading.

Texts are without numbers of lists, and this is why reading and evaluating can be compared so
directly: where no lists are involved, an expression comes to a value exactly if it reads as this
value (`Numbered.evaluates_iff`).

A sum of several operands is a chain, with the operator applied from left to right.  Its content are
the contents of the operands with two quotes between each and the next one.  That is their
concatenation only if there is a single operand (`intercalate_quotes_eq_join_iff`), and so no sum of
two literals prints as the text that one might expect.

* `literal`: a text between quotes.
* `Machine.Quotes`: in a machine, an expression comes to a text between quotes.
* `Machine.Numbered.evaluates_iff`: what an expression comes to, where no lists are involved, is
  what it reads as.
* `quotes_total`: a sum of texts between quotes.
* `literals_keep_quotes`: what is printed, what is counted and what is visited.
-/

set_option autoImplicit false

namespace Retrace

/-- A text between the quotes of a literal. -/
def literal (s : String) : String :=
  "\"" ++ s ++ "\""

section Literal

variable (s : String)

theorem toList_literal : (literal s).toList = '"' :: s.toList ++ ['"'] := by
  simp [literal]

theorem length_literal : (literal s).length = s.length + 2 := by
  rw [literal, String.length_append, String.length_append, Nat.add_comm "\"".length]
  rfl

theorem isLiteral_literal : Exec.isLiteral (literal s) = true := by
  have hstarts : (literal s).startsWith "\"" = true := by
    rw [String.startsWith_string_iff, toList_literal]
    exact ⟨s.toList ++ ['"'], rfl⟩
  rw [Exec.isLiteral, hstarts, Bool.or_true]

theorem isBetween_literal : (Text.plain (literal s)).isBetween '"' = true := by
  rw [Text.isBetween, String.startsWith_char_eq_head?, String.endsWith_char_eq_getLast?,
    toList_literal, List.getLast?_concat]
  rfl

theorem inner_literal : (Text.plain (literal s)).inner = .plain s := by
  rw [Text.inner, toList_literal]
  simp

/-- Two literals side by side are one, with two quotes in the middle. -/
theorem literal_append (t : String) : literal s ++ literal t = literal (s ++ "\"\"" ++ t) := by
  rw [← String.toList_inj]
  simp [literal]

end Literal

/-! ## Expressions that come to a literal -/

/-- In the machine the expression comes to the text between quotes. -/
def Machine.Quotes (m : Machine) (e : Tree) (s : String) : Prop :=
  ∃ m', Exec.evaluate e m = .ok (.ofString (literal s)) m'

namespace Machine

variable {m : Machine} {reg : Nat → List Value} {e : Tree} {s : String}

/-- Values without lists keep their shape when lists are blurred; so an expression comes to one in
a machine just if it reads as one. -/
theorem Numbered.evaluates_iff (hm : m.Numbered reg) {w : Value}
    (hw : ∀ v : Value, v.blur m.lists.next = w ↔ v = w) (e : Tree) :
    (∃ m', Exec.evaluate e m = .ok w m') ↔ m.reading m.heap.size e = .ok w := by
  rw [← hm.visited.outcomeSince e]
  cases Exec.evaluate e m with
  | ok v m' => simp [Exec.outcomeSince, hw]
  | error f m' => simp [Exec.outcomeSince]

/-- An expression comes to a literal exactly if it reads as one. -/
theorem Numbered.quotes_iff (hm : m.Numbered reg) :
    m.Quotes e s ↔ m.reading m.heap.size e = .ok (.ofString (literal s)) := by
  refine hm.evaluates_iff (fun v => ?_) e
  cases v <;> simp [Value.blur, Value.ofString]

/-- A literal reads as itself at every depth. -/
theorem reading_literal (m : Machine) (depth : Nat) (s : String) :
    m.reading depth (.text (literal s)) = .ok (.ofString (literal s)) := by
  rw [reading, Tree.outcome, isLiteral_literal, if_pos rfl]

theorem Numbered.quotes_literal (hm : m.Numbered reg) (s : String) :
    m.Quotes (.text (literal s)) s :=
  hm.quotes_iff.2 (m.reading_literal _ s)

/-- A name to which a literal was assigned, before and after its thunk is worked out. -/
theorem Numbered.quotes_name (hm : m.Numbered reg) {x : String} {id : Nat} {value? : Option Value}
    (hx : Exec.isLiteral x = false) (hid : m.lookup (.ofText x) = some (.thunk id))
    (hthunk : m.heap[id]? = some ⟨.text (literal s), value?⟩)
    (hvalue : value? = none ∨ value? = some (.ofString (literal s))) : m.Quotes (.text x) s := by
  obtain ⟨depth, hdepth⟩ : ∃ depth, m.heap.size = depth + 1 :=
    Nat.exists_eq_add_one_of_ne_zero (Nat.ne_zero_of_lt (Array.getElem?_eq_some_iff.1 hthunk).1)
  have hname : m.reading m.heap.size (.text x) = m.readThunk (depth + 1) id := by
    rw [reading, Tree.outcome, hx, if_neg Bool.false_ne_true, readName, hid, hdepth]
  rw [hm.quotes_iff, hname]
  rcases hvalue with rfl | rfl
  · rw [readThunk_of_waiting hthunk, reading_literal]
  · exact readThunk_of_value hthunk

/-- The sum of two texts between quotes has two quotes in the middle. -/
theorem Numbered.quotes_plus (hm : m.Numbered reg) {e' : Tree} {t : String} (h : m.Quotes e s)
    (h' : m.Quotes e' t) : m.Quotes (.binary e "plus" e') (s ++ "\"\"" ++ t) := by
  rw [hm.quotes_iff] at h h' ⊢
  show (m.reading m.heap.size e >>= fun u => m.reading m.heap.size e' >>= fun v =>
    Op.plus.outcome m.lists m.lists.next u v) = _
  rw [h, h', ← literal_append]
  rfl

/-- The length of a text between quotes. -/
theorem Numbered.length_of_quotes (hm : m.Numbered reg) (h : m.Quotes e s) :
    ∃ m', Exec.evaluate (.length e) m = .ok (.int ↑(s.length + 2)) m' := by
  rw [hm.quotes_iff] at h
  refine (hm.evaluates_iff (fun v => ?_) _).2 ?_
  · cases v <;> simp [Value.blur]
  · show (m.reading m.heap.size e >>= fun v => v.lengthSince m.lists) = _
    rw [h, ← length_literal]
    rfl

end Machine

/-! ## Sums -/

/-- A part of a sum, and the text that it is to quote. -/
structure Operand where
  expression : Tree
  content : String

/-- A sum, of which the left part is formed first. -/
def total (first : Operand) (more : List Operand) : Tree :=
  more.foldl (fun left right => .binary left "plus" right.expression) first.expression

/-- **A sum of texts between quotes is one as well.**  By induction on the parts that follow, with
the sum so far for the first part. -/
theorem Machine.Numbered.quotes_total {m : Machine} {reg : Nat → List Value} (hm : m.Numbered reg)
    {first : Operand} {more : List Operand}
    (h : ∀ operand ∈ first :: more, m.Quotes operand.expression operand.content) :
    m.Quotes (total first more) ("\"\"".intercalate ((first :: more).map (·.content))) := by
  induction more generalizing first with
  | nil =>
    rw [List.map_singleton, String.intercalate_singleton]
    exact h first List.mem_cons_self
  | cons next rest ih =>
    obtain ⟨hfirst, hnext, hrest⟩ := by simpa only [List.forall_mem_cons] using h
    let both : Operand := ⟨.binary first.expression "plus" next.expression,
      first.content ++ "\"\"" ++ next.content⟩
    have hboth : m.Quotes both.expression both.content := hm.quotes_plus hfirst hnext
    have htotal := @ih both (List.forall_mem_cons.2 ⟨hboth, hrest⟩)
    rw [List.map_cons, String.intercalate_cons_append] at htotal
    rw [List.map_cons, List.map_cons, String.intercalate_cons_cons]
    exact htotal

/-- At each joint there are two characters more than the parts have. -/
theorem length_intercalate_quotes (s : String) (ss : List String) :
    ("\"\"".intercalate (s :: ss)).length = (String.join (s :: ss)).length + 2 * ss.length := by
  induction ss generalizing s with
  | nil => simp
  | cons t ts ih =>
    have hquotes : "\"\"".length = 2 := rfl
    have hjoin : (String.join (s :: t :: ts)).length =
        s.length + (String.join (t :: ts)).length := by
      rw [String.join_cons, String.length_append]
    rw [String.intercalate_cons_cons, String.length_append, String.length_append, ih t, hquotes,
      hjoin, List.length_cons]
    omega

/-- The parts with their quotes are as long as the sum with its quotes. -/
theorem sum_length_add_two (s : String) (ss : List String) :
    ((s :: ss).map fun t => t.length + 2).sum = ("\"\"".intercalate (s :: ss)).length + 2 := by
  rw [length_intercalate_quotes, String.length_join, List.sum_map_add, List.map_const',
    List.sum_replicate, List.length_cons, smul_eq_mul]
  omega

/-- The quotes at the joints show, unless there are none. -/
theorem intercalate_quotes_eq_join_iff (s : String) (ss : List String) :
    "\"\"".intercalate (s :: ss) = String.join (s :: ss) ↔ ss = [] := by
  constructor
  · intro h
    have hlength := length_intercalate_quotes s ss
    rw [h] at hlength
    exact List.eq_nil_of_length_eq_zero (by omega)
  · rintro rfl
    simp

/-! ## Statements -/

namespace Exec

variable {e : Tree} {s : String} {m m' : Machine}

/-- To print a text between quotes takes the two off. -/
theorem perform_print_literal (h : evaluate e m = .ok (.ofString (literal s)) m') (n : Nat) :
    perform unwatched (n + 1) (.print [e]) m =
      .ok true { m' with pieces := ⟨.print, s ++ "\n"⟩ :: m'.pieces } := by
  have hprinted : printed (.ofString (literal s)) m' = .ok s m' := by
    rw [Value.ofString, printed, isBetween_literal, Bool.true_or, if_pos rfl, inner_literal]
    rfl
  have hall : printedAll unwatched [e] m = .ok [s] m' := by
    rw [printedAll, evaluateWatched_unwatched, bind_of_ok h, bind_of_ok hprinted]
    rfl
  show (print unwatched (.print [e]) >>= fun _ => pure true) m = _
  have hprint : print unwatched (.print [e]) m =
      .ok () { m' with pieces := ⟨.print, s ++ "\n"⟩ :: m'.pieces } := by
    show (printedAll unwatched [e] >>= fun texts =>
      put .print (" ".intercalate texts ++ "\n")) m = _
    rw [bind_of_ok hall, String.intercalate_singleton]
    rfl
  rw [bind_of_ok hprint]
  rfl

/-- A loop over a name that stands for a text between quotes starts and ends with a quote. -/
theorem perform_forLoop_literal {x : String} (hx : x ≠ "")
    (h : evaluate (.text x) m = .ok (.ofString (literal s)) m') (target body : Tree) (n : Nat) :
    perform unwatched (n + 1) (.tuple [.text "for", target, .text x, body]) m =
      (eachLoop unwatched (perform unwatched n) target body
        (('"' :: s.toList ++ ['"']).map fun c => .ofString c.toString) >>=
          fun _ => pure true) m' := by
  have hletters : (Text.plain (literal s)).letters.map Value.text =
      ('"' :: s.toList ++ ['"']).map fun c => .ofString c.toString := by
    rw [Text.letters, toList_literal, List.map_map]
    rfl
  refine (forLoop_text hx (perform unwatched n) n).trans ?_
  rw [bind_of_ok h, Value.ofString, itemLoop, hletters]

end Exec

open Exec (evaluate perform unwatched eachLoop)

/-- **Values of literals keep their quotes.**  If expressions come to texts between quotes, in a
machine whose values conform to a registry as they do all along a run, then

* `print` of their sum writes the texts with two quotes at each joint, which are the texts one
  after the other only if there is no joint;
* the length of each is that of the text and two, and that of the sum is the sum of these;
* a loop over a name visits a quote, the characters of the text and a quote, whatever its body
  does. -/
theorem literals_keep_quotes {m : Machine} {reg : Nat → List Value} (hm : m.Numbered reg)
    (first : Operand) (more : List Operand)
    (h : ∀ operand ∈ first :: more, m.Quotes operand.expression operand.content) :
    (∃ m', m.Looks m' ∧ ∀ n, perform unwatched (n + 1) (.print [total first more]) m =
      .ok true { m' with
        pieces := ⟨.print, "\"\"".intercalate ((first :: more).map (·.content)) ++ "\n"⟩ ::
          m.pieces }) ∧
    ("\"\"".intercalate ((first :: more).map (·.content)) =
      String.join ((first :: more).map (·.content)) ↔ more = []) ∧
    (∃ m', evaluate (.length (total first more)) m =
      .ok (.int ((first :: more).map fun operand => operand.content.length + 2 : List Nat).sum)
        m') ∧
    ∀ operand ∈ first :: more,
      (∃ m', evaluate (.length operand.expression) m =
        .ok (.int ↑(operand.content.length + 2)) m') ∧
      ∀ x, x ≠ "" → operand.expression = .text x → ∃ m', m.Looks m' ∧ ∀ target body n,
        perform unwatched (n + 1) (.tuple [.text "for", target, .text x, body]) m =
          (eachLoop unwatched (perform unwatched n) target body
            (('"' :: operand.content.toList ++ ['"']).map fun c => .ofString c.toString) >>=
              fun _ => pure true) m' := by
  have htotal := hm.quotes_total h
  refine ⟨?_, ?_, ?_, fun operand hmem => ⟨hm.length_of_quotes (h operand hmem), ?_⟩⟩
  · obtain ⟨m', hm'⟩ := htotal
    have hlooks := (Exec.evaluate_looks _).ok hm'
    refine ⟨m', hlooks, fun n => ?_⟩
    rw [Exec.perform_print_literal hm', hlooks.pieces]
  · rw [List.map_cons, intercalate_quotes_eq_join_iff, List.map_eq_nil_iff]
  · have hlength := hm.length_of_quotes htotal
    rw [List.map_cons, ← sum_length_add_two, ← List.map_cons, List.map_map] at hlength
    exact hlength
  · intro x hx hexpression
    obtain ⟨m', hm'⟩ := h operand hmem
    rw [hexpression] at hm'
    exact ⟨m', (Exec.evaluate_looks _).ok hm', Exec.perform_forLoop_literal hx hm'⟩

namespace Literals

/-- `a = "s"`, `b = "t"` -/
def program : List Tree :=
  [.assign (.text "a") (.text (literal "s")), .assign (.text "b") (.text (literal "t"))]

/-- `a` -/
def first : Operand := ⟨.text "a", "s"⟩

/-- `b` and `"u"` -/
def more : List Operand := [⟨.text "b", "t"⟩, ⟨.text (literal "u"), "u"⟩]

theorem statements_program : ∃ m₁ m,
    (Run.statements 1 program (.withEager {} [])).1 = [m₁, m] ∧
    m.lookup (.ofText "a") = some (.thunk 0) ∧ m.lookup (.ofText "b") = some (.thunk 1) ∧
    m.heap = #[⟨.text (literal "s"), none⟩, ⟨.text (literal "t"), none⟩] :=
  ⟨_, _, by cbv, by cbv, by cbv, by cbv⟩

/-- After the program all of `a`, `b` and `"u"` come to a text between quotes. -/
theorem program_quotes : ∃ m₁ m reg,
    (Run.statements 1 program (.withEager {} [])).1 = [m₁, m] ∧ m.Numbered reg ∧
    ∀ operand ∈ first :: more, m.Quotes operand.expression operand.content := by
  obtain ⟨m₁, m, hprogram, ha, hb, hheap⟩ := statements_program
  have hunwatched : Exec.Trusts unwatched := fun _ _ _ => rfl
  have hsound : m.Sound [] :=
    (Run.statements_sound hunwatched 1 program (Machine.sound_withEager {} [])).2 m
      (by simp [hprogram])
  obtain ⟨reg, hm⟩ := hsound.numbered
  have hquotes : ∀ operand ∈ first :: more, m.Quotes operand.expression operand.content := by
    simp only [more, List.forall_mem_cons]
    refine ⟨?_, ?_, hm.quotes_literal "u", by simp⟩
    · exact hm.quotes_name (by cbv) ha (by rw [hheap]; rfl) (.inl rfl)
    · exact hm.quotes_name (by cbv) hb (by rw [hheap]; rfl) (.inl rfl)
  exact ⟨m₁, m, reg, hprogram, hm, hquotes⟩

end Literals

/-- `print(a + b + "u")` writes four quotes between the letters, and the length is 9. -/
theorem literals_keep_quotes_letters : ∃ m₁ m,
    (Run.statements 1 Literals.program (.withEager {} [])).1 = [m₁, m] ∧
    (∃ m', perform unwatched 1 (.print [total Literals.first Literals.more]) m = .ok true m' ∧
      m'.pieces = ⟨.print, "s\"\"t\"\"u\n"⟩ :: m.pieces) ∧
    (∃ m', evaluate (.length (total Literals.first Literals.more)) m = .ok (.int 9) m') ∧
    ∃ m', evaluate (.length (.text "a")) m = .ok (.int 3) m' := by
  obtain ⟨m₁, m, reg, hprogram, hm, hquotes⟩ := Literals.program_quotes
  obtain ⟨⟨m', -, hprint⟩, -, hlength, heach⟩ :=
    literals_keep_quotes hm Literals.first Literals.more hquotes
  have htext : "\"\"".intercalate ((Literals.first :: Literals.more).map (·.content)) ++ "\n" =
      "s\"\"t\"\"u\n" := by cbv
  rw [htext] at hprint
  exact ⟨m₁, m, hprogram, ⟨_, hprint 0, rfl⟩, hlength, (heach _ List.mem_cons_self).1⟩

/-- `print(a + b)` writes other characters than those of the two literals.  A loop over `a` takes
three turns, and where it visits a quote, nothing is left of that to print. -/
theorem print_literals_ne :
    (Run.statements 1 (Literals.program ++ [.print [.binary (.text "a") "plus" (.text "b")]])
      (.withEager {} [])).2.2.output ≠ "st\n" ∧
    (Run.statements 2 (Literals.program ++ [.forLoop (.text "c") (.text "a") [.print [.text "c"]]])
      (.withEager {} [])).2.2.output = "\ns\n\n" := by
  constructor
  · have houtput : (Run.statements 1 (Literals.program ++
        [.print [.binary (.text "a") "plus" (.text "b")]]) (.withEager {} [])).2.2.output =
        "s\"\"t\n" := by cbv
    rw [houtput]
    decide
  · cbv

end Retrace
