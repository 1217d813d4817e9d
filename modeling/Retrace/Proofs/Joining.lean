import Retrace.Proofs.Chains
import Retrace.Proofs.Words

/-!
# Comparisons that are joined

A condition may be made of several comparisons with `and` and `or` between them.  These words are
operators like all others and bind alike, so the comparisons do not stay together: in `a == 1 and b
== 2` the last operator is `==`, and its left operand is all that comes before it.  The reader of a
condition also joins conditions by these words, but an expression has taken them before, unless it
started with a length.

The two trees are both functions of the comparisons: `grouped` is what the text is meant to say, and
`inTurn` is what is read.  They are never the same if there is more than one comparison, since the
operator at the root is a word in one and a relation in the other.  With parentheses around each
comparison the text is read as it was meant (`enclosed`), so the grammar is able to say it.

What is read depends on lengths as well.  An expression that starts with a length ends with it, and
then what follows is left over to the reader of the condition.  If it is a word, that reader goes on
with another condition, and if it is a relation the text is refused.  Here the first comparison
starts with an operand that has a relation behind it, so it is always the second case, and such a
text is not read at all.

The statement is about the whole line of a choice, from its first word to the colon, because it is
the colon that an expression has to leave over.

* `Comparison`, `Joint`: comparisons, and the words between them.
* `grouped`: the tree in which each comparison is one operand.
* `inTurn`: the tree in which one operator is applied after the other.
* `inTurn_ne_grouped`: they differ as soon as there are two comparisons.
* `comparisons_taken_in_turn`: what is read of a condition.
-/

set_option autoImplicit false

namespace Retrace
namespace Phrase

/-- Two operands and a comparison of them. -/
structure Comparison where
  left : Primary
  op : Op
  right : Primary
  isRelation : op.relation?.isSome

/-- A word that joins conditions. -/
inductive Joint where
  | and
  | or
deriving DecidableEq, Inhabited, Repr

/-- The word as an operator. -/
def Joint.op : Joint → Op
  | .and => .and
  | .or => .or

/-- The text of a comparison. -/
def Comparison.chain (c : Comparison) : Chain :=
  .mk c.left (.cons (.known c.op) c.right .nil)

/-- The tree of a comparison. -/
def Comparison.tree (c : Comparison) : Tree :=
  .binary c.left.tree c.op.tag c.right.tree

variable (c : Comparison) (more : List (Joint × Comparison))

/-- Further comparisons, each after a word. -/
def joinedLinks : List (Joint × Comparison) → Links
  | [] => .nil
  | (joint, c) :: more =>
    .cons (.known joint.op) c.left (.cons (.known c.op) c.right (joinedLinks more))

/-- Comparisons with words between them. -/
def joined : Chain :=
  .mk c.left (.cons (.known c.op) c.right (joinedLinks more))

/-- Further comparisons in parentheses, each after a word. -/
def enclosedLinks : List (Joint × Comparison) → Links
  | [] => .nil
  | (joint, c) :: more => .cons (.known joint.op) (.enclosed c.chain) (enclosedLinks more)

/-- Comparisons in parentheses with words between them. -/
def enclosed : Chain :=
  .mk (.enclosed c.chain) (enclosedLinks more)

/-- Each comparison is one operand of the words. -/
def grouped : Tree :=
  more.foldl (fun left (joint, c) => .binary left joint.op.tag c.tree) c.tree

/-- One operator is applied after the other: what is compared with the right side of a comparison is
all that comes before it. -/
def inTurn : Tree :=
  more.foldl
    (fun left (joint, c) =>
      .binary (.binary left joint.op.tag c.left.tree) c.op.tag c.right.tree)
    c.tree

/-- A chain of comparisons is taken one operator after the other. -/
theorem joined_tree : (joined c more).tree = inTurn c more := by
  have hlinks : ∀ left, (joinedLinks more).tree left = more.foldl
      (fun left (joint, c) =>
        .binary (.binary left joint.op.tag c.left.tree) c.op.tag c.right.tree) left := by
    induction more with
    | nil => exact fun left => rfl
    | cons link more ih => exact fun left => ih _
  exact hlinks _

/-- With parentheses around them, the comparisons stay together. -/
theorem enclosed_tree : (enclosed c more).tree = grouped c more := by
  have hlinks : ∀ left, (enclosedLinks more).tree left =
      more.foldl (fun left (joint, c) => .binary left joint.op.tag c.tree) left := by
    induction more with
    | nil => exact fun left => rfl
    | cons link more ih => exact fun left => ih _
  exact hlinks _

/-- Words that join are no comparisons. -/
theorem Joint.tag_ne (joint : Joint) {op : Op} (h : op.relation?.isSome) :
    op.tag ≠ joint.op.tag := by
  cases op <;> first | cases joint <;> decide | cases h

/-- The last operator is a comparison in the one tree and a word in the other. -/
theorem inTurn_ne_grouped (hne : more ≠ []) : inTurn c more ≠ grouped c more := by
  have hfold : ∀ left left' : Tree,
      more.foldl (fun left (joint, c) =>
        .binary (.binary left joint.op.tag c.left.tree) c.op.tag c.right.tree) left ≠
      more.foldl (fun left (joint, c) => .binary left joint.op.tag c.tree) left' := by
    induction more with
    | nil => exact absurd rfl hne
    | cons link more ih =>
      obtain ⟨joint, c'⟩ := link
      intro left left'
      cases more with
      | nil =>
        intro h
        simp only [List.foldl_cons, List.foldl_nil, Tree.binary, Tree.tuple.injEq, List.cons.injEq,
          Tree.text.injEq] at h
        exact joint.tag_ne c'.isRelation h.2.1
      | cons => exact ih (by simp) _ _
  exact hfold _ _

theorem enclosedLinks_areWritable {more : List (Joint × Comparison)}
    (h : (joinedLinks more).areWritable) : (enclosedLinks more).areWritable := by
  induction more with
  | nil => rfl
  | cons link more ih =>
    simp only [joinedLinks, Links.areWritable, Bool.and_eq_true] at h
    simp only [enclosedLinks, Links.areWritable, Primary.isWritable, Comparison.chain,
      Chain.isWritable, Bool.and_eq_true]
    exact ⟨⟨h.1, h.2.1, trivial⟩, ih h.2.2⟩

theorem enclosed_isWritable (h : (joined c more).isWritable) : (enclosed c more).isWritable := by
  simp only [joined, Chain.isWritable, Links.areWritable, Bool.and_eq_true] at h
  simp only [enclosed, Chain.isWritable, Primary.isWritable, Comparison.chain, Links.areWritable,
    Bool.and_eq_true]
  exact ⟨⟨h.1, h.2.1, trivial⟩, enclosedLinks_areWritable h.2.2⟩

theorem enclosedLinks_areClear {more : List (Joint × Comparison)}
    (h : ∀ link ∈ more, link.2.chain.isClear) : (enclosedLinks more).areClear := by
  induction more with
  | nil => rfl
  | cons link more ih =>
    rw [enclosedLinks, Links.areClear, Primary.isClear, h link List.mem_cons_self]
    exact ih fun link' hlink' => h link' (List.mem_cons_of_mem _ hlink')

theorem enclosed_isClear (h : c.chain.isClear) (hmore : ∀ link ∈ more, link.2.chain.isClear) :
    (enclosed c more).isClear := by
  rw [enclosed, Chain.isClear_of_not_length rfl, Primary.isClear, h, enclosedLinks_areClear hmore]
  rfl

end Phrase

namespace Grammar

open Phrase

variable {fuel : Nat} {t : Token} {ts rest : List Token} {ms : List Mark} {tree : Tree}

/-- Only before a word that joins conditions is a condition not at its end. -/
theorem conditionRest_of_ne {left : Tree} (ht : t.kind ≠ .andWord ∧ t.kind ≠ .orWord) :
    conditionRest (fuel + 1) left (t :: ts) = .ok left (t :: ts) := by
  have hword : (some t.kind == some .andWord || some t.kind == some .orWord) = false := by
    simp [ht]
  rw [conditionRest, bind_of_ok (current?_apply _)]
  change (if (some t.kind == some .andWord || some t.kind == some .orWord) = true then _
    else pure left : Parse Tree) (t :: ts) = _
  rw [hword]
  rfl

/-- A choice whose condition is an expression. -/
theorem IsWhole.branch (h : IsWhole ms tree) (hfuel : ms.length + 1 < fuel)
    (hs : Spells (.sign .ifWord :: (ms ++ [.sign .colon])) ts rest) :
    branch (fuel + 1) ts = branchRest fuel tree rest := by
  obtain ⟨t, ts, rfl, ht, hs⟩ := hs
  obtain ⟨_, hs₁, c, rest, rfl, hc, rfl⟩ := spells_append.1 hs
  have hc' : c.kind = .colon := hc
  obtain ⟨fuel, rfl⟩ : ∃ f, fuel = f + 1 := ⟨fuel - 1, by omega⟩
  have hcondition : condition (fuel + 1) ts = .ok tree (c :: rest) := by
    rw [condition, bind_of_ok (h.read hfuel hs₁ (ended_cons hc (by decide)))]
    exact conditionRest_of_ne (by rw [hc']; decide)
  rw [Grammar.branch, bind_of_ok (take_cons ht _), bind_of_ok hcondition,
    bind_of_ok (take_cons hc _)]
  rfl

/-- A choice whose condition is refused. -/
theorem branch_of_refused (h : RefusesAt IsOperator (expression fuel) ts) (ht : t.kind = .ifWord) :
    RefusesAt IsOperator (branch (fuel + 1)) (t :: ts) := by
  rw [RefusesAt, branch, bind_of_ok (take_cons ht _)]
  exact (h.bind _).bind _

/-- A choice with something left over between its condition and the colon. -/
theorem branch_of_left_over {u : Token} (h : expression (fuel + 1) ts = .ok tree (u :: rest))
    (hu : IsOperator u) (hne : u.kind ≠ .andWord ∧ u.kind ≠ .orWord) (ht : t.kind = .ifWord) :
    RefusesAt IsOperator (branch (fuel + 2)) (t :: ts) := by
  refine ⟨u, rest, hu, ?_⟩
  have hcondition : condition (fuel + 1) ts = .ok tree (u :: rest) := by
    rw [condition, bind_of_ok h, conditionRest_of_ne hne]
  rw [branch, bind_of_ok (take_cons ht _), bind_of_ok hcondition, bind_apply,
    take_of_ne (hu.ne_of_not rfl) rest]

theorem kind_ne_of_relation {op : Op} (h : op.relation?.isSome) :
    op.kind ≠ .andWord ∧ op.kind ≠ .orWord := by
  cases op <;> first | decide | cases h

/-- Joined comparisons that are not clear: an operand is refused, or the first comparison starts
with a length, which ends the expression, and no word that joins conditions follows it. -/
theorem branch_of_unclear {c : Comparison} {more : List (Joint × Comparison)}
    (hwritable : (joined c more).isWritable) (hunclear : (joined c more).isClear = false)
    (hfuel : enough ts ≤ fuel) (hs : Spells (joined c more).marks ts rest)
    (ht : t.kind = .ifWord) : RefusesAt IsOperator (branch (fuel + 1)) (t :: ts) := by
  have hlt := lt_of_enough hs hfuel
  obtain ⟨left, op, right, hop⟩ := c
  have hwritable' := hwritable
  rw [joined, Chain.isWritable, Bool.and_eq_true] at hwritable'
  cases left with
  | length e =>
    cases hclear : e.isClear with
    | false =>
      exact branch_of_refused (expression_of_unclear_length hwritable'.1 hclear hfuel hs) ht
    | true =>
      obtain ⟨_, hmid, -, hread⟩ :=
        expression_of_clear_length hwritable'.1 hclear (by simp) hfuel hs
      rw [Links.marks] at hmid
      obtain ⟨u, mid, rfl, hu, -⟩ := hmid
      obtain ⟨fuel, rfl⟩ : ∃ f, fuel = f + 1 := ⟨fuel - 1, by omega⟩
      have hoperator : IsOperator u := isOperator_of_shows hu
      have hne : u.kind ≠ .andWord ∧ u.kind ≠ .orWord := by
        rw [show u.kind = op.kind from hu]
        exact kind_ne_of_relation hop
      exact branch_of_left_over hread hoperator hne ht
  | _ =>
    refine branch_of_refused ?_ ht
    exact (links_read _ hwritable'.2).refuses (primary_reads _ hwritable'.1) rfl hunclear
      (Nat.lt_of_succ_lt hlt) hs

end Grammar

open Phrase Grammar

/-- **Comparisons that are joined do not stay together.**

From the tokens of comparisons with `and` and `or` between them, two comparisons at least, a choice
goes on with the condition in which one operator is applied after the other; that is never the one
in which each comparison is an operand of the words.  If the chain is not clear, the choice is
refused at an operator.  With parentheses around each comparison, and clear comparisons in them, the
choice goes on with the comparisons as operands. -/
theorem comparisons_taken_in_turn (c : Comparison) (more : List (Joint × Comparison))
    (hne : more ≠ []) (hwritable : (joined c more).isWritable) {fuel : Nat}
    {ts rest : List Token} (hfuel : enough ts ≤ fuel + 1)
    (hs : Spells (.sign .ifWord :: ((joined c more).marks ++ [.sign .colon])) ts rest) :
    ((joined c more).isClear → branch (fuel + 1) ts = branchRest fuel (inTurn c more) rest) ∧
    inTurn c more ≠ grouped c more ∧
    ((joined c more).isClear = false → RefusesAt IsOperator (branch (fuel + 1)) ts) ∧
    ∀ {ts' : List Token}, enough ts' ≤ fuel + 1 →
      Spells (.sign .ifWord :: ((enclosed c more).marks ++ [.sign .colon])) ts' rest →
      c.chain.isClear → (∀ link ∈ more, link.2.chain.isClear) →
      branch (fuel + 1) ts' = branchRest fuel (grouped c more) rest := by
  refine ⟨fun hclear => ?_, inTurn_ne_grouped c more hne, fun hunclear => ?_,
    fun {ts'} hfuel' hs' hclear hmore => ?_⟩
  · have hlt := lt_of_enough hs hfuel
    rw [List.length_cons, List.length_append] at hlt
    rw [← joined_tree]
    exact ((chain_reads _ hwritable).clear hclear).branch (by omega) hs
  · obtain ⟨t, ts, rfl, ht, hs⟩ := hs
    obtain ⟨_, hs, -⟩ := spells_append.1 hs
    refine branch_of_unclear hwritable hunclear ?_ hs ht
    rw [enough, List.length_cons] at hfuel
    rw [enough]
    omega
  · have hlt := lt_of_enough hs' hfuel'
    rw [List.length_cons, List.length_append] at hlt
    rw [← enclosed_tree]
    have hreads := chain_reads _ (enclosed_isWritable c more hwritable)
    exact (hreads.clear (enclosed_isClear c more hclear hmore)).branch (by omega) hs'

/-- The comparison of a name with a number. -/
def equals (name : String) (n : Int) : Comparison :=
  ⟨.literal (.name name), .eq, .literal (.int n), rfl⟩

/-- The tokens of a choice with two comparisons. -/
def bothEqual : List Token :=
  [⟨.ifWord, .text "if", 1, 0⟩, ⟨.name, .text "a", 1, 3⟩, ⟨.eq, .text "==", 1, 5⟩,
    ⟨.number, .int 1, 1, 8⟩, ⟨.andWord, .text "and", 1, 10⟩, ⟨.name, .text "b", 1, 14⟩,
    ⟨.eq, .text "==", 1, 16⟩, ⟨.number, .int 2, 1, 19⟩, ⟨.colon, .text ":", 1, 20⟩,
    ⟨.indent, .int 4, 2, 21⟩, ⟨.name, .text "x", 2, 4⟩, ⟨.assign, .text "=", 2, 6⟩,
    ⟨.number, .int 1, 2, 8⟩, ⟨.dedent, .int 0, 3, 9⟩]

/-- `a == 1 and b == 2` is read as `((a == 1) and b) == 2`. -/
theorem comparisons_taken_in_turn_both :
    Token.ofSource "if a == 1 and b == 2:\n    x = 1\n" = .ok bothEqual ∧
    inTurn (equals "a" 1) [(.and, equals "b" 2)] =
      .binary (.binary (.binary (.text "a") "eq" (.int 1)) "and" (.text "b")) "eq" (.int 2) ∧
    run branch bothEqual =
      .ok (.branch (inTurn (equals "a" 1) [(.and, equals "b" 2)])
        [.assign (.text "x") (.int 1)] [] []) [] := by
  refine ⟨by cbv, rfl, ?_⟩
  have hs : Spells
      (.sign .ifWord :: ((joined (equals "a" 1) [(.and, equals "b" 2)]).marks ++ [.sign .colon]))
      bothEqual (bothEqual.drop 9) :=
    ⟨_, _, rfl, rfl, _, _, rfl, ⟨rfl, rfl⟩, _, _, rfl, rfl, _, _, rfl, ⟨rfl, rfl⟩, _, _, rfl, rfl,
      _, _, rfl, ⟨rfl, rfl⟩, _, _, rfl, rfl, _, _, rfl, ⟨rfl, rfl⟩, _, _, rfl, rfl, rfl⟩
  obtain ⟨hread, -⟩ := comparisons_taken_in_turn (equals "a" 1) [(.and, equals "b" 2)] (by simp)
    (by decide) (by decide : enough bothEqual ≤ 127 + 1) hs
  have hrest : branchRest 127 (inTurn (equals "a" 1) [(.and, equals "b" 2)]) (bothEqual.drop 9) =
      .ok (.branch (inTurn (equals "a" 1) [(.and, equals "b" 2)])
        [.assign (.text "x") (.int 1)] [] []) [] := by
    cbv
  exact (hread rfl).trans hrest

/-- What is read has `and` between the first comparison and a name, and not between two
comparisons. -/
theorem read_bothEqual_ne :
    Run.read "if a == 1 and b == 2:\n    x = 1\n" ≠
      .ok [.branch (grouped (equals "a" 1) [(.and, equals "b" 2)])
        [.assign (.text "x") (.int 1)] [] []] := by
  have hread : Run.read "if a == 1 and b == 2:\n    x = 1\n" =
      .ok [.branch (inTurn (equals "a" 1) [(.and, equals "b" 2)])
        [.assign (.text "x") (.int 1)] [] []] := by
    cbv
  rw [hread]
  intro h
  cases h

end Retrace
