import Mathlib.Order.Nat
import Mathlib.Tactic.ByContra
import Retrace.Proofs.Reading

/-!
# Chains of operands

The text of an expression is a chain: a first operand, and further ones with an operator in front of
each.  An operand is a literal, an item of a list, a length, or a chain in parentheses.  A tree has
many texts, since parentheses may stand around any chain; here the texts are looked at themselves.

An operand may be a length in any place but one.  Where an expression starts with a length, it ends
with it, and the operators that follow are left over.  Within parentheses or brackets nothing can be
left over, so there the text is refused.  The chains that are read as they should be are those in
which no length stands before an operator at the start of an expression, at any depth.

A chain is a type of its own, next to trees and to expressions.  A tree does not know where its text
has parentheses, and whether an expression starts with a length depends on just that: `len(x) - 1`
starts with one, and `(len(x)) - 1` does not.  The type follows the grammar, so that each function
of the reader has one case of it to read, and the whole is three inductions that go through each
other.

What is shown of each text has two sides: if it is clear it is read, with all of its tokens used up,
and if it is not clear it is refused or stops before its end.  Both are needed in the induction, as
a chain may be unclear because of a chain inside of it.  A refusal is always at an operator, and a
stop is always before one (`StopsAtOperator`).  This is what joins the two: what was left over by
the inner chain is an operator, and a bracket that is expected in its place is refused there.

* `Primary`, `Chain`, `Links`: operands, chains, and chains without their first operand.
* `Chain.isClear`: no length is cut off from what follows it.
* `primary_reads`, `chain_reads`, `links_read`: what becomes of each text.
* `expression_reads_iff`: the clear chains are those that are read.
* `length_ends_expression`: chains that start with a length.
-/

set_option autoImplicit false

namespace Retrace
namespace Phrase

/-! ## Operands and operators as they stand in a text -/

mutual

/-- An operand. -/
inductive Primary where
  | literal (v : Literal)
  | index (name : String) (position : Chain)
  | length (e : Chain)
  | enclosed (e : Chain)

/-- An operand, and what follows it. -/
inductive Chain where
  | mk (first : Primary) (links : Links)

/-- Operands, each after an operator. -/
inductive Links where
  | nil
  | cons (op : Infix) (operand : Primary) (rest : Links)

end

mutual

/-- The tree of an operand.  Parentheses leave no trace in it. -/
def Primary.tree : Primary → Tree
  | .literal v => v.tree
  | .index name position => .index (.text name) position.tree
  | .length e => .length e.tree
  | .enclosed e => e.tree

/-- The tree of a chain. -/
def Chain.tree : Chain → Tree
  | .mk first links => links.tree first.tree

/-- The tree of a chain that goes on after `left`: it groups to the left. -/
def Links.tree (left : Tree) : Links → Tree
  | .nil => left
  | .cons op operand rest => rest.tree (.binary left op.tag operand.tree)

end

mutual

/-- The tokens of an operand. -/
def Primary.marks : Primary → List Mark
  | .literal v => v.marks
  | .index name position =>
    .name name :: .sign .lbracket :: (position.marks ++ [.sign .rbracket])
  | .length e => .sign .lenWord :: .sign .lparen :: (e.marks ++ [.sign .rparen])
  | .enclosed e => .sign .lparen :: (e.marks ++ [.sign .rparen])

/-- The tokens of a chain. -/
def Chain.marks : Chain → List Mark
  | .mk first links => first.marks ++ links.marks

/-- The tokens of operators and operands. -/
def Links.marks : Links → List Mark
  | .nil => []
  | .cons op operand rest => .sign op.kind :: (operand.marks ++ rest.marks)

end

mutual

/-- Are the names and the literals of the operand such as a text can hold? -/
def Primary.isWritable : Primary → Bool
  | .literal v => v.isWritable
  | .index name position => isName name && position.isWritable
  | .length e => e.isWritable
  | .enclosed e => e.isWritable

/-- Are those of the chain? -/
def Chain.isWritable : Chain → Bool
  | .mk first links => first.isWritable && links.areWritable

/-- Are those of the operands? -/
def Links.areWritable : Links → Bool
  | .nil => true
  | .cons _ operand rest => operand.isWritable && rest.areWritable

end

mutual

/-- Is every chain in the operand clear? -/
def Primary.isClear : Primary → Bool
  | .literal _ => true
  | .index _ position => position.isClear
  | .length e => e.isClear
  | .enclosed e => e.isClear

/-- Is it so that no operator follows a length at the start of the chain, or of any chain in it? -/
def Chain.isClear : Chain → Bool
  | .mk (.length e) .nil => e.isClear
  | .mk (.length _) (.cons ..) => false
  | .mk first links => first.isClear && links.areClear

/-- Is every chain in the operands clear? -/
def Links.areClear : Links → Bool
  | .nil => true
  | .cons _ operand rest => operand.isClear && rest.areClear

end

/-- Is the operand a length? -/
def Primary.isLength : Primary → Bool
  | .length _ => true
  | _ => false

theorem Chain.isClear_of_not_length {first : Primary} (h : first.isLength = false)
    (links : Links) : (Chain.mk first links).isClear = (first.isClear && links.areClear) := by
  cases first with
  | length e => cases h
  | _ => simp only [Chain.isClear]

/-- Unless it is a length, an operand does not start like one. -/
theorem Primary.marks_eq_cons {p : Primary} (h : p.isLength = false) :
    ∃ m ms, p.marks = m :: ms ∧ m.kind ≠ .lenWord := by
  cases p with
  | literal v =>
    obtain ⟨m, ms, hm, hkind⟩ := Grammar.literal_marks_eq_cons v
    refine ⟨m, ms, by rw [Primary.marks, hm], ?_⟩
    generalize m.kind = k at hkind
    revert k
    decide
  | index name position => exact ⟨_, _, by rw [Primary.marks], by simp [Mark.kind]⟩
  | length e => cases h
  | enclosed e => exact ⟨_, _, by rw [Primary.marks], by decide⟩

theorem Links.marks_pos {links : Links} (h : links ≠ .nil) : 0 < links.marks.length := by
  cases links with
  | nil => exact absurd rfl h
  | cons op p links =>
    rw [Links.marks, List.length_cons]
    exact Nat.succ_pos _

end Phrase

namespace Grammar

open Phrase

variable {α : Type} {fuel : Nat} {t : Token} {ts rest : List Token} {ms : List Mark} {tree : Tree}

/-! ## Stopping at an operator -/

/-- Is the token an operator? -/
def IsOperator (t : Token) : Prop :=
  t.kind.operator?.isSome

theorem operator?_of_shows {op : Infix} (h : t.Shows (.sign op.kind)) :
    t.kind.operator? = some op.tag := by
  rw [show t.kind = op.kind from h, Infix.operator?_kind]

theorem isOperator_of_shows {op : Infix} (h : t.Shows (.sign op.kind)) : IsOperator t := by
  rw [IsOperator, operator?_of_shows h]
  rfl

/-- No expression ends before an operator. -/
theorem IsOperator.not_ended (h : IsOperator t) : ¬Ended (t :: ts) := by
  intro hended
  rw [IsOperator, (hended t rfl).1] at h
  cases h

theorem IsOperator.ne_of_not {k : Kind} (h : IsOperator t) (hk : k.operator? = none) :
    t.kind ≠ k := by
  intro ht
  rw [IsOperator, ht, hk] at h
  cases h

/-- The tokens are refused at an operator, or one is left over. -/
def StopsAtOperator (x : Parse α) (ts : List Token) : Prop :=
  RefusesAt IsOperator x ts ∨ ∃ a t rest, IsOperator t ∧ x ts = .ok a (t :: rest)

/-- Where something has to follow that is no operator, none may be left over. -/
theorem StopsAtOperator.take {x : Parse α} (h : StopsAtOperator x ts) {k : Kind}
    (hk : k.operator? = none) {β : Type} (f : α → Tree → Parse β) :
    RefusesAt IsOperator (x >>= fun a => Grammar.take k >>= f a) ts := by
  rcases h with h | ⟨a, t, rest, ht, hx⟩
  · exact h.bind _
  · refine ⟨t, rest, ht, ?_⟩
    rw [bind_of_ok hx, bind_apply, take_of_ne (ht.ne_of_not hk) rest]

/-! ## What becomes of each text -/

theorem expression_of_primary {p : Primary} (hp : p.isLength = false)
    (hs : Spells (p.marks ++ ms) ts rest) :
    expression (fuel + 1) ts = (primary fuel >>= chain fuel) ts := by
  obtain ⟨m, ms', hm, hkind⟩ := Primary.marks_eq_cons hp
  rw [hm] at hs
  obtain ⟨t, _, rfl, ht, -⟩ := hs
  exact expression_of_ne (ht.kind_eq ▸ hkind)

/-- At the start of an expression, a length is read as an operand is, and nothing after it. -/
theorem expression_of_length {e : Chain} (hs : Spells (Primary.length e).marks ts rest) :
    expression (fuel + 1) ts = primary (fuel + 1) ts := by
  rw [Primary.marks] at hs
  obtain ⟨t, ts, rfl, ht, -⟩ := hs
  rw [expression, primary, bind_of_ok (kind_cons t ts), bind_of_ok (kind_cons t ts)]
  simp only [show t.kind = .lenWord from ht]

/-- An operand is read, or refused at an operator. -/
structure PrimaryReads (p : Primary) : Prop where
  clear : p.isClear → IsPrimary p.marks p.tree
  unclear {fuel : Nat} {ts rest : List Token} (h : p.isClear = false)
    (hfuel : p.marks.length < fuel) (hs : Spells p.marks ts rest) :
    RefusesAt IsOperator (primary fuel) ts

/-- A chain is read, or it comes to a stop at an operator. -/
structure ChainReads (c : Chain) : Prop where
  clear : c.isClear → IsWhole c.marks c.tree
  unclear {fuel : Nat} {ts rest : List Token} (h : c.isClear = false)
    (hfuel : c.marks.length + 1 < fuel) (hs : Spells c.marks ts rest) :
    StopsAtOperator (expression fuel) ts

/-- The rest of a chain is read after any left operand, or refused at an operator. -/
structure LinksRead (links : Links) : Prop where
  clear {fuel : Nat} {ts rest : List Token} (h : links.areClear)
    (hfuel : links.marks.length < fuel) (hs : Spells links.marks ts rest) (hrest : Ended rest)
    (left : Tree) : chain fuel left ts = .ok (links.tree left) rest
  unclear {fuel : Nat} {ts rest : List Token} (h : links.areClear = false)
    (hfuel : links.marks.length < fuel) (hs : Spells links.marks ts rest) (left : Tree) :
    RefusesAt IsOperator (chain fuel left) ts

/-- After an operand there is no bracket, be it an operator that follows or the end of the chain. -/
theorem notIndexed_of_links {links : Links} (hs : Spells links.marks ts rest)
    (hrest : links = .nil → NotIndexed rest) : NotIndexed ts := by
  cases links with
  | nil =>
    rw [Links.marks, spells_nil] at hs
    exact hs ▸ hrest rfl
  | cons op p links =>
    rw [Links.marks] at hs
    obtain ⟨t, _, rfl, ht, -⟩ := hs
    exact notIndexed_cons rfl ((isOperator_of_shows ht).ne_of_not rfl)

/-- In brackets, a chain that is not clear is refused. -/
theorem ChainReads.refuses {c : Chain} (h : ChainReads c) (hc : c.isClear = false)
    (hfuel : c.marks.length + 1 < fuel) {k : Kind} (hs : Spells (c.marks ++ [.sign k]) ts rest)
    (hk : k.operator? = none) (f : Tree → Parse α) :
    RefusesAt IsOperator (expression fuel >>= fun e => take k >>= fun _ => f e) ts := by
  obtain ⟨_, hs, -⟩ := spells_append.1 hs
  exact (h.unclear hc hfuel hs).take hk fun e _ => f e

/-- A chain in parentheses is an operand. -/
theorem ChainReads.enclosed {c : Chain} (h : ChainReads c) : PrimaryReads (.enclosed c) where
  clear hc := by
    rw [Primary.marks, Primary.tree]
    exact (h.clear hc).enclosed
  unclear {fuel ts rest} hc hfuel hs := by
    rw [Primary.marks] at hs hfuel
    rw [List.length_cons, List.length_append, List.length_singleton] at hfuel
    obtain ⟨fuel, rfl⟩ : ∃ f, fuel = f + 1 := ⟨fuel - 1, by omega⟩
    obtain ⟨t, ts, rfl, ht, hs⟩ := hs
    rw [RefusesAt, primary, bind_of_ok (kind_cons t ts)]
    simp only [show t.kind = .lparen from ht]
    rw [bind_of_ok (advance_apply _)]
    exact h.refuses hc (by omega) hs rfl _

theorem ChainReads.index {c : Chain} (h : ChainReads c) (name : String) :
    PrimaryReads (.index name c) where
  clear hc := by
    rw [Primary.marks, Primary.tree]
    exact (h.clear hc).indexed name
  unclear {fuel ts rest} hc hfuel hs := by
    rw [Primary.marks] at hs hfuel
    simp only [List.length_cons, List.length_append, List.length_nil] at hfuel
    obtain ⟨fuel, rfl⟩ : ∃ f, fuel = f + 1 := ⟨fuel - 1, by omega⟩
    obtain ⟨t, _, rfl, ht, u, us, rfl, hu, hs⟩ := hs
    rw [RefusesAt, primary, bind_of_ok (kind_cons t _)]
    simp only [ht.1]
    rw [bind_of_ok (take_cons ht.1 _), ht.2, bind_of_ok (sees_cons .lbracket u us),
      show u.kind = .lbracket from hu, if_pos BEq.rfl, bind_of_ok (advance_apply _)]
    exact h.refuses hc (by omega) hs rfl _

theorem ChainReads.length {c : Chain} (h : ChainReads c) : PrimaryReads (.length c) where
  clear hc := by
    rw [Primary.marks, Primary.tree]
    exact (h.clear hc).length_isPrimary
  unclear {fuel ts rest} hc hfuel hs := by
    rw [Primary.marks] at hs hfuel
    simp only [List.length_cons, List.length_append, List.length_nil] at hfuel
    obtain ⟨fuel, rfl⟩ : ∃ f, fuel = f + 1 := ⟨fuel - 1, by omega⟩
    obtain ⟨t, _, rfl, ht, u, us, rfl, hu, hs⟩ := hs
    rw [RefusesAt, primary, bind_of_ok (kind_cons t _)]
    simp only [show t.kind = .lenWord from ht]
    rw [bind_of_ok (advance_apply _), List.tail_cons, bind_of_ok (take_cons hu us)]
    exact h.refuses hc (by omega) hs rfl _

theorem primaryReads_literal {v : Literal} (hv : v.isWritable) : PrimaryReads (.literal v) where
  clear _ := by
    rw [Primary.marks, Primary.tree]
    exact isPrimary_literal v hv
  unclear h := by cases h

theorem LinksRead.nil : LinksRead .nil where
  clear {fuel ts rest} _ hfuel hs hrest left := by
    obtain ⟨fuel, rfl⟩ : ∃ f, fuel = f + 1 := ⟨fuel - 1, by omega⟩
    rw [Links.marks, spells_nil] at hs
    rw [hs, chain_of_ended hrest, Links.tree]
  unclear h := by cases h

/-- An operand and the rest of its chain. -/
theorem LinksRead.after {links : Links} (h : LinksRead links) {p : Primary} (hp : PrimaryReads p)
    {k : Nat} (hfuel : p.marks.length < fuel) (hk : links.marks.length < k)
    (hs : Spells (p.marks ++ links.marks) ts rest) (f : Tree → Tree) :
    (p.isClear → links.areClear → Ended rest →
      (primary fuel >>= fun operand => chain k (f operand)) ts =
        .ok (links.tree (f p.tree)) rest) ∧
    ((p.isClear && links.areClear) = false →
      RefusesAt IsOperator (primary fuel >>= fun operand => chain k (f operand)) ts) := by
  obtain ⟨mid, hs₁, hs₂⟩ := spells_append.1 hs
  constructor
  · intro hclear hlinks hrest
    have hmid := notIndexed_of_links hs₂ fun _ => hrest.notIndexed
    rw [bind_of_ok ((hp.clear hclear).read hfuel hs₁ hmid), h.clear hlinks hk hs₂ hrest]
  · intro hunclear
    -- Either the operand is refused, or it is read and one of the links is.
    cases hclear : p.isClear with
    | false => exact (hp.unclear hclear hfuel hs₁).bind _
    | true =>
      have hlinks : links.areClear = false := by simpa [hclear] using hunclear
      have hmid : NotIndexed mid := by
        refine notIndexed_of_links hs₂ fun hnil => ?_
        rw [hnil] at hlinks
        cases hlinks
      rw [RefusesAt, bind_of_ok ((hp.clear hclear).read hfuel hs₁ hmid)]
      exact h.unclear hlinks hk hs₂ _

theorem LinksRead.cons {links : Links} (op : Infix) {p : Primary} (hp : PrimaryReads p)
    (h : LinksRead links) : LinksRead (.cons op p links) where
  clear {fuel ts rest} hclear hfuel hs hrest left := by
    rw [Links.areClear, Bool.and_eq_true] at hclear
    rw [Links.marks] at hs hfuel
    rw [List.length_cons, List.length_append] at hfuel
    obtain ⟨fuel, rfl⟩ : ∃ f, fuel = f + 1 := ⟨fuel - 1, by omega⟩
    obtain ⟨t, _, rfl, ht, hs⟩ := hs
    rw [chain_of_operator (operator?_of_shows ht), Links.tree]
    exact (h.after hp (by omega) (by omega) hs _).1 hclear.1 hclear.2 hrest
  unclear {fuel ts rest} hunclear hfuel hs left := by
    rw [Links.areClear] at hunclear
    rw [Links.marks] at hs hfuel
    rw [List.length_cons, List.length_append] at hfuel
    obtain ⟨fuel, rfl⟩ : ∃ f, fuel = f + 1 := ⟨fuel - 1, by omega⟩
    obtain ⟨t, _, rfl, ht, hs⟩ := hs
    rw [RefusesAt, chain_of_operator (operator?_of_shows ht)]
    exact (h.after hp (by omega) (by omega) hs _).2 hunclear

/-- Unless it starts with a length, a chain that is not clear is refused. -/
theorem LinksRead.refuses {links : Links} (h : LinksRead links) {p : Primary}
    (hp : PrimaryReads p) (hlength : p.isLength = false)
    (hunclear : (Chain.mk p links).isClear = false)
    (hfuel : (Chain.mk p links).marks.length + 1 < fuel)
    (hs : Spells (Chain.mk p links).marks ts rest) : RefusesAt IsOperator (expression fuel) ts := by
  rw [Chain.isClear_of_not_length hlength] at hunclear
  rw [Chain.marks] at hs hfuel
  rw [List.length_append] at hfuel
  obtain ⟨fuel, rfl⟩ : ∃ f, fuel = f + 1 := ⟨fuel - 1, by omega⟩
  rw [RefusesAt, expression_of_primary hlength hs]
  exact (h.after hp (by omega) (by omega) hs id).2 hunclear

theorem LinksRead.chain {links : Links} (h : LinksRead links) {p : Primary} (hp : PrimaryReads p)
    (hlength : p.isLength = false) : ChainReads (.mk p links) where
  clear hclear := by
    rw [Chain.isClear_of_not_length hlength, Bool.and_eq_true] at hclear
    refine ⟨fun {fuel ts rest} hfuel hs hrest => ?_⟩
    rw [Chain.marks] at hs hfuel
    rw [List.length_append] at hfuel
    obtain ⟨fuel, rfl⟩ : ∃ f, fuel = f + 1 := ⟨fuel - 1, by omega⟩
    rw [expression_of_primary hlength hs, Chain.tree]
    exact (h.after hp (by omega) (by omega) hs id).1 hclear.1 hclear.2 hrest
  unclear hunclear hfuel hs := .inl (h.refuses hp hlength hunclear hfuel hs)

/-- A chain that starts with a length: only the length is read. -/
theorem ChainReads.length_chain {e : Chain} (h : ChainReads e) (links : Links) :
    ChainReads (.mk (.length e) links) where
  clear hclear := by
    cases links with
    | nil =>
      rw [Chain.isClear] at hclear
      rw [Chain.marks, Links.marks, List.append_nil, Primary.marks, Chain.tree, Links.tree,
        Primary.tree]
      exact (h.clear hclear).length_isWhole
    | cons op p links => cases hclear
  unclear {fuel ts rest} hunclear hfuel hs := by
    rw [Chain.marks] at hs hfuel
    rw [List.length_append] at hfuel
    obtain ⟨mid, hs₁, hs₂⟩ := spells_append.1 hs
    obtain ⟨fuel, rfl⟩ : ∃ f, fuel = f + 1 := ⟨fuel - 1, by omega⟩
    rw [StopsAtOperator, RefusesAt, expression_of_length hs₁]
    cases hclear : e.isClear with
    | false => exact .inl (h.length.unclear hclear (by omega) hs₁)
    | true =>
      right
      cases links with
      | nil =>
        rw [Chain.isClear, hclear] at hunclear
        cases hunclear
      | cons op p links =>
        rw [Links.marks] at hs₂
        obtain ⟨t, mid, rfl, ht, -⟩ := hs₂
        have hoperator := isOperator_of_shows ht
        exact ⟨_, t, mid, hoperator, (h.length.clear hclear).read (by omega) hs₁
          (notIndexed_cons rfl (hoperator.ne_of_not rfl))⟩

mutual

/-- What becomes of an operand. -/
theorem primary_reads : ∀ (p : Primary), p.isWritable → PrimaryReads p
  | .literal _, h => primaryReads_literal h
  | .index name position, h => by
    rw [Primary.isWritable, Bool.and_eq_true] at h
    exact (chain_reads position h.2).index name
  | .length e, h => (chain_reads e h).length
  | .enclosed e, h => (chain_reads e h).enclosed

/-- What becomes of a chain. -/
theorem chain_reads : ∀ (c : Chain), c.isWritable → ChainReads c
  | .mk (.length e) links, h => by
    rw [Chain.isWritable, Bool.and_eq_true] at h
    exact (chain_reads e h.1).length_chain links
  | .mk (.literal v) links, h => by
    rw [Chain.isWritable, Bool.and_eq_true] at h
    exact (links_read links h.2).chain (primaryReads_literal h.1) rfl
  | .mk (.index name position) links, h => by
    simp only [Chain.isWritable, Primary.isWritable, Bool.and_eq_true] at h
    exact (links_read links h.2).chain ((chain_reads position h.1.2).index name) rfl
  | .mk (.enclosed e) links, h => by
    rw [Chain.isWritable, Bool.and_eq_true] at h
    exact (links_read links h.2).chain (chain_reads e h.1).enclosed rfl

/-- What becomes of a chain after its first operand. -/
theorem links_read : ∀ (links : Links), links.areWritable → LinksRead links
  | .nil, _ => .nil
  | .cons op p links, h => by
    rw [Links.areWritable, Bool.and_eq_true] at h
    exact .cons op (primary_reads p h.1) (links_read links h.2)

end

/-- No more calls are needed than the bound allows. -/
theorem lt_of_enough (hs : Spells ms ts rest) (hfuel : enough ts ≤ fuel) :
    ms.length + 2 < fuel := by
  rw [enough, hs.length_eq] at hfuel
  omega

/-- The chains that are read to their end are the clear ones. -/
theorem expression_reads_iff {c : Chain} (h : c.isWritable) (hfuel : enough ts ≤ fuel)
    (hs : Spells c.marks ts rest) (hrest : Ended rest) :
    expression fuel ts = .ok c.tree rest ↔ c.isClear := by
  have hlt := lt_of_enough hs hfuel
  constructor
  · intro hread
    by_contra hunclear
    rw [Bool.not_eq_true] at hunclear
    have hstop := (chain_reads c h).unclear hunclear (by omega : _ < fuel) hs
    rcases hstop with ⟨_, _, -, hstop⟩ | ⟨_, t, _, ht, hstop⟩
    · rw [hread] at hstop
      cases hstop
    · rw [hread] at hstop
      cases hstop
      exact ht.not_ended hrest
  · intro hclear
    exact ((chain_reads c h).clear hclear).read (by omega) hs hrest

/-- Of a chain that starts with a length, the length is read and something is left over. -/
theorem expression_of_clear_length {e : Chain} {links : Links} (he : e.isWritable)
    (hclear : e.isClear) (hne : links ≠ .nil) (hfuel : enough ts ≤ fuel)
    (hs : Spells (Chain.mk (.length e) links).marks ts rest) :
    ∃ mid, Spells links.marks mid rest ∧ mid ≠ rest ∧
      expression fuel ts = .ok (.length e.tree) mid := by
  have hlt := lt_of_enough hs hfuel
  rw [Chain.marks] at hs hlt
  rw [List.length_append] at hlt
  obtain ⟨mid, hs₁, hs₂⟩ := spells_append.1 hs
  obtain ⟨fuel, rfl⟩ : ∃ f, fuel = f + 1 := ⟨fuel - 1, by omega⟩
  refine ⟨mid, hs₂, ?_, ?_⟩
  · rintro rfl
    have hpos := Links.marks_pos hne
    have hlength := hs₂.length_eq
    omega
  · rw [expression_of_length hs₁]
    exact ((chain_reads e he).length.clear hclear).read (by omega) hs₁
      (notIndexed_of_links hs₂ fun hnil => absurd hnil hne)

theorem expression_of_unclear_length {e : Chain} {links : Links} (he : e.isWritable)
    (hunclear : e.isClear = false) (hfuel : enough ts ≤ fuel)
    (hs : Spells (Chain.mk (.length e) links).marks ts rest) :
    RefusesAt IsOperator (expression fuel) ts := by
  have hlt := lt_of_enough hs hfuel
  rw [Chain.marks] at hs hlt
  rw [List.length_append] at hlt
  obtain ⟨mid, hs₁, -⟩ := spells_append.1 hs
  obtain ⟨fuel, rfl⟩ : ∃ f, fuel = f + 1 := ⟨fuel - 1, by omega⟩
  rw [RefusesAt, expression_of_length hs₁]
  exact (chain_reads e he).length.unclear hunclear (by omega) hs₁

end Grammar

open Phrase Grammar

/-- **An expression that starts with a length ends with it**, whatever follows.

From the tokens of a length, operators and operands, where there is one operator at least, the
length is read and the others are left over; if the chain in its parentheses is not clear, not even
that.  So the tokens never give the chain that they are the tokens of.  With parentheses around the
length they do, as soon as the chain in the length and the operands are clear, and only then. -/
theorem length_ends_expression (e : Chain) (links : Links) (he : e.isWritable)
    (hlinks : links.areWritable) (hne : links ≠ .nil) {fuel : Nat} {ts rest : List Token}
    (hfuel : enough ts ≤ fuel) (hs : Spells (Chain.mk (.length e) links).marks ts rest) :
    (e.isClear →
      ∃ mid, Spells links.marks mid rest ∧ expression fuel ts = .ok (.length e.tree) mid) ∧
    (e.isClear = false → RefusesAt IsOperator (expression fuel) ts) ∧
    expression fuel ts ≠ .ok (links.tree (.length e.tree)) rest ∧
    ∀ {ts' : List Token}, enough ts' ≤ fuel →
      Spells (Chain.mk (.enclosed (.mk (.length e) .nil)) links).marks ts' rest → Ended rest →
      (expression fuel ts' = .ok (links.tree (.length e.tree)) rest ↔
        e.isClear ∧ links.areClear) := by
  refine ⟨fun hclear => ?_, fun hunclear => ?_, fun hall => ?_, fun {ts'} hfuel' hs' hrest => ?_⟩
  · obtain ⟨mid, hmid, -, hread⟩ := expression_of_clear_length he hclear hne hfuel hs
    exact ⟨mid, hmid, hread⟩
  · exact expression_of_unclear_length he hunclear hfuel hs
  · cases hclear : e.isClear with
    | true =>
      obtain ⟨mid, -, hmid, hread⟩ := expression_of_clear_length he hclear hne hfuel hs
      rw [hread] at hall
      exact hmid (EStateM.Result.ok.inj hall).2
    | false =>
      obtain ⟨_, _, -, hread⟩ := expression_of_unclear_length he hclear hfuel hs
      rw [hread] at hall
      cases hall
  · have hwritable : (Chain.mk (.enclosed (.mk (.length e) .nil)) links).isWritable := by
      simp [Chain.isWritable, Primary.isWritable, Links.areWritable, he, hlinks]
    have hiff := expression_reads_iff hwritable hfuel' hs' hrest
    simpa [Chain.tree, Primary.tree, Links.tree, Chain.isClear, Primary.isClear] using hiff

/-- The length of `x`, less one. -/
def lengthLessOne : Chain :=
  .mk (.length (.mk (.literal (.name "x")) .nil))
    (.cons (.known .minus) (.literal (.int 1)) .nil)

/-- Its tokens as they stand in a text, and a colon. -/
def lengthLessOneTokens : List Token :=
  [⟨.lenWord, .text "len", 1, 0⟩, ⟨.lparen, .text "(", 1, 3⟩, ⟨.name, .text "x", 1, 4⟩,
    ⟨.rparen, .text ")", 1, 5⟩, ⟨.minus, .text "-", 1, 7⟩, ⟨.number, .int 1, 1, 9⟩,
    ⟨.colon, .text ":", 1, 10⟩]

theorem length_ends_expression_lessOne :
    Token.ofSource "len(x) - 1:" = .ok lengthLessOneTokens ∧
    ∃ mid, Spells [.sign .minus, .number 1, .sign .colon] mid [] ∧
      run expression lengthLessOneTokens = .ok (.length (.text "x")) mid := by
  refine ⟨by cbv, ?_⟩
  have hs : Spells lengthLessOne.marks lengthLessOneTokens [⟨.colon, .text ":", 1, 10⟩] :=
    ⟨_, _, rfl, rfl, _, _, rfl, rfl, _, _, rfl, ⟨rfl, rfl⟩, _, _, rfl, rfl, _, _, rfl, rfl,
      _, _, rfl, ⟨rfl, rfl⟩, rfl⟩
  obtain ⟨hread, -⟩ := length_ends_expression (.mk (.literal (.name "x")) .nil)
    (.cons (.known .minus) (.literal (.int 1)) .nil) (by decide) (by decide) (by simp) le_rfl hs
  obtain ⟨mid, hmid, hread⟩ := hread rfl
  have hcolon : Spells [.sign .colon] [⟨.colon, .text ":", 1, 10⟩] [] := ⟨_, _, rfl, rfl, rfl⟩
  exact ⟨mid, spells_append.2 ⟨_, hmid, hcolon⟩, hread⟩

/-- The chain is not what is read of its tokens: two of them are left in front of the colon. -/
theorem lengthLessOne_ne :
    run expression lengthLessOneTokens =
      .ok (.length (.text "x"))
        [⟨.minus, .text "-", 1, 7⟩, ⟨.number, .int 1, 1, 9⟩, ⟨.colon, .text ":", 1, 10⟩] ∧
    run expression lengthLessOneTokens ≠
      .ok lengthLessOne.tree [⟨.colon, .text ":", 1, 10⟩] := by
  have hread : run expression lengthLessOneTokens =
      .ok (.length (.text "x"))
        [⟨.minus, .text "-", 1, 7⟩, ⟨.number, .int 1, 1, 9⟩, ⟨.colon, .text ":", 1, 10⟩] := by
    cbv
  refine ⟨hread, fun h => ?_⟩
  rw [hread] at h
  cases h

end Retrace
