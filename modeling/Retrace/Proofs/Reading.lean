import Retrace.Proofs.Lexing
import Retrace.Proofs.Parsing
import Retrace.Run

/-!
# Reading written phrases back

The tokens of a written program are read as the tree of that program, and with what is known of
cutting text into tokens this means that writing loses nothing (`read_write`).

An expression reads on as long as operators follow, and a name looks for a bracket after it.  So
what follows a phrase matters here too: `NotIndexed` for a primary, `Ended` for an expression and
`Fresh` for a statement.  Each of these is a condition on the next token only, if there is one, and
each follows from the one for the larger phrase.

Operators have no precedence, and are applied from left to right.  So how an expression is written
depends on its place: at the left of an operator it needs no parentheses, at the right it does, and
on its own it may be a length in front of nothing else.  There are three ways to read it
accordingly, and they are proved of every expression together (`Reads`), since a part of an
expression may be in any of the three places.  At the left of an operator an expression is not read
by one parser: the operand is read, and then the chain goes on with what was read so far.  `IsChain`
says where this stands when the tokens of the expression are used up, with the bound that is left,
so that the chain can be continued with the next operator.

All parsers take a bound on the depth of their calls.  One call more than there are tokens, or two,
are enough for any phrase, so the bounds in this file are counted in tokens.

Further conditions of a choice are read from tokens in which their word is reserved.  In the tokens
of a text it is a name, so what is said of statements here has the mark for that word as a
parameter, and programs with further conditions are not among those that are read back from their
text.

* `value_reads`: literals.
* `Reads`: the three ways to read an expression, by its place; `reads`: all expressions.
* `statement_reads`: statements, with their blocks.
* `read_write`: whole programs.
-/

set_option autoImplicit false

namespace Retrace
namespace Grammar

open Phrase

variable {fuel : Nat} {t : Token} {ts rest : List Token}

/-! ## Literals -/

theorem Infix.operator?_kind (op : Infix) : op.kind.operator? = some op.tag := by
  cases op with
  | known op => exact op.operator?_kind
  | dot => rfl

/-- The kinds of tokens that a literal can start with. -/
def literalKinds : List Kind :=
  [.number, .trueWord, .falseWord, .name, .string, .lbracket]

theorem literal_marks_eq_cons (v : Literal) :
    ∃ m ms, v.marks = m :: ms ∧ m.kind ∈ literalKinds := by
  match v with
  | .int _ => exact ⟨_, _, rfl, by simp [Mark.kind, literalKinds]⟩
  | .bool true => exact ⟨_, _, rfl, by decide⟩
  | .bool false => exact ⟨_, _, rfl, by decide⟩
  | .name _ => exact ⟨_, _, rfl, by simp [Mark.kind, literalKinds]⟩
  | .string _ => exact ⟨_, _, rfl, by simp [Mark.kind, literalKinds]⟩
  | .list [] => exact ⟨_, _, rfl, by decide⟩
  | .list (_ :: _) => exact ⟨_, _, rfl, by decide⟩

theorem values_rbracket (ht : t.kind = .rbracket) : values (fuel + 1) (t :: ts) = .ok [] ts := by
  rw [values, bind_of_ok (current?_apply _)]
  simp only [List.head?_cons, ht]
  rfl

theorem value_lbracket {vs : List Tree} (ht : t.kind = .lbracket)
    (hvs : values fuel ts = .ok vs rest) : value (fuel + 1) (t :: ts) = .ok (.list vs) rest := by
  rw [value, bind_of_ok (current?_apply _)]
  simp only [List.head?_cons, ht]
  rw [bind_of_ok (advance_apply _), List.tail_cons, bind_of_ok hvs]
  rfl

/-- The literal is read from its tokens. -/
structure LiteralReads (v : Literal) : Prop where
  read {fuel : Nat} {ts rest : List Token} (hfuel : v.marks.length ≤ fuel)
    (hs : Spells v.marks ts rest) : value fuel ts = .ok v.tree rest

/-- A value of a list.  The comma after it is passed over. -/
theorem values_cons {v : Literal} {vs : List Tree} {mid : List Token} (hv : LiteralReads v)
    (hfuel : v.marks.length ≤ fuel) (hs : Spells v.marks ts (t :: mid))
    (hvs : values fuel (if t.kind == .comma then mid else t :: mid) = .ok vs rest) :
    values (fuel + 1) ts = .ok (v.tree :: vs) rest := by
  obtain ⟨m, ms, hm, hkind⟩ := literal_marks_eq_cons v
  have hs' := hs
  rw [hm] at hs'
  obtain ⟨u, us, rfl, hu, -⟩ := hs'
  have hne : (u.kind == .rbracket) = false := by
    rw [hu.kind_eq]
    generalize m.kind = k at hkind
    revert k
    decide
  rw [values, bind_of_ok (current?_apply _)]
  simp only [List.head?_cons, hne, Bool.false_eq_true, if_false]
  rw [bind_of_ok (hv.read hfuel hs), bind_of_ok (kind_cons t mid)]
  split at hvs
  · next hcomma =>
    rw [if_pos hcomma, bind_of_ok (advance_apply _), List.tail_cons, bind_of_ok hvs]
    rfl
  · next hcomma =>
    rw [if_neg hcomma, bind_of_ok hvs]
    rfl

/-- Numerals, names and literal texts stand for their content. -/
theorem value_of_content (ht : t.kind = .number ∨ t.kind = .name ∨ t.kind = .string) :
    value (fuel + 1) (t :: ts) = .ok t.content ts := by
  rw [value, bind_of_ok (current?_apply _), List.head?_cons]
  rcases ht with ht | ht | ht
  all_goals
    simp only [ht]
    exact take_cons ht ts

theorem value_of_truth {b : Bool} (ht : t.kind = if b then .trueWord else .falseWord) :
    value (fuel + 1) (t :: ts) = .ok (.bool b) ts := by
  rw [value, bind_of_ok (current?_apply _), List.head?_cons]
  cases b <;> simp only [ht] <;> rfl

mutual

/-- Every literal is read back. -/
theorem value_reads : ∀ (v : Literal), v.isWritable → LiteralReads v
  | .int n, h => by
    refine ⟨fun {fuel ts rest} hfuel hs => ?_⟩
    rw [Literal.isWritable, isNumeral, Bool.and_eq_true, decide_eq_true_eq] at h
    obtain ⟨fuel, rfl⟩ : ∃ f, fuel = f + 1 := ⟨fuel - 1, (Nat.sub_add_cancel hfuel).symm⟩
    obtain ⟨t, _, rfl, ht, rfl⟩ := hs
    rw [value_of_content (.inl ht.1), ht.2, Int.toNat_of_nonneg h.1]
    rfl
  | .bool b, _ => by
    refine ⟨fun {fuel ts rest} hfuel hs => ?_⟩
    obtain ⟨fuel, rfl⟩ : ∃ f, fuel = f + 1 := ⟨fuel - 1, (Nat.sub_add_cancel hfuel).symm⟩
    obtain ⟨t, _, rfl, ht, rfl⟩ := hs
    exact value_of_truth ht
  | .name s, _ => by
    refine ⟨fun {fuel ts rest} hfuel hs => ?_⟩
    obtain ⟨fuel, rfl⟩ : ∃ f, fuel = f + 1 := ⟨fuel - 1, (Nat.sub_add_cancel hfuel).symm⟩
    obtain ⟨t, _, rfl, ht, rfl⟩ := hs
    rw [value_of_content (.inr (.inl ht.1)), ht.2]
    rfl
  | .string s, _ => by
    refine ⟨fun {fuel ts rest} hfuel hs => ?_⟩
    obtain ⟨fuel, rfl⟩ : ∃ f, fuel = f + 1 := ⟨fuel - 1, (Nat.sub_add_cancel hfuel).symm⟩
    obtain ⟨t, _, rfl, ht, rfl⟩ := hs
    rw [value_of_content (.inr (.inr ht.1)), ht.2]
    rfl
  | .list [], _ => by
    refine ⟨fun {fuel ts rest} hfuel hs => ?_⟩
    obtain ⟨fuel, rfl⟩ : ∃ f, fuel = f + 2 := ⟨fuel - 2, (Nat.sub_add_cancel hfuel).symm⟩
    obtain ⟨t, _, rfl, ht, u, _, rfl, hu, rfl⟩ := hs
    exact value_lbracket ht (values_rbracket hu)
  | .list (v :: vs), h => by
    refine ⟨fun {fuel ts rest} hfuel hs => ?_⟩
    rw [Literal.isWritable, Literal.areWritable, Bool.and_eq_true] at h
    rw [Literal.marks, List.length_cons] at hfuel
    obtain ⟨fuel, rfl⟩ : ∃ f, fuel = f + 1 := ⟨fuel - 1, by omega⟩
    obtain ⟨t, ts, rfl, ht, hs⟩ := hs
    exact value_lbracket ht
      (values_read vs h.2 (value_reads v h.1) (Nat.le_of_succ_le_succ hfuel) hs)

/-- So are the items of a list, up to its bracket. -/
theorem values_read : ∀ (vs : List Literal), Literal.areWritable vs → ∀ {v : Literal},
    LiteralReads v → ∀ {fuel : Nat} {ts rest : List Token},
      (v.marks ++ Literal.marksRest vs ++ [Mark.sign .rbracket]).length ≤ fuel →
      Spells (v.marks ++ Literal.marksRest vs ++ [Mark.sign .rbracket]) ts rest →
      values fuel ts = .ok (v.tree :: Literal.trees vs) rest
  | [], _, v, hv, fuel, ts, rest, hfuel, hs => by
    simp only [Literal.marksRest, List.append_nil, List.length_append, List.length_singleton]
      at hfuel hs
    have hpos : 0 < v.marks.length := by
      obtain ⟨m, ms, hm, -⟩ := literal_marks_eq_cons v
      simp [hm]
    obtain ⟨fuel, rfl⟩ : ∃ f, fuel = f + 2 := ⟨fuel - 2, by omega⟩
    obtain ⟨_, hv', t, _, rfl, ht, rfl⟩ := spells_append.1 hs
    have ht' : t.kind = .rbracket := ht
    refine values_cons hv (by omega) hv' ?_
    rw [ht']
    exact values_rbracket ht'
  | w :: ws, h, v, hv, fuel, ts, rest, hfuel, hs => by
    rw [Literal.areWritable, Bool.and_eq_true] at h
    simp only [Literal.marksRest, List.append_assoc, List.cons_append, List.length_append,
      List.length_cons, List.length_nil] at hfuel hs
    obtain ⟨fuel, rfl⟩ : ∃ f, fuel = f + 1 := ⟨fuel - 1, by omega⟩
    obtain ⟨_, hv', t, mid, rfl, ht, hws⟩ := spells_append.1 hs
    refine values_cons hv (by omega) hv' ?_
    rw [show t.kind = .comma from ht, if_pos BEq.rfl]
    refine values_read ws h.2 (value_reads w h.1) ?_ (by simpa only [List.append_assoc] using hws)
    simp only [List.length_append, List.length_cons, List.length_nil]
    omega

end

/-! ## Expressions -/

/-- No bracket follows, so a name is not the name of a list with an item asked for. -/
def NotIndexed (rest : List Token) : Prop :=
  ∀ t ∈ rest.head?, t.kind ≠ .lbracket

/-- An expression ends here. -/
def Ended (rest : List Token) : Prop :=
  ∀ t ∈ rest.head?, t.kind.operator? = none ∧ t.kind ≠ .lbracket

/-- Where an expression ends, no bracket follows. -/
theorem Ended.notIndexed (h : Ended rest) : NotIndexed rest :=
  fun t ht => (h t ht).2

theorem forall_head_cons {P : Kind → Prop} {k : Kind} (ht : t.kind = k) (hk : P k) :
    ∀ u ∈ (t :: ts).head?, P u.kind := by
  intro u hu
  rw [List.head?_cons, Option.mem_some_iff] at hu
  rw [← hu, ht]
  exact hk

theorem notIndexed_cons {k : Kind} (ht : t.kind = k) (hk : k ≠ .lbracket) :
    NotIndexed (t :: ts) :=
  forall_head_cons (P := (· ≠ .lbracket)) ht hk

theorem ended_cons {k : Kind} (ht : t.kind = k) (hk : k.operator? = none ∧ k ≠ .lbracket) :
    Ended (t :: ts) :=
  forall_head_cons (P := fun k => k.operator? = none ∧ k ≠ .lbracket) ht hk

theorem sees_of_ne {k : Kind} (h : ∀ t ∈ ts.head?, t.kind ≠ k) : sees k ts = .ok false ts := by
  cases ts with
  | nil => rfl
  | cons t ts => rw [sees_cons, beq_false_of_ne (h t rfl)]

variable {ms ms' : List Mark} {tree tree' : Tree}

/-- The tokens are read as an operand on the right. -/
structure IsPrimary (ms : List Mark) (tree : Tree) : Prop where
  read {fuel : Nat} {ts rest : List Token} (hfuel : ms.length < fuel) (hs : Spells ms ts rest)
    (hrest : NotIndexed rest) : primary fuel ts = .ok tree rest

/-- The tokens are read as the start of a chain.  Each operator costs a part of the bound. -/
structure IsChain (ms : List Mark) (tree : Tree) : Prop where
  read {fuel : Nat} {ts rest : List Token} (hfuel : ms.length < fuel) (hs : Spells ms ts rest)
    (hrest : NotIndexed rest) :
    ∃ fuel', fuel ≤ fuel' + ms.length ∧ (primary fuel >>= chain fuel) ts = chain fuel' tree rest

/-- The tokens are read as an expression. -/
structure IsWhole (ms : List Mark) (tree : Tree) : Prop where
  read {fuel : Nat} {ts rest : List Token} (hfuel : ms.length + 1 < fuel) (hs : Spells ms ts rest)
    (hrest : Ended rest) : expression fuel ts = .ok tree rest

theorem chain_of_ended {left : Tree} (h : Ended ts) : chain (fuel + 1) left ts = .ok left ts := by
  rw [chain, bind_of_ok (current?_apply _)]
  cases ts with
  | nil => rfl
  | cons t ts =>
    simp only [List.head?_cons, Option.bind_some, (h t rfl).1]
    rfl

/-- A chain goes on with the next operand. -/
theorem chain_of_operator {left : Tree} {op : String} (ht : t.kind.operator? = some op) :
    chain (fuel + 1) left (t :: ts) =
      (primary fuel >>= fun right => chain fuel (.binary left op right)) ts := by
  rw [chain, bind_of_ok (current?_apply _)]
  simp only [List.head?_cons, Option.bind_some, ht]
  rfl

/-- Unless it starts with a length, an expression is a chain. -/
theorem expression_of_ne (ht : t.kind ≠ .lenWord) :
    expression (fuel + 1) (t :: ts) = (primary fuel >>= chain fuel) (t :: ts) := by
  rw [expression, bind_of_ok (kind_cons t ts)]
  generalize t.kind = k at ht ⊢
  cases k <;> first | rfl | exact absurd rfl ht

theorem primary_of_ne (ht : t.kind ≠ .lparen ∧ t.kind ≠ .lenWord ∧ t.kind ≠ .name) :
    primary (fuel + 1) (t :: ts) = value fuel (t :: ts) := by
  rw [primary, bind_of_ok (kind_cons t ts)]
  generalize t.kind = k at ht ⊢
  cases k <;> first
    | rfl
    | exact absurd rfl ht.1
    | exact absurd rfl ht.2.1
    | exact absurd rfl ht.2.2

/-- A primary is a chain by itself. -/
theorem IsPrimary.isChain (h : IsPrimary ms tree) : IsChain ms tree where
  read {fuel _ _} hfuel hs hrest :=
    ⟨fuel, Nat.le_add_right _ _, bind_of_ok (h.read hfuel hs hrest)⟩

/-- A chain goes on with an operator and its right operand. -/
theorem IsChain.binary (hl : IsChain ms tree) (op : Infix) (hr : IsPrimary ms' tree') :
    IsChain (ms ++ .sign op.kind :: ms') (.binary tree op.tag tree') where
  read {fuel ts rest} hfuel hs hrest := by
    rw [List.length_append, List.length_cons] at *
    obtain ⟨_, hl', t, mid, rfl, ht, hr'⟩ := spells_append.1 hs
    have hoperator : t.kind.operator? = some op.tag := by
      rw [show t.kind = op.kind from ht, Infix.operator?_kind]
    have hne : t.kind ≠ .lbracket := by
      intro h
      rw [h] at hoperator
      cases hoperator
    obtain ⟨fuel', hfuel', heq⟩ := hl.read (by omega : _ < fuel) hl' (notIndexed_cons rfl hne)
    obtain ⟨fuel', rfl⟩ : ∃ f, fuel' = f + 1 := ⟨fuel' - 1, by omega⟩
    refine ⟨fuel', by omega, ?_⟩
    rw [heq, chain_of_operator hoperator, bind_of_ok (hr.read (by omega) hr' hrest)]

/-- A chain that does not start with a length is an expression. -/
theorem IsChain.isWhole (h : IsChain ms tree) {m : Mark} {ms'' : List Mark} (hms : ms = m :: ms'')
    (hm : m.kind ≠ .lenWord) : IsWhole ms tree where
  read {fuel ts rest} hfuel hs hrest := by
    have hs' := hs
    rw [hms] at hs'
    obtain ⟨t, ts, rfl, ht, -⟩ := hs'
    obtain ⟨fuel, rfl⟩ : ∃ f, fuel = f + 1 := ⟨fuel - 1, by omega⟩
    obtain ⟨fuel', hfuel', heq⟩ := h.read (by omega : _ < fuel) hs hrest.notIndexed
    obtain ⟨fuel', rfl⟩ : ∃ f, fuel' = f + 1 := ⟨fuel' - 1, by omega⟩
    rw [expression_of_ne (by rw [ht.kind_eq]; exact hm), heq, chain_of_ended hrest]

/-- An expression and the bracket that closes it. -/
theorem IsWhole.close {α : Type} {k : Kind} (h : IsWhole ms tree) (hfuel : ms.length + 1 < fuel)
    (hs : Spells (ms ++ [.sign k]) ts rest) (hk : k.operator? = none ∧ k ≠ .lbracket)
    (f : Tree → Parse α) :
    (expression fuel >>= fun e => take k >>= fun _ => f e) ts = f tree rest := by
  obtain ⟨_, hs', t, _, rfl, ht, rfl⟩ := spells_append.1 hs
  rw [bind_of_ok (h.read hfuel hs' (ended_cons ht hk)), bind_of_ok (take_cons ht _)]

/-- In parentheses an expression is an operand. -/
theorem IsWhole.enclosed (h : IsWhole ms tree) :
    IsPrimary (.sign .lparen :: (ms ++ [.sign .rparen])) tree where
  read {fuel ts rest} hfuel hs _ := by
    rw [List.length_cons, List.length_append, List.length_singleton] at hfuel
    obtain ⟨fuel, rfl⟩ : ∃ f, fuel = f + 1 := ⟨fuel - 1, by omega⟩
    obtain ⟨t, ts, rfl, ht, hs⟩ := hs
    rw [primary, bind_of_ok (kind_cons t ts)]
    simp only [show t.kind = .lparen from ht]
    rw [bind_of_ok (advance_apply _)]
    exact h.close (by omega) hs (by decide) _

theorem IsWhole.length_isPrimary (h : IsWhole ms tree) :
    IsPrimary (.sign .lenWord :: .sign .lparen :: (ms ++ [.sign .rparen])) (.length tree) where
  read {fuel ts rest} hfuel hs _ := by
    simp only [List.length_cons, List.length_append, List.length_nil] at hfuel
    obtain ⟨fuel, rfl⟩ : ∃ f, fuel = f + 1 := ⟨fuel - 1, by omega⟩
    obtain ⟨t, _, rfl, ht, u, us, rfl, hu, hs⟩ := hs
    rw [primary, bind_of_ok (kind_cons t _)]
    simp only [show t.kind = .lenWord from ht]
    rw [bind_of_ok (advance_apply _), List.tail_cons, bind_of_ok (take_cons hu us)]
    exact h.close (by omega) hs (by decide) _

theorem IsWhole.length_isWhole (h : IsWhole ms tree) :
    IsWhole (.sign .lenWord :: .sign .lparen :: (ms ++ [.sign .rparen])) (.length tree) where
  read {fuel ts rest} hfuel hs _ := by
    simp only [List.length_cons, List.length_append, List.length_nil] at hfuel
    obtain ⟨fuel, rfl⟩ : ∃ f, fuel = f + 1 := ⟨fuel - 1, by omega⟩
    obtain ⟨t, _, rfl, ht, u, us, rfl, hu, hs⟩ := hs
    rw [expression, bind_of_ok (kind_cons t _)]
    simp only [show t.kind = .lenWord from ht]
    rw [bind_of_ok (advance_apply _), List.tail_cons, bind_of_ok (take_cons hu us)]
    exact h.close (by omega) hs (by decide) _

/-- A position in brackets behind a name. -/
theorem IsWhole.indexed (h : IsWhole ms tree) (name : String) :
    IsPrimary (.name name :: .sign .lbracket :: (ms ++ [.sign .rbracket]))
      (.index (.text name) tree) where
  read {fuel ts rest} hfuel hs _ := by
    simp only [List.length_cons, List.length_append, List.length_nil] at hfuel
    obtain ⟨fuel, rfl⟩ : ∃ f, fuel = f + 1 := ⟨fuel - 1, by omega⟩
    obtain ⟨t, _, rfl, ht, u, us, rfl, hu, hs⟩ := hs
    rw [primary, bind_of_ok (kind_cons t _)]
    simp only [ht.1]
    rw [bind_of_ok (take_cons ht.1 _), ht.2, bind_of_ok (sees_cons .lbracket u us),
      show u.kind = .lbracket from hu, if_pos BEq.rfl, bind_of_ok (advance_apply _)]
    exact h.close (by omega) hs (by decide) _

theorem isPrimary_name (s : String) : IsPrimary [.name s] (.text s) where
  read {fuel ts rest} hfuel hs hrest := by
    rw [List.length_singleton] at hfuel
    obtain ⟨fuel, rfl⟩ : ∃ f, fuel = f + 1 := ⟨fuel - 1, by omega⟩
    obtain ⟨t, _, rfl, ht, rfl⟩ := hs
    rw [primary, bind_of_ok (kind_cons t _)]
    simp only [ht.1]
    rw [bind_of_ok (take_cons ht.1 _), ht.2, bind_of_ok (sees_of_ne hrest)]
    rfl

/-- A literal that is no name is read as a value. -/
theorem isPrimary_value {v : Literal} (hv : v.isWritable) {m : Mark} (hms : v.marks = m :: ms)
    (hm : m.kind ≠ .lparen ∧ m.kind ≠ .lenWord ∧ m.kind ≠ .name) : IsPrimary v.marks v.tree where
  read {fuel ts rest} hfuel hs _ := by
    obtain ⟨fuel, rfl⟩ : ∃ f, fuel = f + 1 := ⟨fuel - 1, by omega⟩
    have hs' := hs
    rw [hms] at hs'
    obtain ⟨t, ts, rfl, ht, -⟩ := hs'
    rw [primary_of_ne (ht.kind_eq ▸ hm)]
    exact (value_reads v hv).read (Nat.le_of_lt_succ hfuel) hs

/-- A literal is an operand. -/
theorem isPrimary_literal (v : Literal) (h : v.isWritable) : IsPrimary v.marks v.tree := by
  cases v with
  | int _ => exact isPrimary_value h rfl (by simp [Mark.kind])
  | bool b => cases b <;> exact isPrimary_value h rfl (by decide)
  | name s => exact isPrimary_name s
  | string _ => exact isPrimary_value h rfl (by simp [Mark.kind])
  | list vs =>
    cases vs with
    | nil => exact isPrimary_value h rfl (by decide)
    | cons _ _ => exact isPrimary_value h rfl (by simp [Mark.kind])

/-- Neither an operand on the left nor a chain starts with a length. -/
theorem left_marks_eq_cons (e : Expression) :
    ∃ m ms, e.marks .left = m :: ms ∧ m.kind ≠ .lenWord := by
  induction e with
  | literal v =>
    obtain ⟨m, ms, hm, hkind⟩ := literal_marks_eq_cons v
    refine ⟨m, ms, hm, ?_⟩
    generalize m.kind = k at hkind
    revert k
    decide
  | binary l op r ihl _ =>
    obtain ⟨m, ms, hm, hkind⟩ := ihl
    exact ⟨m, _, by rw [Expression.marks, hm]; rfl, hkind⟩
  | index name position _ => exact ⟨_, _, rfl, by simp [Mark.kind]⟩
  | length e _ => exact ⟨_, _, rfl, by decide⟩

/-- The expression is read from its tokens in each of its places: as an operand on the right, at
the start of a chain, and by itself. -/
structure Reads (e : Expression) : Prop where
  primary : IsPrimary (e.marks .right) e.tree
  chain : IsChain (e.marks .left) e.tree
  whole : IsWhole (e.marks .whole) e.tree

/-- Every expression is read back in each of the three places. -/
theorem reads (e : Expression) (he : e.isWritable) : Reads e := by
  induction e with
  | literal v =>
    obtain ⟨m, ms, hms, hm⟩ := left_marks_eq_cons (.literal v)
    have hv := isPrimary_literal v he
    exact ⟨hv, hv.isChain, hv.isChain.isWhole hms hm⟩
  | binary l op r ihl ihr =>
    simp only [Expression.isWritable, Bool.and_eq_true, decide_eq_true_eq] at he
    obtain ⟨m, ms, hms, hm⟩ := left_marks_eq_cons (.binary l op r)
    have hchain := (ihl he.1.1).chain.binary op (ihr he.2).primary
    have hwhole := hchain.isWhole hms hm
    exact ⟨hwhole.enclosed, hchain, hwhole⟩
  | index name position ih =>
    rw [Expression.isWritable, Bool.and_eq_true] at he
    obtain ⟨m, ms, hms, hm⟩ := left_marks_eq_cons (.index name position)
    have hindex := (ih he.2).whole.indexed name
    exact ⟨hindex, hindex.isChain, hindex.isChain.isWhole hms hm⟩
  | length e ih =>
    have hwhole := (ih he).whole.length_isWhole
    exact ⟨(ih he).whole.length_isPrimary, hwhole.enclosed.isChain, hwhole⟩

/-! ## Statements without blocks -/

/-- The kinds of tokens that a statement can start with. -/
def startKinds : List Kind :=
  [.name, .revWord, .revtraceWord, .ifWord, .forWord, .whileWord, .printWord, .breakWord]

/-- The kinds of tokens that come after a statement. -/
def freshKinds : List Kind :=
  .dedent :: startKinds

/-- A statement ends here. -/
def Fresh (rest : List Token) : Prop :=
  ∀ t ∈ rest.head?, t.kind ∈ freshKinds

theorem Fresh.of_kinds {P : Kind → Prop} (h : Fresh rest) (hP : ∀ k ∈ freshKinds, P k) :
    ∀ t ∈ rest.head?, P t.kind :=
  fun t ht => hP t.kind (h t ht)

/-- Where a statement ends, an expression does. -/
theorem Fresh.ended (h : Fresh rest) : Ended rest :=
  h.of_kinds (P := fun k => k.operator? = none ∧ k ≠ .lbracket) (by decide)

/-- No line break follows a statement. -/
theorem Fresh.sees (h : Fresh rest) : sees .newline rest = .ok false rest :=
  sees_of_ne (h.of_kinds (P := (· ≠ .newline)) (by decide))

theorem fresh_cons {k : Kind} (ht : t.kind = k) (hk : k ∈ freshKinds) : Fresh (t :: ts) :=
  forall_head_cons (P := (· ∈ freshKinds)) ht hk

theorem assignment_reads {name : String} {e : Expression} (he : e.isWritable)
    (hfuel : (e.marks .whole).length + 1 < fuel)
    (hs : Spells (.name name :: .sign .assign :: e.marks .whole) ts rest) (hrest : Ended rest) :
    assignment fuel ts = .ok (.assign (.text name) e.tree) rest := by
  obtain ⟨t, _, rfl, ht, u, us, rfl, hu, hs⟩ := hs
  rw [assignment, bind_of_ok (take_cons ht.1 _), ht.2, bind_of_ok (kind_cons u us),
    show u.kind = .assign from hu, if_pos BEq.rfl, bind_of_ok (advance_apply _), List.tail_cons,
    bind_of_ok ((reads e he).whole.read hfuel hs hrest)]
  rfl

theorem compound_reads {op : Compound} {name : String} {e : Expression} (he : e.isWritable)
    (hfuel : (e.marks .whole).length + 1 < fuel)
    (hs : Spells (.name name :: .sign op.kind :: e.marks .whole) ts rest) (hrest : Ended rest) :
    assignment fuel ts = .ok (.compound op (.text name) e.tree) rest := by
  obtain ⟨t, _, rfl, ht, u, us, rfl, hu, hs⟩ := hs
  have hne : (op.kind == .assign) = false := by cases op <;> rfl
  rw [assignment, bind_of_ok (take_cons ht.1 _), ht.2, bind_of_ok (kind_cons u us),
    show u.kind = op.kind from hu, hne, if_neg (by decide)]
  simp only [op.compound?_kind]
  rw [bind_of_ok (advance_apply _), List.tail_cons,
    bind_of_ok ((reads e he).whole.read hfuel hs hrest)]
  rfl

theorem reverse_reads {name : String} (hs : Spells [.sign .revWord, .name name] ts rest) :
    reverse ts = .ok (.reverse (.text name)) rest := by
  obtain ⟨t, _, rfl, ht, u, _, rfl, hu, rfl⟩ := hs
  rw [reverse, bind_of_ok (take_cons ht _), bind_of_ok (take_cons hu.1 _), hu.2]
  rfl

theorem revtrace_reads {name : String} {e : Expression} (he : e.isWritable)
    (hfuel : (e.marks .whole).length + 1 < fuel)
    (hs : Spells (.sign .revtraceWord :: .name name :: e.marks .whole) ts rest)
    (hrest : Ended rest) : revtrace fuel ts = .ok (.revtrace (.text name) e.tree) rest := by
  obtain ⟨t, _, rfl, ht, u, us, rfl, hu, hs⟩ := hs
  rw [revtrace, bind_of_ok (take_cons ht _), bind_of_ok (take_cons hu.1 _), hu.2,
    bind_of_ok ((reads e he).whole.read hfuel hs hrest)]
  rfl

/-- What follows an argument: a comma, or the closing parenthesis. -/
theorem ended_of_arguments {es : List Expression}
    (hs : Spells (Expression.marksRest es ++ [.sign .rparen]) ts rest) : Ended ts := by
  cases es with
  | nil =>
    obtain ⟨t, _, rfl, ht, -⟩ := hs
    exact ended_cons ht (by decide)
  | cons e es =>
    obtain ⟨t, _, rfl, ht, -⟩ := hs
    exact ended_cons ht (by decide)

/-- Further expressions of a print, up to the parenthesis. -/
theorem arguments_read (es : List Expression) (hes : es.all Expression.isWritable)
    (hfuel : (Expression.marksRest es).length + 1 < fuel)
    (hs : Spells (Expression.marksRest es ++ [.sign .rparen]) ts rest) :
    ∃ t, t.kind = .rparen ∧ arguments fuel ts = .ok (Expression.trees es) (t :: rest) := by
  induction es generalizing fuel ts with
  | nil =>
    obtain ⟨fuel, rfl⟩ : ∃ f, fuel = f + 1 := ⟨fuel - 1, by omega⟩
    obtain ⟨t, _, rfl, ht, rfl⟩ := hs
    refine ⟨t, ht, ?_⟩
    rw [arguments, bind_of_ok (kind_cons t _), show t.kind = .rparen from ht]
    rfl
  | cons e es ih =>
    rw [List.all_cons, Bool.and_eq_true] at hes
    simp only [Expression.marksRest, List.cons_append, List.append_assoc, List.length_cons,
      List.length_append] at hfuel hs
    obtain ⟨fuel, rfl⟩ : ∃ f, fuel = f + 1 := ⟨fuel - 1, by omega⟩
    obtain ⟨t, ts, rfl, ht, hs⟩ := hs
    obtain ⟨mid, he, hs⟩ := spells_append.1 hs
    obtain ⟨u, hu, hrest⟩ := ih hes.2 (by omega : _ < fuel) hs
    refine ⟨u, hu, ?_⟩
    rw [arguments, bind_of_ok (kind_cons t _), show t.kind = .comma from ht, if_pos BEq.rfl,
      bind_of_ok (advance_apply _), List.tail_cons,
      bind_of_ok ((reads e hes.1).whole.read (by omega) he (ended_of_arguments hs)),
      bind_of_ok hrest]
    rfl

theorem print_reads {e : Expression} {es : List Expression} (he : e.isWritable)
    (hes : es.all Expression.isWritable)
    (hfuel : (e.marks .whole ++ Expression.marksRest es).length + 1 < fuel)
    (hs : Spells (.sign .printWord :: .sign .lparen ::
      (e.marks .whole ++ Expression.marksRest es ++ [.sign .rparen])) ts rest) :
    print fuel ts = .ok (.print (e.tree :: Expression.trees es)) rest := by
  rw [List.length_append] at hfuel
  rw [List.append_assoc] at hs
  obtain ⟨t, _, rfl, ht, u, us, rfl, hu, hs⟩ := hs
  obtain ⟨mid, hs', hs⟩ := spells_append.1 hs
  obtain ⟨v, hv, hrest⟩ := arguments_read es hes (by omega : _ < fuel) hs
  rw [print, bind_of_ok (take_cons ht _), bind_of_ok (take_cons hu _),
    bind_of_ok ((reads e he).whole.read (by omega) hs' (ended_of_arguments hs)), bind_of_ok hrest,
    bind_of_ok (take_cons hv _)]
  rfl

/-! ## Conditions and ranges -/

/-- A condition that a colon follows. -/
theorem condition_reads {e : Expression} (he : e.isWritable)
    (hfuel : (e.marks .whole).length + 1 < fuel) (hs : Spells (e.marks .whole) ts (t :: rest))
    (ht : t.kind = .colon) : condition fuel ts = .ok e.tree (t :: rest) := by
  obtain ⟨fuel, rfl⟩ : ∃ f, fuel = f + 1 := ⟨fuel - 1, by omega⟩
  have hended : Ended (t :: rest) := ended_cons ht (by decide)
  rw [condition, bind_of_ok ((reads e he).whole.read hfuel hs hended), conditionRest,
    bind_of_ok (current?_apply _)]
  simp only [List.head?_cons, Option.map_some, ht]
  rfl

theorem iterable_of_range (ht : t.kind = .rangeWord) :
    iterable fuel (t :: ts) = range fuel (t :: ts) := by
  rw [iterable, bind_of_ok (kind_cons t ts)]
  simp only [ht]

theorem upTo_reads {stop : Expression} (hstop : stop.isWritable)
    (hfuel : (Source.upTo stop).marks.length < fuel)
    (hs : Spells (Source.upTo stop).marks ts rest) :
    iterable fuel ts = .ok (Source.upTo stop).tree rest := by
  simp only [Source.marks, List.length_cons, List.length_append, List.length_nil] at hfuel
  obtain ⟨t, _, rfl, ht, u, us, rfl, hu, hs⟩ := hs
  obtain ⟨_, hs₁, v, _, rfl, hv, rfl⟩ := spells_append.1 hs
  have hv' : v.kind = .rparen := hv
  rw [iterable_of_range ht, range, bind_of_ok (take_cons ht _), bind_of_ok (take_cons hu _),
    bind_of_ok ((reads stop hstop).whole.read (by omega) hs₁ (ended_cons hv (by decide))),
    bind_of_ok (kind_cons v _), hv', if_neg (by decide), bind_of_ok (take_cons hv _)]
  rfl

theorem between_reads {start stop : Expression} (hstart : start.isWritable)
    (hstop : stop.isWritable) (hfuel : (Source.between start stop).marks.length < fuel)
    (hs : Spells (Source.between start stop).marks ts rest) :
    iterable fuel ts = .ok (Source.between start stop).tree rest := by
  simp only [Source.marks, List.length_cons, List.length_append, List.length_nil] at hfuel
  obtain ⟨t, _, rfl, ht, u, us, rfl, hu, hs⟩ := hs
  obtain ⟨_, hs₁, c, _, rfl, hc, hs⟩ := spells_append.1 hs
  obtain ⟨_, hs₂, v, _, rfl, hv, rfl⟩ := spells_append.1 hs
  have hv' : v.kind = .rparen := hv
  rw [iterable_of_range ht, range, bind_of_ok (take_cons ht _), bind_of_ok (take_cons hu _),
    bind_of_ok ((reads start hstart).whole.read (by omega) hs₁ (ended_cons hc (by decide))),
    bind_of_ok (kind_cons c _), show c.kind = .comma from hc, if_pos BEq.rfl,
    bind_of_ok (advance_apply _), List.tail_cons,
    bind_of_ok ((reads stop hstop).whole.read (by omega) hs₂ (ended_cons hv (by decide))),
    bind_of_ok (kind_cons v _), hv', if_neg (by decide), bind_of_ok (take_cons hv _)]
  rfl

theorem steps_read {start stop step : Expression} (hstart : start.isWritable)
    (hstop : stop.isWritable) (hstep : step.isWritable)
    (hfuel : (Source.steps start stop step).marks.length < fuel)
    (hs : Spells (Source.steps start stop step).marks ts rest) :
    iterable fuel ts = .ok (Source.steps start stop step).tree rest := by
  simp only [Source.marks, List.length_cons, List.length_append, List.length_nil] at hfuel
  obtain ⟨t, _, rfl, ht, u, us, rfl, hu, hs⟩ := hs
  obtain ⟨_, hs₁, c, _, rfl, hc, hs⟩ := spells_append.1 hs
  obtain ⟨_, hs₂, d, _, rfl, hd, hs⟩ := spells_append.1 hs
  obtain ⟨_, hs₃, v, _, rfl, hv, rfl⟩ := spells_append.1 hs
  rw [iterable_of_range ht, range, bind_of_ok (take_cons ht _), bind_of_ok (take_cons hu _),
    bind_of_ok ((reads start hstart).whole.read (by omega) hs₁ (ended_cons hc (by decide))),
    bind_of_ok (kind_cons c _), show c.kind = .comma from hc, if_pos BEq.rfl,
    bind_of_ok (advance_apply _), List.tail_cons,
    bind_of_ok ((reads stop hstop).whole.read (by omega) hs₂ (ended_cons hd (by decide))),
    bind_of_ok (kind_cons d _), show d.kind = .comma from hd, if_pos BEq.rfl,
    bind_of_ok (advance_apply _), List.tail_cons,
    bind_of_ok ((reads step hstep).whole.read (by omega) hs₃ (ended_cons hv (by decide))),
    bind_of_ok (take_cons hv _)]
  rfl

/-- Without a bracket or the word for a range in front, a loop goes through any expression. -/
theorem iterable_of_ne (ht : t.kind ≠ .lbracket ∧ t.kind ≠ .rangeWord) :
    iterable fuel (t :: ts) = expression fuel (t :: ts) := by
  rw [iterable, bind_of_ok (kind_cons t ts)]
  generalize t.kind = k at ht ⊢
  cases k <;> first | rfl | exact absurd rfl ht.1 | exact absurd rfl ht.2

theorem IsWhole.iterable {m : Mark} (h : IsWhole (m :: ms) tree)
    (hm : m.kind ≠ .lbracket ∧ m.kind ≠ .rangeWord) (hfuel : (m :: ms).length + 1 < fuel)
    (hs : Spells (m :: ms) ts rest) (hrest : Ended rest) :
    iterable fuel ts = .ok tree rest := by
  have hread := h.read hfuel hs hrest
  obtain ⟨t, ts, rfl, ht, -⟩ := hs
  rw [iterable_of_ne (ht.kind_eq ▸ hm), hread]

theorem iterable_of_list {vs : List Literal} (h : Literal.areWritable vs)
    (hfuel : (Literal.marks (.list vs)).length ≤ fuel)
    (hs : Spells (Literal.marks (.list vs)) ts rest) :
    iterable fuel ts = .ok (.list (Literal.trees vs)) rest := by
  have hread := (value_reads (.list vs) h).read hfuel hs
  obtain ⟨ms, hms⟩ : ∃ ms, Literal.marks (.list vs) = .sign .lbracket :: ms := by
    cases vs <;> exact ⟨_, rfl⟩
  rw [hms] at hs
  obtain ⟨t, ts, rfl, ht, -⟩ := hs
  rw [iterable, bind_of_ok (kind_cons t ts)]
  simp only [show t.kind = .lbracket from ht]
  exact hread

/-- An expression that a loop goes through is written like an operand on the right. -/
theorem items_read {e : Expression} (he : e.isWritable) (hfuel : (e.marks .right).length + 1 < fuel)
    (hs : Spells (e.marks .right) ts rest) (hrest : Ended rest) :
    iterable fuel ts = .ok e.tree rest := by
  have hwhole := (reads e he).whole
  match e with
  | .literal (.int _) => exact hwhole.iterable (by simp [Mark.kind]) hfuel hs hrest
  | .literal (.bool true) => exact hwhole.iterable (by decide) hfuel hs hrest
  | .literal (.bool false) => exact hwhole.iterable (by decide) hfuel hs hrest
  | .literal (.name _) => exact hwhole.iterable (by simp [Mark.kind]) hfuel hs hrest
  | .literal (.string _) => exact hwhole.iterable (by simp [Mark.kind]) hfuel hs hrest
  | .literal (.list vs) => exact iterable_of_list he (Nat.le_of_lt (Nat.lt_of_succ_lt hfuel)) hs
  | .binary l op r =>
    have henclosed := hwhole.enclosed.isChain.isWhole rfl (by decide)
    exact henclosed.iterable (by decide) hfuel hs hrest
  | .index _ _ => exact hwhole.iterable (by simp [Mark.kind]) hfuel hs hrest
  | .length _ => exact hwhole.iterable (by decide) hfuel hs hrest

/-- What a `for` loop goes through is read back. -/
theorem iterable_reads {source : Source} (h : source.isWritable)
    (hfuel : source.marks.length + 1 < fuel) (hs : Spells source.marks ts rest)
    (hrest : Ended rest) : iterable fuel ts = .ok source.tree rest := by
  cases source with
  | items e => exact items_read h hfuel hs hrest
  | upTo stop => exact upTo_reads h (by omega) hs
  | between start stop =>
    rw [Source.isWritable, Bool.and_eq_true] at h
    exact between_reads h.1 h.2 (by omega) hs
  | steps start stop step =>
    simp only [Source.isWritable, Bool.and_eq_true] at h
    exact steps_read h.1.1 h.1.2 h.2 (by omega) hs

/-! ## Blocks

The tokens in this section and the next are those of texts in which `elif` is a reserved word, as
the grammar has it. -/

theorem statement_marks_eq_cons (further : Mark) : ∀ (s : Statement), s.isSpellable →
    ∃ m ms, s.marksWith further = m :: ms ∧ m.kind ∈ startKinds
  | .assign _ _, _ => ⟨_, _, rfl, by simp [Mark.kind, startKinds]⟩
  | .compound _ _ _, _ => ⟨_, _, rfl, by simp [Mark.kind, startKinds]⟩
  | .reverse _, _ => ⟨_, _, rfl, by decide⟩
  | .revtrace _ _, _ => ⟨_, _, rfl, by decide⟩
  | .branch _ _ _ _, _ => ⟨_, _, rfl, by simp [Mark.kind, startKinds]⟩
  | .forLoop _ _ _, _ => ⟨_, _, rfl, by simp [Mark.kind, startKinds]⟩
  | .whileLoop _ _, _ => ⟨_, _, rfl, by simp [Mark.kind, startKinds]⟩
  | .print _ _, _ => ⟨_, _, rfl, by simp [Mark.kind, startKinds]⟩
  | .breakLoop, _ => ⟨_, _, rfl, by decide⟩
  | .literals _, h => by cases h

theorem statement_marks_pos (further : Mark) {s : Statement} (h : s.isSpellable) :
    0 < (s.marksWith further).length := by
  obtain ⟨m, ms, hm, -⟩ := statement_marks_eq_cons further s h
  simp [hm]

theorem fresh_of_statements {further : Mark} {ss : List Statement} (h : Statement.areSpellable ss)
    (hs : Spells (Statement.marksAllWith further ss) ts rest) (hrest : Fresh rest) : Fresh ts := by
  cases ss with
  | nil => exact (spells_nil.1 hs) ▸ hrest
  | cons s ss =>
    rw [Statement.areSpellable, Bool.and_eq_true] at h
    obtain ⟨m, ms, hm, hkind⟩ := statement_marks_eq_cons further s h.1
    rw [Statement.marksAllWith, hm] at hs
    obtain ⟨t, ts, rfl, ht, -⟩ := hs
    exact fresh_cons ht.kind_eq (List.mem_cons_of_mem _ hkind)

/-- The statements are read from their tokens, up to the end of their block. -/
structure BlockReads (further : Mark) (ss : List Statement) : Prop where
  read {fuel : Nat} {t : Token} {ts rest : List Token}
    (hfuel : (Statement.marksAllWith further ss).length + 1 < fuel)
    (hs : Spells (Statement.marksAllWith further ss) ts (t :: rest)) (ht : t.kind = .dedent) :
    statements [.dedent] fuel ts = .ok (Statement.trees ss) (t :: rest)

/-- The further conditions are read from their tokens, and no other one follows them. -/
structure ElifsRead (elifs : List Elif) : Prop where
  read {fuel : Nat} {ts rest : List Token}
    (hfuel : (Elif.marksAllWith (.sign .elifWord) elifs).length < fuel)
    (hs : Spells (Elif.marksAllWith (.sign .elifWord) elifs) ts rest)
    (hrest : ∀ t ∈ rest.head?, t.kind ≠ .elifWord) :
    elifBranches fuel ts = .ok (Elif.trees elifs) rest

/-- A statement of a block, and what follows it. -/
def statementsFrom (fuel : Nat) : Parse (List Tree) := do
  let first ← statement fuel
  if ← sees .newline then advance
  return first :: (← statements [.dedent] fuel)

theorem statements_of_start {u : Token} (hu : u.kind ∈ startKinds) :
    statements [.dedent] (fuel + 1) (u :: ts) = statementsFrom fuel (u :: ts) := by
  have hcontains : [Kind.dedent].contains u.kind = false := by
    generalize u.kind = k at hu
    revert k
    decide
  rw [statements, bind_of_ok (current?_apply _)]
  simp only [List.head?_cons, hcontains, Bool.false_eq_true, if_false]
  rfl

theorem statementsFrom_of_statement {mid : List Token} {tree : Tree}
    (hread : statement fuel ts = .ok tree mid) (hmid : sees .newline mid = .ok false mid) :
    statementsFrom fuel ts =
      (statements [.dedent] fuel >>= fun more => pure (tree :: more)) mid := by
  rw [statementsFrom, bind_of_ok hread, bind_of_ok hmid, if_neg (by decide)]

section Blocks

variable {further : Mark} {ss yes no : List Statement} {elifs : List Elif}

/-- An indented block. -/
theorem BlockReads.block (h : BlockReads further ss)
    (hfuel : (Statement.marksAllWith further ss).length + 2 < fuel)
    (hs : Spells (.sign .indent :: (Statement.marksAllWith further ss ++ .sign .dedent :: ms)) ts
      rest) :
    ∃ mid, block fuel ts = .ok (Statement.trees ss) mid ∧ Spells ms mid rest := by
  obtain ⟨fuel, rfl⟩ : ∃ f, fuel = f + 1 := ⟨fuel - 1, by omega⟩
  obtain ⟨i, is, rfl, hi, hs⟩ := hs
  obtain ⟨_, hs, d, mid, rfl, hd, hrest⟩ := spells_append.1 hs
  refine ⟨mid, ?_, hrest⟩
  rw [Grammar.block, bind_of_ok (kind_cons i is)]
  simp only [show i.kind = .indent from hi]
  rw [bind_of_ok (advance_apply _), List.tail_cons, bind_of_ok (h.read (by omega) hs hd),
    bind_of_ok (take_cons hd mid)]
  rfl

/-- No further condition follows. -/
theorem elifBranches_of_ne (h : ∀ t ∈ ts.head?, t.kind ≠ .elifWord) :
    elifBranches (fuel + 1) ts = .ok [] ts := by
  rw [elifBranches, bind_of_ok (sees_of_ne h)]
  rfl

theorem ElifsRead.nil : ElifsRead [] where
  read {fuel ts rest} hfuel hs hrest := by
    obtain ⟨fuel, rfl⟩ : ∃ f, fuel = f + 1 := ⟨fuel - 1, (Nat.sub_add_cancel hfuel).symm⟩
    rw [spells_nil.1 hs]
    exact elifBranches_of_ne hrest

/-- One further condition, and those after it. -/
theorem ElifsRead.cons {e : Expression} (he : e.isWritable)
    (hbody : BlockReads (.sign .elifWord) ss) (helifs : ElifsRead elifs) :
    ElifsRead (.mk e ss :: elifs) where
  read {fuel ts rest} hfuel hs hrest := by
    simp only [Elif.marksAllWith, Elif.marksWith, List.cons_append, List.append_assoc,
      List.length_cons, List.length_append, List.length_nil] at hfuel hs
    obtain ⟨fuel, rfl⟩ : ∃ f, fuel = f + 1 := ⟨fuel - 1, by omega⟩
    obtain ⟨t, ts, rfl, ht, hs⟩ := hs
    obtain ⟨_, hs₁, c, _, rfl, hc, hs⟩ := spells_append.1 hs
    obtain ⟨_, hblock, hs⟩ := hbody.block (by omega : _ < fuel) hs
    rw [elifBranches, bind_of_ok (sees_cons .elifWord t _), show t.kind = .elifWord from ht,
      if_pos BEq.rfl, bind_of_ok (advance_apply _), List.tail_cons,
      bind_of_ok ((reads e he).whole.read (by omega) hs₁ (ended_cons hc (by decide))),
      bind_of_ok (take_cons hc _), bind_of_ok hblock, bind_of_ok (helifs.read (by omega) hs hrest)]
    rfl

/-- What is read of a choice after its condition. -/
def branchRest (fuel : Nat) (test : Tree) : Parse Tree := do
  let yes ← block fuel
  let elifs ← elifBranches fuel
  if ← sees .elseWord then
    advance
    let _ ← take .colon
    return .branch test yes elifs (← block fuel)
  else return .branch test yes elifs []

theorem branch_of_condition {e : Expression} (he : e.isWritable)
    (hfuel : (e.marks .whole).length + 1 < fuel)
    (hs : Spells (.sign .ifWord :: (e.marks .whole ++ .sign .colon :: ms)) ts rest) :
    ∃ mid, branch (fuel + 1) ts = branchRest fuel e.tree mid ∧ Spells ms mid rest := by
  obtain ⟨t, ts, rfl, ht, hs⟩ := hs
  obtain ⟨_, hs, c, mid, rfl, hc, hrest⟩ := spells_append.1 hs
  refine ⟨mid, ?_, hrest⟩
  rw [branch, bind_of_ok (take_cons ht _), bind_of_ok (condition_reads he hfuel hs hc),
    bind_of_ok (take_cons hc _)]
  rfl

/-- A choice without a last block. -/
theorem branch_reads {e : Expression} (he : e.isWritable)
    (hyes : BlockReads (.sign .elifWord) yes) (helifs : ElifsRead elifs)
    (hfuel : ((Statement.branch e yes elifs []).marksWith (.sign .elifWord)).length ≤ fuel)
    (hs : Spells ((Statement.branch e yes elifs []).marksWith (.sign .elifWord)) ts rest)
    (hrest : Fresh rest) :
    branch fuel ts = .ok (Statement.branch e yes elifs []).tree rest := by
  simp only [Statement.marksWith, List.isEmpty_nil, if_true, List.append_nil, List.length_cons,
    List.length_append] at hfuel hs
  have helif := hrest.of_kinds (P := (· ≠ .elifWord)) (by decide)
  have helse := hrest.of_kinds (P := (· ≠ .elseWord)) (by decide)
  obtain ⟨fuel, rfl⟩ : ∃ f, fuel = f + 1 := ⟨fuel - 1, by omega⟩
  obtain ⟨_, hbranch, hs⟩ := branch_of_condition he (by omega : _ < fuel) hs
  obtain ⟨_, hblock, hs⟩ := hyes.block (by omega : _ < fuel) hs
  rw [hbranch, branchRest, bind_of_ok hblock, bind_of_ok (helifs.read (by omega) hs helif),
    bind_of_ok (sees_of_ne helse)]
  rfl

/-- A choice with a last block. -/
theorem branch_else_reads {e : Expression} (he : e.isWritable)
    (hyes : BlockReads (.sign .elifWord) yes) (helifs : ElifsRead elifs)
    (hno : BlockReads (.sign .elifWord) no) (hne : no.isEmpty = false)
    (hfuel : ((Statement.branch e yes elifs no).marksWith (.sign .elifWord)).length ≤ fuel)
    (hs : Spells ((Statement.branch e yes elifs no).marksWith (.sign .elifWord)) ts rest) :
    branch fuel ts = .ok (Statement.branch e yes elifs no).tree rest := by
  simp only [Statement.marksWith, hne, Bool.false_eq_true, if_false, List.length_cons,
    List.length_append, List.length_nil] at hfuel hs
  obtain ⟨fuel, rfl⟩ : ∃ f, fuel = f + 1 := ⟨fuel - 1, by omega⟩
  obtain ⟨_, hbranch, hs⟩ := branch_of_condition he (by omega : _ < fuel) hs
  obtain ⟨_, hblock, hs⟩ := hyes.block (by omega : _ < fuel) hs
  obtain ⟨_, hs₁, w, _, rfl, hw, c, _, rfl, hc, hs⟩ := spells_append.1 hs
  obtain ⟨_, hlast, rfl⟩ := hno.block (by omega : _ < fuel) hs
  have hread := helifs.read (by omega : _ < fuel) hs₁
    (forall_head_cons (P := (· ≠ .elifWord)) hw (by decide))
  rw [hbranch, branchRest, bind_of_ok hblock, bind_of_ok hread,
    bind_of_ok (sees_cons .elseWord w _), show w.kind = .elseWord from hw, if_pos BEq.rfl,
    bind_of_ok (advance_apply _), List.tail_cons, bind_of_ok (take_cons hc _), bind_of_ok hlast]
  rfl

theorem forLoop_reads {name : String} {source : Source} (hsource : source.isWritable)
    (hbody : BlockReads (.sign .elifWord) ss)
    (hfuel : ((Statement.forLoop name source ss).marksWith (.sign .elifWord)).length ≤ fuel)
    (hs : Spells ((Statement.forLoop name source ss).marksWith (.sign .elifWord)) ts rest) :
    forLoop fuel ts = .ok (Statement.forLoop name source ss).tree rest := by
  simp only [Statement.marksWith, List.length_cons, List.length_append, List.length_nil] at hfuel hs
  obtain ⟨fuel, rfl⟩ : ∃ f, fuel = f + 1 := ⟨fuel - 1, by omega⟩
  obtain ⟨t, _, rfl, ht, n, _, rfl, hn, w, _, rfl, hw, hs⟩ := hs
  obtain ⟨_, hs₁, c, _, rfl, hc, hs⟩ := spells_append.1 hs
  obtain ⟨_, hblock, rfl⟩ := hbody.block (by omega : _ < fuel) hs
  rw [forLoop, bind_of_ok (take_cons ht _), bind_of_ok (take_cons hn.1 _), hn.2,
    bind_of_ok (take_cons hw _),
    bind_of_ok (iterable_reads hsource (by omega) hs₁ (ended_cons hc (by decide))),
    bind_of_ok (take_cons hc _), bind_of_ok hblock]
  rfl

theorem whileLoop_reads {e : Expression} (he : e.isWritable)
    (hbody : BlockReads (.sign .elifWord) ss)
    (hfuel : ((Statement.whileLoop e ss).marksWith (.sign .elifWord)).length ≤ fuel)
    (hs : Spells ((Statement.whileLoop e ss).marksWith (.sign .elifWord)) ts rest) :
    whileLoop fuel ts = .ok (Statement.whileLoop e ss).tree rest := by
  simp only [Statement.marksWith, List.length_cons, List.length_append, List.length_nil] at hfuel hs
  obtain ⟨fuel, rfl⟩ : ∃ f, fuel = f + 1 := ⟨fuel - 1, by omega⟩
  obtain ⟨t, _, rfl, ht, hs⟩ := hs
  obtain ⟨_, hs₁, c, _, rfl, hc, hs⟩ := spells_append.1 hs
  obtain ⟨_, hblock, rfl⟩ := hbody.block (by omega : _ < fuel) hs
  rw [whileLoop, bind_of_ok (take_cons ht _),
    bind_of_ok ((reads e he).whole.read (by omega) hs₁ (ended_cons hc (by decide))),
    bind_of_ok (kind_cons c _)]
  simp only [show c.kind = .colon from hc]
  rw [bind_of_ok (advance_apply _), List.tail_cons, bind_of_ok hblock]
  rfl

end Blocks

theorem statement_of_if (ht : t.kind = .ifWord) :
    statement (fuel + 1) (t :: ts) = branch fuel (t :: ts) := by
  rw [statement, bind_of_ok (kind_cons t ts)]
  simp only [ht]

theorem statement_of_for (ht : t.kind = .forWord) :
    statement (fuel + 1) (t :: ts) = forLoop fuel (t :: ts) := by
  rw [statement, bind_of_ok (kind_cons t ts)]
  simp only [ht]

theorem statement_of_while (ht : t.kind = .whileWord) :
    statement (fuel + 1) (t :: ts) = whileLoop fuel (t :: ts) := by
  rw [statement, bind_of_ok (kind_cons t ts)]
  simp only [ht]

mutual

/-- Every statement is read back, if something follows that no statement goes on with. -/
theorem statement_reads : ∀ (s : Statement), s.isSpellable →
    ∀ {fuel : Nat} {ts rest : List Token}, (s.marksWith (.sign .elifWord)).length ≤ fuel →
      Spells (s.marksWith (.sign .elifWord)) ts rest → Fresh rest →
      statement (fuel + 1) ts = .ok s.tree rest
  | .assign name e, h, fuel, ts, rest, hfuel, hs, hrest => by
    simp only [Statement.isSpellable, Statement.isWritable, Bool.and_eq_true] at h
    simp only [Statement.marksWith, Statement.marks, List.length_cons] at hfuel
    have hread := assignment_reads h.2 (by omega : _ < fuel) hs hrest.ended
    obtain ⟨t, _, rfl, ht, u, us, rfl, hu, -⟩ := hs
    rw [statement, bind_of_ok (kind_cons t _)]
    simp only [ht.1]
    rw [bind_of_ok (nextKind_cons t u us), show u.kind = .assign from hu]
    exact hread
  | .compound op name e, h, fuel, ts, rest, hfuel, hs, hrest => by
    simp only [Statement.isSpellable, Statement.isWritable, Bool.and_eq_true] at h
    simp only [Statement.marksWith, Statement.marks, List.length_cons] at hfuel
    have hread := compound_reads h.2 (by omega : _ < fuel) hs hrest.ended
    obtain ⟨t, _, rfl, ht, u, us, rfl, hu, -⟩ := hs
    have hkind : op.kind.isAssignment := by cases op <;> rfl
    rw [statement, bind_of_ok (kind_cons t _)]
    simp only [ht.1]
    rw [bind_of_ok (nextKind_cons t u us), show u.kind = op.kind from hu, if_pos hkind]
    exact hread
  | .reverse name, _, fuel, ts, rest, _, hs, _ => by
    have hread := reverse_reads hs
    obtain ⟨t, _, rfl, ht, u, us, rfl, hu, -⟩ := hs
    rw [statement, bind_of_ok (kind_cons t _)]
    simp only [show t.kind = .revWord from ht]
    rw [bind_of_ok (nextKind_cons t u us), hu.1]
    exact hread
  | .revtrace name e, h, fuel, ts, rest, hfuel, hs, hrest => by
    simp only [Statement.isSpellable, Statement.isWritable, Bool.and_eq_true] at h
    simp only [Statement.marksWith, Statement.marks, List.length_cons] at hfuel
    have hread := revtrace_reads h.2 (by omega : _ < fuel) hs hrest.ended
    obtain ⟨t, _, rfl, ht, -⟩ := hs
    rw [statement, bind_of_ok (kind_cons t _)]
    simp only [show t.kind = .revtraceWord from ht]
    exact hread
  | .branch e yes elifs no, h, fuel, ts, rest, hfuel, hs, hrest => by
    simp only [Statement.isSpellable, Bool.and_eq_true] at h
    obtain ⟨⟨⟨⟨he, -⟩, hyes⟩, helifs⟩, hno⟩ := h
    have hread : branch fuel ts = .ok (Statement.branch e yes elifs no).tree rest := by
      cases hempty : no.isEmpty with
      | true =>
        rw [List.isEmpty_iff] at hempty
        subst hempty
        exact branch_reads he (blockReads yes hyes) (elifsRead elifs helifs) hfuel hs hrest
      | false =>
        exact branch_else_reads he (blockReads yes hyes) (elifsRead elifs helifs)
          (blockReads no hno) hempty hfuel hs
    obtain ⟨t, _, rfl, ht, -⟩ := hs
    rw [statement_of_if ht, hread]
  | .forLoop name source body, h, fuel, ts, rest, hfuel, hs, _ => by
    simp only [Statement.isSpellable, Bool.and_eq_true] at h
    have hread := forLoop_reads h.1.1.2 (blockReads body h.2) hfuel hs
    obtain ⟨t, _, rfl, ht, -⟩ := hs
    rw [statement_of_for ht, hread]
  | .whileLoop e body, h, fuel, ts, rest, hfuel, hs, _ => by
    simp only [Statement.isSpellable, Bool.and_eq_true] at h
    have hread := whileLoop_reads h.1.1 (blockReads body h.2) hfuel hs
    obtain ⟨t, _, rfl, ht, -⟩ := hs
    rw [statement_of_while ht, hread]
  | .print e es, h, fuel, ts, rest, hfuel, hs, _ => by
    simp only [Statement.isSpellable, Statement.isWritable, Bool.and_eq_true] at h
    simp only [Statement.marksWith, Statement.marks, List.length_cons, List.length_append,
      List.length_nil] at hfuel
    have hread := print_reads h.1 h.2 (by rw [List.length_append]; omega : _ < fuel) hs
    obtain ⟨t, _, rfl, ht, -⟩ := hs
    rw [statement, bind_of_ok (kind_cons t _)]
    simp only [show t.kind = .printWord from ht]
    exact hread
  | .breakLoop, _, fuel, _, rest, _, ⟨t, _, rfl, ht, rfl⟩, _ => by
    rw [statement, bind_of_ok (kind_cons t _)]
    simp only [show t.kind = .breakWord from ht]
    rw [breakLoop, bind_of_ok (take_cons ht _)]
    rfl
  | .literals _, h, _, _, _, _, _, _ => by cases h

theorem elifsRead : ∀ (elifs : List Elif), Elif.areSpellable elifs → ElifsRead elifs
  | [], _ => .nil
  | .mk e body :: elifs, h => by
    simp only [Elif.areSpellable, Elif.isSpellable, Bool.and_eq_true] at h
    exact .cons h.1.1.1 (blockReads body h.1.2) (elifsRead elifs h.2)

/-- So is every block. -/
theorem blockReads : ∀ (ss : List Statement), Statement.areSpellable ss →
    BlockReads (.sign .elifWord) ss
  | [], _ => by
    refine ⟨fun {fuel t ts rest} hfuel hs ht => ?_⟩
    obtain ⟨fuel, rfl⟩ : ∃ f, fuel = f + 1 := ⟨fuel - 1, by omega⟩
    rw [spells_nil.1 hs, statements, bind_of_ok (current?_apply _)]
    simp only [List.head?_cons, ht]
    rfl
  | s :: ss, h => by
    refine ⟨fun {fuel t ts rest} hfuel hs ht => ?_⟩
    rw [Statement.areSpellable, Bool.and_eq_true] at h
    rw [Statement.marksAllWith, List.length_append] at hfuel
    obtain ⟨mid, hs₁, hs₂⟩ := spells_append.1 hs
    have hfresh : Fresh mid := fresh_of_statements h.2 hs₂ (fresh_cons ht (by decide))
    obtain ⟨m, ms, hm, hkind⟩ := statement_marks_eq_cons (.sign .elifWord) s h.1
    obtain ⟨fuel, rfl⟩ : ∃ f, fuel = f + 2 := ⟨fuel - 2, by omega⟩
    have hread := statement_reads s h.1 (by omega : _ ≤ fuel) hs₁ hfresh
    rw [hm] at hs₁ hfuel
    rw [List.length_cons] at hfuel
    obtain ⟨u, us, rfl, hu, -⟩ := hs₁
    rw [statements_of_start (hu.kind_eq ▸ hkind), statementsFrom_of_statement hread hfresh.sees,
      bind_of_ok ((blockReads ss h.2).read (by omega) hs₂ ht)]
    rfl

end

/-! ## Programs -/

/-- A statement of a program and the rest of the program. -/
def statementThen (fuel : Nat) : Parse (List Tree) := do
  let first ← statement (fuel + 1)
  return first :: (← program fuel)

theorem program_of_word
    (ht : t.kind ∈ [Kind.revtraceWord, .ifWord, .forWord, .whileWord, .printWord]) :
    program (fuel + 1) (t :: ts) = statementThen fuel (t :: ts) := by
  rw [program, statementThen, statement, bind_of_ok (current?_apply _), bind_assoc,
    bind_of_ok (kind_cons t ts), List.head?_cons]
  simp only [List.mem_cons, List.not_mem_nil, or_false] at ht
  rcases ht with ht | ht | ht | ht | ht <;> simp only [ht]

theorem program_of_rev {u : Token} (ht : t.kind = .revWord) (hu : u.kind = .name) :
    program (fuel + 1) (t :: u :: ts) = statementThen fuel (t :: u :: ts) := by
  rw [program, statementThen, statement, bind_of_ok (current?_apply _), bind_assoc,
    bind_of_ok (kind_cons t _), List.head?_cons]
  simp only [ht]
  rw [bind_assoc, bind_of_ok (nextKind_cons t u ts), hu]
  rfl

theorem program_of_name {u : Token} (ht : t.kind = .name) (hu : u.kind.isAssignment) :
    program (fuel + 1) (t :: u :: ts) = statementThen fuel (t :: u :: ts) := by
  rw [program, statementThen, statement, bind_of_ok (current?_apply _), bind_assoc,
    bind_of_ok (kind_cons t _), List.head?_cons]
  simp only [ht]
  rw [bind_assoc, bind_of_ok (nextKind_cons t u ts), bind_of_ok (nextKind_cons t u ts), if_pos hu,
    if_pos hu]

/-- In a program a statement is read as in a block, unless it breaks off a loop. -/
theorem program_of_statement {further : Mark} {s : Statement} (h : s.isSpellable)
    (hbreak : s ≠ .breakLoop) (hs : Spells (s.marksWith further) ts rest) :
    program (fuel + 1) ts = statementThen fuel ts := by
  cases s with
  | assign name e =>
    obtain ⟨t, _, rfl, ht, u, us, rfl, hu, -⟩ := hs
    exact program_of_name ht.1 (by rw [show u.kind = .assign from hu]; rfl)
  | compound op name e =>
    obtain ⟨t, _, rfl, ht, u, us, rfl, hu, -⟩ := hs
    exact program_of_name ht.1 (by rw [show u.kind = op.kind from hu]; cases op <;> rfl)
  | reverse name =>
    obtain ⟨t, _, rfl, ht, u, us, rfl, hu, -⟩ := hs
    exact program_of_rev ht hu.1
  | breakLoop => exact absurd rfl hbreak
  | literals items => cases h
  | _ =>
    obtain ⟨t, _, rfl, ht, -⟩ := hs
    refine program_of_word ?_
    rw [show t.kind = _ from ht]
    decide

theorem ne_breakLoop {s : Statement} (h : !(s matches .breakLoop)) : s ≠ .breakLoop := by
  rintro rfl
  cases h

theorem program_reads_spellable (ss : List Statement) (h : Statement.areSpellable ss)
    (hbreak : ss.all fun s => !(s matches .breakLoop))
    (hfuel : (Statement.marksAllWith (.sign .elifWord) ss).length < fuel)
    (hs : Spells (Statement.marksAllWith (.sign .elifWord) ss) ts []) :
    program fuel ts = .ok (Statement.trees ss) [] := by
  induction ss generalizing fuel ts with
  | nil =>
    obtain ⟨fuel, rfl⟩ : ∃ f, fuel = f + 1 := ⟨fuel - 1, by omega⟩
    rw [spells_nil.1 hs, program]
    rfl
  | cons s ss ih =>
    rw [Statement.areSpellable, Bool.and_eq_true] at h
    rw [List.all_cons, Bool.and_eq_true] at hbreak
    rw [Statement.marksAllWith, List.length_append] at hfuel
    obtain ⟨mid, hs₁, hs₂⟩ := spells_append.1 hs
    have hfresh : Fresh mid := fresh_of_statements h.2 hs₂ (fun t ht => by cases ht)
    have hpos := statement_marks_pos (.sign .elifWord) h.1
    obtain ⟨fuel, rfl⟩ : ∃ f, fuel = f + 1 := ⟨fuel - 1, by omega⟩
    rw [program_of_statement h.1 (ne_breakLoop hbreak.1) hs₁, statementThen,
      bind_of_ok (statement_reads s h.1 (by omega) hs₁ hfresh),
      bind_of_ok (ih h.2 hbreak.2 (by omega) hs₂)]
    rfl

/-- So is every program. -/
theorem program_reads (ss : List Statement) (h : isWritableProgram ss)
    (hfuel : (Statement.marksAll ss).length < fuel) (hs : Spells (Statement.marksAll ss) ts []) :
    program fuel ts = .ok (Statement.trees ss) [] := by
  rw [isWritableProgram, Statement.areWritable_eq, Bool.and_eq_true, Bool.and_eq_true,
    Bool.not_eq_true'] at h
  rw [← Statement.marksAllWith_eq (.sign .elifWord) ss h.1.2] at hfuel hs
  exact program_reads_spellable ss h.1.1 h.2 hfuel hs

end Grammar

open Phrase

/-- **Writing loses nothing**: a program that can be written is read back from its text. -/
theorem read_write (program : List Statement) (h : isWritableProgram program) :
    Run.read (Statement.writeAll 0 program) = .ok (Statement.trees program) := by
  have hstatements : Statement.areWritable program := by
    rw [isWritableProgram, Bool.and_eq_true] at h
    exact h.1
  obtain ⟨ts, hts, hspells⟩ := ofSource_program hstatements
  have hfuel : (Statement.marksAll program).length < Grammar.enough ts := by
    have hlength := hspells.length_eq
    rw [Grammar.enough]
    omega
  have hparse : Grammar.parse ts = .ok (Statement.trees program) := by
    rw [Grammar.parse, Grammar.run, Grammar.program_reads program h hfuel hspells]
  rw [Run.read, hts]
  simp only [hparse]
  rfl

/-- A loop with a choice in it, and a statement after both. -/
def nested : List Statement :=
  [.forLoop "i" (.upTo (.literal (.int 12)))
    [.branch (.binary (.length (.literal (.name "x"))) (.known .gt)
        (.binary (.literal (.name "i")) (.known .plus) (.literal (.int 1))))
      [.print (.index "x" (.literal (.name "i"))) [.literal (.string "\"!\"")]] []
      [.compound .plus "x" (.literal (.list [.int 7, .list []])), .breakLoop]],
   .reverse "x"]

/-- A program with a choice in a loop, and its text. -/
theorem read_write_nested :
    Statement.writeAll 0 nested =
      "for i in range(12):\n    if (len(x)) > (i + 1):\n        print(x[i], \"!\")\n" ++
      "    else:\n        x += [7, []]\n        break\nrev x\n" ∧
    Run.read (Statement.writeAll 0 nested) = .ok (Statement.trees nested) :=
  ⟨by decide, read_write nested (by decide)⟩

end Retrace
