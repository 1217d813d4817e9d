import Retrace.Constant
import Retrace.Proofs.Residues

/-!
# Folding and evaluating constants

A constant expression is worked out twice: before the program runs it is folded, with numbers of any
size, and when the program runs it is evaluated, on words.  The two have little in common.  Folding
is exact and rounds quotients down; evaluating wraps the operands and the result of each operation
and rounds quotients toward zero.

Neither of the two is defined on numbers alone.  Folding takes a tree and gives a tree or a fault,
and evaluating is a step of a machine.  So constants are a type of their own (`Constant.Term`), with
a tree for each of them, and two functions into the integers by recursion on it; that folding and
evaluating give these numbers is shown once (`Term.fold_parts`, `Term.evaluate_tree`), and the
comparison is one of the two functions.

Without divisions they agree up to a multiple of the size of words.  A sum, a difference and a
product can be wrapped at any time, since wrapping is a homomorphism; so whatever is wrapped on the
way, the residue in the end is the same.  With divisions nothing like that holds, as the quotient of
two residues tells nothing of the quotient of the numbers.  There the condition is that all that
comes up fits into words, and then the two can only differ by the way they round.  A quotient is
rounded the same way in both if it comes out even, or if both operands have the same sign.

That every part is folded to what it is evaluated to is equivalent to this condition on every part.
For the whole expression it is not: a wrong part may be multiplied by zero.  So the equivalence is
stated of parts, and of the whole only the direction that does hold.

* `Constant.Term`: constant expressions, and `Term.tree`: the trees that they stand for.
* `Term.exact`, `Term.word`: what a constant is folded to and what it is evaluated to.
* `Term.wrap_word_eq`: without divisions the two have the same residue, since it makes no difference
  when a sum, a difference or a product is wrapped.
* `evaluates_to_residue`: so an operation is evaluated to the one word that agrees with what it is
  folded to.
* `Term.forall_word_eq_exact_iff`: with divisions the two are the same number, if everything fits
  into words and rounding either way makes no difference.
* `folds_as_evaluated_iff`: so the divisions of an expression decide whether it is folded to what it
  is evaluated to.
-/

set_option autoImplicit false

namespace Retrace

/-- The exact result of an operator on whole numbers, for the operators that have a whole one: the
others count as zero. -/
def Op.exact (op : Op) : Int → Int → Int :=
  (op.unrounded? <|> op.floored?).getD fun _ _ => 0

section

variable {op : Op} {f : Int → Int → Int}

/-- No operator is of both sorts. -/
theorem Op.floored?_of_unrounded (h : op.unrounded?.isSome) : op.floored? = none := by
  cases op with
  | plus | minus | times => rfl
  | _ => cases h

theorem Op.exact_of_unrounded (h : op.unrounded? = some f) : op.exact = f := by
  rw [exact, h]
  rfl

theorem Op.exact_of_floored (h : op.floored? = some f) : op.exact = f := by
  cases op <;> cases h <;> rfl

/-- Quotients and remainders of words are rounded down, as exact ones are, if and only if there is
nothing to round or the quotient is positive.  The exact result has to be a word; so the quotient
of the least word by minus one does not count. -/
theorem Op.onWords_eq_floored_iff_of_isWord (h : op.floored? = some f) {a b : Int}
    (ha : Word.IsWord a) (hb : Word.IsWord b) (hne : b ≠ 0) (hfits : Word.IsWord (f a b)) :
    op.onWords a b = f a b ↔ b ∣ a ∨ a.sign = b.sign := by
  cases op with
  | intDiv =>
    refine onWords_eq_floored_iff h ha hb hne ?_
    rintro ⟨rfl, rfl⟩
    cases h
    exact absurd hfits (by decide)
  | modulo =>
    cases h
    rw [onWords, Word.rem_of_isWord ha hb hne, Word.tmod_eq_fmod_iff hne]
  | _ => cases h

end

namespace Constant

/-! ## Operations on constants -/

section

variable {op : Op} {f : Int → Int → Int}

theorem evaluate_of_unrounded (h : op.unrounded? = some f) (a b : Int) :
    evaluate (.text op.tag) a b = .ok (.int (f a b)) := by
  cases op <;> cases h <;> rfl

/-- A quotient or a remainder that is folded is rounded down. -/
theorem evaluate_of_floored (h : op.floored? = some f) (a : Int) {b : Int} (hb : b ≠ 0) :
    evaluate (.text op.tag) a b = .ok (.int (f a b)) := by
  cases op with
  | intDiv =>
    cases h
    exact if_neg hb
  | modulo =>
    cases h
    exact if_neg hb
  | _ => cases h

/-- An operation is folded after its operands. -/
theorem fold_binary {left right : Tree} {a b : Int} (hleft : fold left = .ok (.int a))
    (hright : fold right = .ok (.int b)) (op : Op) :
    fold (.binary left op.tag right) = evaluate (.text op.tag) a b := by
  rw [Tree.binary, fold, hleft, hright]
  rfl

end

/-! ## Constant expressions -/

/-- A constant expression: a number, or an operation on two constant expressions. -/
inductive Term where
  | number (n : Int)
  | operation (left : Term) (op : Op) (right : Term)
deriving DecidableEq, Repr

namespace Term

/-- The tree of a constant expression. -/
def tree : Term → Tree
  | .number n => .int n
  | .operation left op right => .binary left.tree op.tag right.tree

/-- All operators of a constant expression. -/
def operators : Term → List Op
  | .number _ => []
  | .operation left op right => op :: (left.operators ++ right.operators)

/-- The expression itself, and all expressions inside of it. -/
def parts : Term → List Term
  | .number n => [.number n]
  | .operation left op right => .operation left op right :: (left.parts ++ right.parts)

/-- What the expression comes to with numbers of any size. -/
def exact : Term → Int
  | .number n => n
  | .operation left op right => op.exact left.exact right.exact

/-- What the expression comes to on words. -/
def word : Term → Int
  | .number n => n
  | .operation left op right => op.onWords left.word right.word

theorem self_mem_parts (e : Term) : e ∈ e.parts := by
  cases e <;> exact List.mem_cons_self ..

/-- A property of all parts: of the operation, and of the parts of its two operands. -/
theorem forall_parts_operation {P : Term → Prop} {left right : Term} {op : Op} :
    (∀ part ∈ (operation left op right).parts, P part) ↔
      P (operation left op right) ∧ (∀ part ∈ left.parts, P part) ∧
        ∀ part ∈ right.parts, P part := by
  simp only [parts, List.forall_mem_cons, List.forall_mem_append]

theorem forall_operators_operation {P : Op → Prop} {left right : Term} {op : Op} :
    (∀ o ∈ (operation left op right).operators, P o) ↔
      P op ∧ (∀ o ∈ left.operators, P o) ∧ ∀ o ∈ right.operators, P o := by
  simp only [operators, List.forall_mem_cons, List.forall_mem_append]

/-! ## Folding -/

/-- If the expression is a division, its divisor is not zero. -/
def Divides : Term → Prop
  | .number _ => True
  | .operation _ op right => op.floored?.isSome → right.exact ≠ 0

/-- A constant expression and all its parts are folded to their exact values, if all operators have
whole results and no divisor is zero. -/
theorem fold_parts {e : Term}
    (hops : ∀ op ∈ e.operators, op.unrounded?.isSome ∨ op.floored?.isSome)
    (hdivides : ∀ part ∈ e.parts, part.Divides) :
    ∀ part ∈ e.parts, fold part.tree = .ok (.int part.exact) := by
  induction e with
  | number n => simp [parts, tree, fold, exact, pure, Except.pure]
  | operation left op right ihl ihr =>
    obtain ⟨hop, hleft, hright⟩ := forall_operators_operation.1 hops
    obtain ⟨hhere, hinLeft, hinRight⟩ := forall_parts_operation.1 hdivides
    have hfoldLeft := ihl hleft hinLeft
    have hfoldRight := ihr hright hinRight
    refine forall_parts_operation.2 ⟨?_, hfoldLeft, hfoldRight⟩
    rw [tree, exact,
      fold_binary (hfoldLeft left left.self_mem_parts) (hfoldRight right right.self_mem_parts)]
    rcases hop with hop | hop
    · obtain ⟨f, hf⟩ := Option.isSome_iff_exists.1 hop
      rw [evaluate_of_unrounded hf, Op.exact_of_unrounded hf]
    · obtain ⟨f, hf⟩ := Option.isSome_iff_exists.1 hop
      rw [evaluate_of_floored hf _ (hhere hop), Op.exact_of_floored hf]

/-- Sums, differences and products divide by nothing. -/
theorem forall_divides_of_unrounded {e : Term}
    (hops : ∀ op ∈ e.operators, op.unrounded?.isSome) : ∀ part ∈ e.parts, part.Divides := by
  induction e with
  | number n => simp [parts, Divides]
  | operation left op right ihl ihr =>
    obtain ⟨hop, hleft, hright⟩ := forall_operators_operation.1 hops
    refine forall_parts_operation.2 ⟨fun hfloored => ?_, ihl hleft, ihr hright⟩
    rw [Op.floored?_of_unrounded hop] at hfloored
    cases hfloored

/-! ## Evaluating -/

/-- A constant expression is evaluated to its word.  Nothing else happens to the machine but that an
evaluation is counted for each part of the expression. -/
theorem evaluateWith_tree (force : Nat → Exec Value) (e : Term) (m : Machine) :
    Exec.evaluateWith force e.tree m =
      .ok (.int e.word) { m with evaluations := m.evaluations + e.parts.length } := by
  induction e generalizing m with
  | number n => rfl
  | operation left op right ihl ihr =>
    have hindex : (Tree.text op.tag).isText "index" = false := by cases op <;> rfl
    rw [tree, Tree.binary, Exec.evaluateWith, Exec.bind_of_ok (Exec.countEvaluation_apply m),
      Exec.bind_of_ok (ihl _), Exec.bind_of_ok (ihr _), hindex, if_neg Bool.false_ne_true,
      Exec.operate_of_ints, parts, word]
    simp only [List.length_cons, List.length_append]
    congr 2
    omega

theorem evaluate_tree (e : Term) (m : Machine) :
    Exec.evaluate e.tree m =
      .ok (.int e.word) { m with evaluations := m.evaluations + e.parts.length } :=
  evaluateWith_tree _ e m

/-! ## Without divisions -/

/-- Sums, differences and products may be wrapped at each operation or in the end. -/
theorem wrap_word_eq {e : Term} (hops : ∀ op ∈ e.operators, op.unrounded?.isSome) :
    Word.wrap e.word = Word.wrap e.exact ∧ (e.operators ≠ [] → e.word = Word.wrap e.exact) := by
  induction e with
  | number n => exact ⟨rfl, fun h => absurd rfl h⟩
  | operation left op right ihl ihr =>
    obtain ⟨hop, hleft, hright⟩ := forall_operators_operation.1 hops
    obtain ⟨f, hf⟩ := Option.isSome_iff_exists.1 hop
    have hword : (operation left op right).word = Word.wrap (operation left op right).exact := by
      rw [word, exact, Op.exact_of_unrounded hf]
      exact Op.onWords_eq_wrap_of_unrounded hf (ihl hleft).1 (ihr hright).1
    exact ⟨by rw [hword, Word.wrap_wrap], fun _ => hword⟩

/-! ## With divisions -/

/-- The exact result of an operation is a word, and if it is a division, so are its operands, and
its divisor is not zero. -/
def Fits : Term → Prop
  | .number _ => True
  | .operation left op right => Word.IsWord (op.exact left.exact right.exact) ∧
      (op.floored?.isSome →
        Word.IsWord left.exact ∧ Word.IsWord right.exact ∧ right.exact ≠ 0)

/-- If the expression is a division, there is nothing to round in it, or its operands have the same
sign. -/
def RoundsAlike : Term → Prop
  | .number _ => True
  | .operation left op right => op.floored?.isSome →
      right.exact ∣ left.exact ∨ left.exact.sign = right.exact.sign

instance : DecidablePred Fits
  | .number _ => inferInstanceAs (Decidable True)
  | .operation _ _ _ => inferInstanceAs (Decidable (_ ∧ (_ → _)))

instance : DecidablePred RoundsAlike
  | .number _ => inferInstanceAs (Decidable True)
  | .operation _ _ _ => inferInstanceAs (Decidable (_ → _))

theorem Fits.divides {e : Term} (h : e.Fits) : e.Divides := by
  cases e with
  | number n => trivial
  | operation left op right => exact fun hop => (h.2 hop).2.2

/-- An operation on operands that come to the same on words and exactly does so too, unless it is a
division that is rounded otherwise. -/
theorem word_eq_exact_operation_iff {left right : Term} {op : Op}
    (hop : op.unrounded?.isSome ∨ op.floored?.isSome) (hfits : (operation left op right).Fits)
    (hleft : left.word = left.exact) (hright : right.word = right.exact) :
    (operation left op right).word = (operation left op right).exact ↔
      (operation left op right).RoundsAlike := by
  obtain ⟨hword, hoperands⟩ := hfits
  rw [word, exact, hleft, hright, RoundsAlike]
  rcases hop with hop | hop
  · obtain ⟨f, hf⟩ := Option.isSome_iff_exists.1 hop
    rw [Op.exact_of_unrounded hf] at hword ⊢
    rw [Op.onWords_eq_wrap_of_unrounded hf rfl rfl, Word.wrap_of_isWord hword,
      Op.floored?_of_unrounded hop]
    simp
  · obtain ⟨f, hf⟩ := Option.isSome_iff_exists.1 hop
    obtain ⟨ha, hb, hne⟩ := hoperands hop
    rw [Op.exact_of_floored hf] at hword ⊢
    rw [Op.onWords_eq_floored_iff_of_isWord hf ha hb hne hword]
    exact ⟨fun h _ => h, fun h => h hop⟩

/-- All parts of an expression come to the same on words and exactly if and only if no division in
it is rounded otherwise. -/
theorem forall_word_eq_exact_iff {e : Term}
    (hops : ∀ op ∈ e.operators, op.unrounded?.isSome ∨ op.floored?.isSome)
    (hfits : ∀ part ∈ e.parts, part.Fits) :
    (∀ part ∈ e.parts, part.word = part.exact) ↔ ∀ part ∈ e.parts, part.RoundsAlike := by
  induction e with
  | number n => simp [parts, word, exact, RoundsAlike]
  | operation left op right ihl ihr =>
    obtain ⟨hop, hleft, hright⟩ := forall_operators_operation.1 hops
    obtain ⟨hhere, hinLeft, hinRight⟩ := forall_parts_operation.1 hfits
    rw [forall_parts_operation, forall_parts_operation, ← ihl hleft hinLeft, ← ihr hright hinRight]
    refine and_congr_left fun ⟨hl, hr⟩ => ?_
    exact word_eq_exact_operation_iff hop hhere (hl _ left.self_mem_parts)
      (hr _ right.self_mem_parts)

/-- The expression is folded to the number that every machine evaluates it to. -/
def FoldsAsEvaluated (e : Term) : Prop :=
  ∃ n, fold e.tree = .ok (.int n) ∧ ∀ m, ∃ m', Exec.evaluate e.tree m = .ok (.int n) m'

theorem foldsAsEvaluated_iff {e : Term} (hfold : fold e.tree = .ok (.int e.exact)) :
    e.FoldsAsEvaluated ↔ e.word = e.exact := by
  constructor
  · rintro ⟨n, hn, hevaluate⟩
    obtain ⟨m', hm'⟩ := hevaluate {}
    cases hfold.symm.trans hn
    have hvalue := (EStateM.Result.ok.inj ((evaluate_tree e {}).symm.trans hm')).1
    exact Value.int.inj hvalue
  · intro hsame
    exact ⟨e.exact, hfold, fun m => ⟨_, hsame ▸ evaluate_tree e m⟩⟩

end Term
end Constant

open Constant (Term)

/-- **Constants are evaluated modulo `2^32`.**  An expression is built from numbers of any size by
sums, differences and products, nested to any depth, with one operation at least.  Then it is folded
to a number, and on every machine it is evaluated to the only word that agrees with that number
modulo `2^32`. -/
theorem evaluates_to_residue (e : Term)
    (hops : ∀ op ∈ e.operators, op ∈ [Op.plus, Op.minus, Op.times]) (hsome : e.operators ≠ [])
    (m : Machine) :
    ∃ n w : Int, Constant.fold e.tree = .ok (.int n) ∧
      Exec.evaluate e.tree m =
        .ok (.int w) { m with evaluations := m.evaluations + e.parts.length } ∧
      (-2 ^ 31 ≤ w ∧ w < 2 ^ 31) ∧ w ≡ n [ZMOD 2 ^ 32] ∧
      ∀ k : Int, -2 ^ 31 ≤ k ∧ k < 2 ^ 31 → k ≡ n [ZMOD 2 ^ 32] → k = w := by
  have hunrounded : ∀ op ∈ e.operators, op.unrounded?.isSome := by
    intro op hop
    have hlisted := hops op hop
    simp only [List.mem_cons, List.not_mem_nil, or_false] at hlisted
    rcases hlisted with rfl | rfl | rfl <;> rfl
  have hdivides : ∀ part ∈ e.parts, part.Divides := Term.forall_divides_of_unrounded hunrounded
  have hword : e.word = Word.wrap e.exact := (Term.wrap_word_eq hunrounded).2 hsome
  obtain ⟨hrange, hresidue⟩ := Word.eq_wrap_iff.1 hword
  have hfold : Constant.fold e.tree = .ok (.int e.exact) :=
    Term.fold_parts (fun op hop => .inl (hunrounded op hop)) hdivides e e.self_mem_parts
  refine ⟨e.exact, e.word, hfold, Term.evaluate_tree e m, hrange, hresidue, fun k hk hkn => ?_⟩
  rw [hword]
  exact Word.eq_wrap_iff.2 ⟨hk, hkn⟩

/-- The product of `2^32 + 3` and `0 - 2^31` is folded to a number of 64 bits and evaluated to the
least word.  Both factors are wrapped before they are multiplied, and the product is wrapped
again. -/
theorem evaluates_to_residue_product :
    let e : Term := .operation (.number (2 ^ 32 + 3)) .times
      (.operation (.number 0) .minus (.number (2 ^ 31)))
    Constant.fold e.tree = .ok (.int (-(2 ^ 32 + 3) * 2 ^ 31)) ∧
      Exec.evaluate e.tree {} = .ok (.int (-2 ^ 31)) { evaluations := 5 } ∧
      (-2 ^ 31 : Int) ≡ -(2 ^ 32 + 3) * 2 ^ 31 [ZMOD 2 ^ 32] := by
  intro e
  obtain ⟨n, w, hfold, hevaluate, -, hresidue, -⟩ :=
    evaluates_to_residue e (by decide) (by decide) {}
  have hn : Constant.fold e.tree = .ok (.int (-(2 ^ 32 + 3) * 2 ^ 31)) := by cbv
  have hw : Exec.evaluate e.tree {} = .ok (.int (-2 ^ 31)) { evaluations := 5 } := by cbv
  cases hn.symm.trans hfold
  cases (EStateM.Result.ok.inj (hw.symm.trans hevaluate)).1
  exact ⟨hn, hw, hresidue⟩

/-- **Where constants are folded to what they are evaluated to.**  An expression is built from
numbers by sums, differences, products, whole quotients and remainders.  The exact results of all
operations are words, and so are the operands of divisions; no divisor is zero.  Then the expression
is folded to what it is evaluated to if in each division the divisor divides the dividend or both
have the same sign; and this is so if and only if all its parts are folded to what they are
evaluated to. -/
theorem folds_as_evaluated_iff (e : Term)
    (hops : ∀ op ∈ e.operators, op ∈ [Op.plus, Op.minus, Op.times, Op.intDiv, Op.modulo])
    (hfits : ∀ part ∈ e.parts, part.Fits) :
    ((∀ part ∈ e.parts, part.RoundsAlike) → e.FoldsAsEvaluated) ∧
      ((∀ part ∈ e.parts, part.FoldsAsEvaluated) ↔ ∀ part ∈ e.parts, part.RoundsAlike) := by
  have hwhole : ∀ op ∈ e.operators, op.unrounded?.isSome ∨ op.floored?.isSome := by
    intro op hop
    have hlisted := hops op hop
    simp only [List.mem_cons, List.not_mem_nil, or_false] at hlisted
    rcases hlisted with rfl | rfl | rfl | rfl | rfl
    exacts [.inl rfl, .inl rfl, .inl rfl, .inr rfl, .inr rfl]
  have hiff : (∀ part ∈ e.parts, part.FoldsAsEvaluated) ↔ ∀ part ∈ e.parts, part.RoundsAlike := by
    rw [← Term.forall_word_eq_exact_iff hwhole hfits]
    have hfold := Term.fold_parts hwhole fun part hpart => (hfits part hpart).divides
    exact forall₂_congr fun part hpart => Term.foldsAsEvaluated_iff (hfold part hpart)
  exact ⟨fun h => hiff.2 h e e.self_mem_parts, hiff⟩

/-- In `((2^32 - (2^32 + 7)) // (0 - 2)) % 2` two literals are no words, but their difference -7 is
one.  Its quotient by -2 is positive, so it is 3 either way, and leaves 1. -/
theorem folds_as_evaluated_iff_negatives :
    let e : Term := .operation (.operation
      (.operation (.number (2 ^ 32)) .minus (.number (2 ^ 32 + 7))) .intDiv
      (.operation (.number 0) .minus (.number 2))) .modulo (.number 2)
    (∀ part ∈ e.parts, part.Fits) ∧ (∀ part ∈ e.parts, part.RoundsAlike) ∧
      Constant.fold e.tree = .ok (.int 1) ∧ e.FoldsAsEvaluated := by
  intro e
  have hfits : ∀ part ∈ e.parts, part.Fits := by decide
  have hrounds : ∀ part ∈ e.parts, part.RoundsAlike := by decide
  exact ⟨hfits, hrounds, by cbv, (folds_as_evaluated_iff e (by decide) hfits).1 hrounds⟩

/-- `(0 - 7) // 2` is folded to -4 and evaluated to -3, although all its results are small and its
divisor is not zero. -/
theorem folded_quotient_differs :
    let e : Term := .operation (.operation (.number 0) .minus (.number 7)) .intDiv (.number 2)
    (∀ op ∈ e.operators, op ∈ [Op.plus, Op.minus, Op.times, Op.intDiv, Op.modulo]) ∧
      (∀ part ∈ e.parts, part.Fits) ∧ Constant.fold e.tree = .ok (.int (-4)) ∧
      Exec.evaluate e.tree {} = .ok (.int (-3)) { evaluations := 5 } := by
  intro e
  exact ⟨by decide, by decide, by cbv, by cbv⟩

end Retrace
