import Mathlib.Algebra.GroupWithZero.Divisibility
import Mathlib.Algebra.Order.Ring.Int
import Retrace.Proofs.Evaluating
import Retrace.Proofs.Scope

/-!
# Words and numbers

An operator on two whole numbers can be carried out in two ways: on words, which is what a machine
does, and on numbers of any size, which is what is done with operands of other sorts and with
constants.  Words are of limited range, and their quotients are rounded toward zero, those of
numbers down.  So the two ways need not come to the same, and this module says where they do.

There are many operators and few reasons.  A comparison gives a truth value on numbers and zero or
one on words, and agrees as soon as both operands are words.  A sum, a difference or a product is
exact on numbers and wrapped on words, and agrees if the exact result is a word.  A quotient or a
remainder is rounded in two ways, and agrees if rounding makes no difference.  A connective gives a
truth value on words and one of its operands on numbers, and agrees in whether the result counts as
true.  So operators are sorted by what they stand for, as partial functions from operators to
functions of numbers (`Op.relation?`, `Op.unrounded?`, `Op.floored?`), and each sort has one lemma
for numbers and one for words.

Rounding either way makes no difference exactly if the divisor divides the dividend or both have the
same sign.  This goes for the remainder, too, which is what the quotient leaves.  A divisor of zero
is left out, and so is the quotient of the least word by minus one, which is no word.

* `Word.IsWord`: the range of words, and `Word.wrap_eq_self_iff`: only in it a number stays what it
  is.  Quotients of words are words, with one exception (`Word.isWord_tdiv`).
* `Word.tdiv_eq_fdiv_iff`, `Word.tmod_eq_fmod_iff`: rounding either way makes no difference if there
  is nothing to round or if the quotient is positive.
* `Op.relation?`, `Op.unrounded?`, `Op.floored?`: what the operators stand for; one lemma each says
  that this is what they are on numbers, and one what they are on words.
* `words_match_numbers`: the operands on which the two ways come to the same.
-/

set_option autoImplicit false

namespace Retrace
namespace Word

/-! ## The range of words -/

/-- The number is a word. -/
def IsWord (n : Int) : Prop :=
  -2 ^ 31 ≤ n ∧ n < 2 ^ 31

instance (n : Int) : Decidable (IsWord n) :=
  inferInstanceAs (Decidable (_ ∧ _))

theorem isWord_wrap (n : Int) : IsWord (wrap n) := by
  have hlow := Int.le_bmod (x := n) (m := modulus) (by decide)
  have hhigh := Int.bmod_lt (x := n) (m := modulus) (by decide)
  have hmodulus : (modulus : Int) = 2 ^ 32 := rfl
  rw [IsWord, wrap]
  omega

theorem wrap_of_isWord {n : Int} (h : IsWord n) : wrap n = n := by
  obtain ⟨hlow, hhigh⟩ := h
  have hmodulus : (modulus : Int) = 2 ^ 32 := rfl
  exact Int.bmod_eq_of_le (by omega) (by omega)

/-- Words are the numbers that stay as they are. -/
theorem wrap_eq_self_iff {n : Int} : wrap n = n ↔ IsWord n :=
  ⟨fun h => h ▸ isWord_wrap n, wrap_of_isWord⟩

/-- The quotient of a word is a word, but for that of the least word by minus one. -/
theorem isWord_tdiv {a b : Int} (ha : IsWord a) (h : ¬(a = -2 ^ 31 ∧ b = -1)) :
    IsWord (a.tdiv b) := by
  obtain ⟨hlow, hhigh⟩ := ha
  rcases eq_or_ne b 0 with rfl | hb
  · rw [Int.tdiv_zero]
    decide
  rw [IsWord]
  by_cases hone : b.natAbs = 1
  · have hunit : b = 1 ∨ b = -1 := by omega
    rcases hunit with rfl | rfl
    · rw [Int.tdiv_one]
      exact ⟨hlow, hhigh⟩
    · rw [Int.tdiv_neg, Int.tdiv_one]
      omega
  · have hsize : (a.tdiv b).natAbs = a.natAbs / b.natAbs := Int.natAbs_tdiv a b
    have hhalf : a.natAbs / b.natAbs ≤ a.natAbs / 2 := Nat.div_le_div_left (by omega) (by decide)
    omega

theorem div_of_isWord {a b : Int} (ha : IsWord a) (hb : IsWord b) (h : ¬(a = -2 ^ 31 ∧ b = -1)) :
    div a b = a.tdiv b := by
  rw [div, wrap_of_isWord ha, wrap_of_isWord hb, wrap_of_isWord (isWord_tdiv ha h)]

theorem rem_of_isWord {a b : Int} (ha : IsWord a) (hb : IsWord b) (h : b ≠ 0) :
    rem a b = a.tmod b := by
  rw [rem, wrap_of_isWord ha, wrap_of_isWord hb, if_neg h]

/-! ## Rounding toward zero and rounding down -/

/-- Rounding toward zero is rounding down if the division leaves nothing or if the quotient is
positive. -/
theorem tdiv_eq_fdiv_iff {a b : Int} (hb : b ≠ 0) :
    a.tdiv b = a.fdiv b ↔ b ∣ a ∨ a.sign = b.sign := by
  rw [Int.tdiv_eq_fdiv]
  by_cases hdvd : b ∣ a
  · simp [hdvd]
  · have ha : a ≠ 0 := by
      rintro rfl
      exact hdvd (dvd_zero b)
    rcases lt_or_gt_of_ne ha with ha | ha <;> rcases lt_or_gt_of_ne hb with hb | hb <;>
      simp [hdvd, Int.sign_eq_neg_one_of_neg, Int.sign_eq_one_of_pos, ha, hb, ha.le, hb.le,
        ha.not_ge, hb.not_ge]

/-- Remainders are what quotients leave, so they agree where the quotients do. -/
theorem tmod_eq_fmod_iff {a b : Int} (hb : b ≠ 0) :
    a.tmod b = a.fmod b ↔ b ∣ a ∨ a.sign = b.sign := by
  rw [← tdiv_eq_fdiv_iff hb]
  have ht := Int.tmod_add_mul_tdiv a b
  have hf := Int.fmod_add_mul_fdiv a b
  constructor
  · intro h
    have hmul : b * a.tdiv b = b * a.fdiv b := by omega
    exact mul_left_cancel₀ hb hmul
  · intro h
    rw [h] at ht
    omega

end Word

namespace Op

/-! ## What operators stand for -/

/-- The relation between numbers that an operator stands for. -/
def relation? : Op → Option (Int → Int → Bool)
  | .eq => some fun a b => a = b
  | .neq => some fun a b => a ≠ b
  | .lt => some fun a b => a < b
  | .gt => some fun a b => b < a
  | .lte => some fun a b => a ≤ b
  | .gte => some fun a b => b ≤ a
  | _ => none

/-- The operation that an operator stands for, if there is nothing to round in it. -/
def unrounded? : Op → Option (Int → Int → Int)
  | .plus => some (· + ·)
  | .minus => some (· - ·)
  | .times => some (· * ·)
  | _ => none

/-- The operation that an operator stands for, if it is the quotient that is rounded down or the
remainder that belongs to it. -/
def floored? : Op → Option (Int → Int → Int)
  | .intDiv => some Int.fdiv
  | .modulo => some Int.fmod
  | _ => none

/-- Does the operator connect truth values? -/
def isConnective : Op → Bool
  | .and => true
  | .or => true
  | _ => false

variable {op : Op}

section Relation

variable {r : Int → Int → Bool} (h : op.relation? = some r)
include h

theorem accepts_compare (a b : Int) : op.accepts (compare a b) = r a b := by
  rcases lt_trichotomy a b with hab | rfl | hab
  · rw [compare_lt_iff_lt.2 hab]
    cases op <;> cases h <;> simp [accepts, hab, hab.ne, hab.le]
  · rw [compare_eq_iff_eq.2 rfl]
    cases op <;> cases h <;> simp [accepts]
  · rw [compare_gt_iff_gt.2 hab]
    cases op <;> cases h <;> simp [accepts, hab, hab.ne', hab.le]

theorem onValues_of_relation (l : Lists) (new : Nat) (a b : Int) :
    op.onValues l new (.int a) (.int b) = .ok (.bool (r a b)) := by
  have heq (o : Ordering) : (some o == some Ordering.eq) = o.isEq := by cases o <;> rfl
  have hne (o : Ordering) : (!some o == some Ordering.eq) = o.isNe := by cases o <;> rfl
  rw [← accepts_compare h a b]
  cases op with
  | eq => exact congrArg (fun p => Except.ok (Value.bool p)) (heq (compare a b))
  | neq => exact congrArg (fun p => Except.ok (Value.bool p)) (hne (compare a b))
  | lt | gt | lte | gte => rfl
  | _ => cases h

/-- A comparison of words is zero or one. -/
theorem onWords_of_relation (a b : Int) :
    op.onWords a b = Word.ofBool (r (Word.wrap a) (Word.wrap b)) := by
  rw [← accepts_compare h]
  cases op with
  | eq | neq | lt | gt | lte | gte => rfl
  | _ => cases h

end Relation

section Unrounded

variable {f : Int → Int → Int} (h : op.unrounded? = some f)
include h

theorem onValues_of_unrounded (l : Lists) (new : Nat) (a b : Int) :
    op.onValues l new (.int a) (.int b) = .ok (.int (f a b)) := by
  cases op <;> cases h <;> rfl

/-- On words the operands are wrapped, and so is the result. -/
theorem onWords_of_unrounded (a b : Int) :
    op.onWords a b = Word.wrap (f (Word.wrap a) (Word.wrap b)) := by
  cases op <;> cases h <;> rfl

end Unrounded

section Floored

variable {f : Int → Int → Int} (h : op.floored? = some f)
include h

/-- On numbers a quotient is rounded down. -/
theorem onValues_of_floored (l : Lists) (new : Nat) (a : Int) {b : Int} (hb : b ≠ 0) :
    op.onValues l new (.int a) (.int b) = .ok (.int (f a b)) := by
  cases op with
  | intDiv =>
    cases h
    show (do return Value.ofNumber (← Number.floorDiv (.whole a) (.whole b))) = _
    rw [Number.floorDiv, if_neg hb]
    rfl
  | modulo =>
    cases h
    show (do return Value.ofNumber (← Number.rem (.whole a) (.whole b))) = _
    rw [Number.rem, if_neg hb]
    rfl
  | _ => cases h

/-- On words both operators round toward zero. -/
theorem onWords_eq_floored_iff {a b : Int} (ha : Word.IsWord a) (hb : Word.IsWord b) (hne : b ≠ 0)
    (hleast : ¬(a = -2 ^ 31 ∧ b = -1)) :
    op.onWords a b = f a b ↔ b ∣ a ∨ a.sign = b.sign := by
  cases op with
  | intDiv =>
    cases h
    rw [onWords, Word.div_of_isWord ha hb hleast, Word.tdiv_eq_fdiv_iff hne]
  | modulo =>
    cases h
    rw [onWords, Word.rem_of_isWord ha hb hne, Word.tmod_eq_fmod_iff hne]
  | _ => cases h

end Floored

/-- The connectives give one of their operands on numbers and one or zero on words, of the same
truth. -/
theorem isTruthy_of_isConnective (h : op.isConnective = true) (l : Lists) (new : Nat) {a b : Int}
    (ha : Word.IsWord a) (hb : Word.IsWord b) :
    ∃ v, op.onValues l new (.int a) (.int b) = .ok v ∧
      l.isTruthy (.int (op.onWords a b)) = l.isTruthy v := by
  cases op with
  | and =>
    refine ⟨_, rfl, ?_⟩
    rw [onWords, Word.wrap_of_isWord ha, Word.wrap_of_isWord hb]
    by_cases h0 : a = 0 <;> by_cases h1 : b = 0 <;> simp [Lists.isTruthy, Word.ofBool, h0, h1]
  | or =>
    refine ⟨_, rfl, ?_⟩
    rw [onWords, Word.wrap_of_isWord ha, Word.wrap_of_isWord hb]
    by_cases h0 : a = 0 <;> by_cases h1 : b = 0 <;> simp [Lists.isTruthy, Word.ofBool, h0, h1]
  | _ => cases h

end Op

/-! ## Where both come to the same -/

/-- **Where words do what numbers do.**  A machine carries out an operator on two words.  On numbers
of the range of words

* the relations hold or fail alike on words and on numbers, and give one and zero on words;
* the connectives give results of the same truth;
* a sum, a difference and a product of words are exact if and only if the exact one is a word;
* if the second number is not zero, and the quotient is not that of the least word by minus one,
  then the whole quotient and the remainder are those of numbers if and only if the second number
  divides the first one or both have the same sign. -/
theorem words_match_numbers (force : Nat → Exec Value) (m : Machine) (new : Nat) {a b : Int}
    (ha : Word.IsWord a) (hb : Word.IsWord b) :
    (∀ op : Op, Exec.operate force (.text op.tag) (.int a) (.int b) m =
      .ok (.int (op.onWords a b)) m) ∧
    (∀ (op : Op) r, op.relation? = some r →
      op.onValues m.lists new (.int a) (.int b) = .ok (.bool (r a b)) ∧
      op.onWords a b = Word.ofBool (r a b)) ∧
    (∀ op : Op, op.isConnective = true →
      ∃ v, op.onValues m.lists new (.int a) (.int b) = .ok v ∧
        m.lists.isTruthy (.int (op.onWords a b)) = m.lists.isTruthy v) ∧
    (∀ (op : Op) f, op.unrounded? = some f →
      op.onValues m.lists new (.int a) (.int b) = .ok (.int (f a b)) ∧
      (op.onWords a b = f a b ↔ Word.IsWord (f a b))) ∧
    (b ≠ 0 → ¬(a = -2 ^ 31 ∧ b = -1) → ∀ (op : Op) f, op.floored? = some f →
      op.onValues m.lists new (.int a) (.int b) = .ok (.int (f a b)) ∧
      (op.onWords a b = f a b ↔ b ∣ a ∨ a.sign = b.sign)) := by
  refine ⟨fun op => ?_, fun op r h => ⟨Op.onValues_of_relation h _ _ a b, ?_⟩,
    fun op h => Op.isTruthy_of_isConnective h m.lists new ha hb,
    fun op f h => ⟨Op.onValues_of_unrounded h _ _ a b, ?_⟩, fun hne hleast op f h =>
    ⟨Op.onValues_of_floored h _ _ a hne, Op.onWords_eq_floored_iff h ha hb hne hleast⟩⟩
  · rw [Exec.operate, op.ofTree?_tag]
    show Exec.apply op (.int a) (.int b) m = _
    exact Exec.apply_of_words rfl rfl
  · rw [Op.onWords_of_relation h, Word.wrap_of_isWord ha, Word.wrap_of_isWord hb]
  · rw [Op.onWords_of_unrounded h, Word.wrap_of_isWord ha, Word.wrap_of_isWord hb,
      Word.wrap_eq_self_iff]

/-- The whole quotient of -7 by 2 is -3 on words and -4 on numbers: 2 does not divide -7, and the
signs differ.  The remainders differ with it, and the product is exact. -/
theorem words_match_numbers_seven : Word.IsWord (-7) ∧ Word.IsWord 2 ∧
    Op.intDiv.onWords (-7) 2 = -3 ∧ Op.modulo.onWords (-7) 2 = -1 ∧
    Op.intDiv.onWords (-7) 2 ≠ Int.fdiv (-7) 2 ∧ Op.modulo.onWords (-7) 2 ≠ Int.fmod (-7) 2 ∧
    Op.times.onWords (-7) 2 = -7 * 2 := by
  have ha : Word.IsWord (-7) := by decide
  have hb : Word.IsWord 2 := by decide
  obtain ⟨-, -, -, hunrounded, hfloored⟩ := words_match_numbers Exec.force {} 0 ha hb
  have hdiffer : ¬((2 : Int) ∣ -7 ∨ (-7 : Int).sign = (2 : Int).sign) := by decide
  have hfloor := hfloored (by decide) (by decide)
  refine ⟨ha, hb, by decide, by decide, fun h => hdiffer ?_, fun h => hdiffer ?_, ?_⟩
  · exact (hfloor .intDiv _ rfl).2.1 h
  · exact (hfloor .modulo _ rfl).2.1 h
  · exact (hunrounded .times _ rfl).2.2 (by decide)

end Retrace
