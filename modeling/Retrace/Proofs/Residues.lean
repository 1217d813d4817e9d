import Mathlib.Data.Int.ModEq
import Retrace.Proofs.Library
import Retrace.Proofs.Words

/-!
# Words as residues

There is one word for each residue modulo `2^32`, and a number is wrapped to the word of its
residue.  Sums, differences and products of residues are well defined; so it makes no difference
whether numbers are wrapped before such an operation, after it, or both times.  Quotients of
residues are not: numbers are wrapped before they are divided, and a quotient is that of two words.

Words are numbers here, those between `-2^31` and `2^31 - 1`, and not residue classes.  A machine
prints and compares them as numbers, so the representative matters.  That `wrap` gives the
representative of the class, and that there is one only, is all that has to be known to go back and
forth between the two: two numbers are wrapped to the same word exactly if they are congruent.

A quotient is rounded toward zero, and a remainder has the sign of the dividend.  They fit together
as they do for numbers, but for a reason that is not quite the same: the product of the quotient and
the divisor may not fit into a word, and is wrapped before the remainder is added.  As sums and
products can be wrapped at any time, the result is right nevertheless.  Two cases have to be left
out.  A divisor may be a multiple of `2^32` and is zero then; and the least word divided by minus
one has a quotient that is no word.

* `Word.eq_wrap_iff`: the word of a number is the only word with its residue.
* `Op.onWords_eq_wrap_of_unrounded`: sums, differences and products depend on residues only.
* `Word.add_mul_div_rem`: a quotient, times the divisor and with the remainder added, is the
  dividend, although the product is wrapped before the remainder is added to it.
* `quotient_fits_remainder`: the same of the operators of a machine.
-/

set_option autoImplicit false

namespace Retrace
namespace Word

/-! ## One word for each residue -/

/-- Two numbers have the same word if they have the same residue. -/
theorem wrap_eq_wrap_iff {a b : Int} : wrap a = wrap b ↔ a ≡ b [ZMOD 2 ^ 32] :=
  Int.bmod_eq_bmod_iff_bmod_sub_eq_zero.trans <| by
    rw [← Int.dvd_iff_bmod_eq_zero, Int.modEq_comm, Int.modEq_iff_dvd]
    rfl

theorem wrap_wrap (n : Int) : wrap (wrap n) = wrap n :=
  wrap_of_isWord (isWord_wrap n)

/-- The word of a number is the only word with its residue. -/
theorem eq_wrap_iff {w n : Int} : w = wrap n ↔ IsWord w ∧ w ≡ n [ZMOD 2 ^ 32] := by
  rw [← wrap_eq_wrap_iff, ← wrap_eq_self_iff]
  constructor
  · rintro rfl
    exact ⟨wrap_wrap n, wrap_wrap n⟩
  · rintro ⟨hword, hsame⟩
    exact hword.symm.trans hsame

end Word

/-- Sums, differences and products have the residue that belongs to the residues of the operands. -/
theorem Op.modEq_of_unrounded {op : Op} {f : Int → Int → Int} (h : op.unrounded? = some f)
    {a a' b b' n : Int} (ha : a ≡ a' [ZMOD n]) (hb : b ≡ b' [ZMOD n]) :
    f a b ≡ f a' b' [ZMOD n] := by
  cases op with
  | plus =>
    cases h
    exact ha.add hb
  | minus =>
    cases h
    exact ha.sub hb
  | times =>
    cases h
    exact ha.mul hb
  | _ => cases h

/-- A sum, a difference or a product on words is the word of the exact one, whatever numbers of the
same residues the operands are. -/
theorem Op.onWords_eq_wrap_of_unrounded {op : Op} {f : Int → Int → Int}
    (h : op.unrounded? = some f) {a a' b b' : Int} (ha : Word.wrap a = Word.wrap a')
    (hb : Word.wrap b = Word.wrap b') : op.onWords a b = Word.wrap (f a' b') := by
  rw [onWords_of_unrounded h, ha, hb, Word.wrap_eq_wrap_iff]
  exact modEq_of_unrounded h (Word.eq_wrap_iff.1 rfl).2 (Word.eq_wrap_iff.1 rfl).2

/-! ## A quotient and its remainder -/

namespace Word

variable {a b : Int}

/-- A remainder is smaller than the divisor. -/
theorem abs_tmod_lt (hb : b ≠ 0) : |a.tmod b| < |b| := by
  have hsize : (a.tmod b).natAbs = a.natAbs % b.natAbs := Int.natAbs_tmod a b
  have hlt : a.natAbs % b.natAbs < b.natAbs := Nat.mod_lt _ (Int.natAbs_pos.2 hb)
  rw [Int.abs_eq_natAbs, Int.abs_eq_natAbs]
  omega

/-- If a remainder is not zero, it has the sign of the dividend. -/
theorem tmod_eq_zero_or_sign_eq (a b : Int) : a.tmod b = 0 ∨ (a.tmod b).sign = a.sign := by
  by_cases hdvd : b ∣ a
  · exact .inl (Int.tmod_eq_zero_of_dvd hdvd)
  · right
    rw [Int.sign_tmod, if_neg hdvd]

/-- The quotient of two words, times the divisor and with the remainder added, is the dividend.  The
product may be no word and is wrapped before the remainder is added, but that does not change its
residue, and the dividend is a word. -/
theorem add_mul_div_rem (l r : Int) (hr : wrap r ≠ 0)
    (hleast : ¬(wrap l = -2 ^ 31 ∧ wrap r = -1)) :
    add (mul (div l r) r) (rem l r) = wrap l := by
  have hplus : Op.plus.unrounded? = some (· + ·) := rfl
  have htimes : Op.times.unrounded? = some (· * ·) := rfl
  have hquotient : div l r = (wrap l).tdiv (wrap r) :=
    wrap_of_isWord (isWord_tdiv (isWord_wrap l) hleast)
  have hproduct : wrap (mul (div l r) r) = wrap ((wrap l).tdiv (wrap r) * wrap r) := by
    rw [hquotient]
    exact (wrap_wrap _).trans
      (Op.onWords_eq_wrap_of_unrounded htimes rfl (wrap_wrap r).symm)
  calc add (mul (div l r) r) (rem l r)
      = add (mul (div l r) r) ((wrap l).tmod (wrap r)) := by rw [rem, if_neg hr]
    _ = wrap ((wrap l).tdiv (wrap r) * wrap r + (wrap l).tmod (wrap r)) :=
        Op.onWords_eq_wrap_of_unrounded hplus hproduct rfl
    _ = wrap l := by rw [Int.tdiv_mul_add_tmod, wrap_wrap]

end Word

namespace Exec

/-- An operator on two whole numbers is what it is on words. -/
theorem operate_of_ints (force : Nat → Exec Value) (op : Op) (a b : Int) (m : Machine) :
    operate force (.text op.tag) (.int a) (.int b) m = .ok (.int (op.onWords a b)) m := by
  rw [operate, op.ofTree?_tag]
  show apply op (.int a) (.int b) m = _
  exact apply_of_words rfl rfl

end Exec

open Exec (operate)

/-- **Quotient and remainder fit together.**  For numbers `l` and `r` of any size, which enter an
operation as the words `wrap l` and `wrap r`: if the second word is not zero, and the pair is not
that of the least word and minus one, then

* the whole quotient, times `r` and with the remainder added, is the first word;
* the remainder is smaller than the second word, and has the sign of the first one unless it is
  zero;
* `/` gives the whole quotient. -/
theorem quotient_fits_remainder (force : Nat → Exec Value) (m : Machine) (l r : Int)
    (hr : Word.wrap r ≠ 0) (hleast : ¬(Word.wrap l = -2 ^ 31 ∧ Word.wrap r = -1)) :
    ∃ quotient remainder product : Int,
      operate force (.text "int_div") (.int l) (.int r) m = .ok (.int quotient) m ∧
      operate force (.text "modulo") (.int l) (.int r) m = .ok (.int remainder) m ∧
      operate force (.text "times") (.int quotient) (.int r) m = .ok (.int product) m ∧
      operate force (.text "plus") (.int product) (.int remainder) m =
        .ok (.int (Word.wrap l)) m ∧
      |remainder| < |Word.wrap r| ∧
      (remainder = 0 ∨ remainder.sign = (Word.wrap l).sign) ∧
      operate force (.text "over") (.int l) (.int r) m = .ok (.int quotient) m := by
  have hremainder : Word.rem l r = (Word.wrap l).tmod (Word.wrap r) := if_neg hr
  refine ⟨Word.div l r, Word.rem l r, Word.mul (Word.div l r) r,
    Exec.operate_of_ints force .intDiv l r m, Exec.operate_of_ints force .modulo l r m,
    Exec.operate_of_ints force .times _ r m, ?_, ?_, ?_, Exec.operate_of_ints force .over l r m⟩
  · rw [← Word.add_mul_div_rem l r hr hleast]
    exact Exec.operate_of_ints force .plus _ _ m
  · rw [hremainder]
    exact Word.abs_tmod_lt hr
  · rw [hremainder]
    exact Word.tmod_eq_zero_or_sign_eq _ _

/-- The least word by `2^32 - 3`, which is wrapped to -3: the quotient 715827882 leaves -2. -/
theorem quotient_fits_remainder_least :
    Word.wrap (2 ^ 32 - 3) = -3 ∧ ∃ product : Int,
      operate Exec.force (.text "int_div") (.int (-2 ^ 31)) (.int (2 ^ 32 - 3)) {} =
        .ok (.int 715827882) {} ∧
      operate Exec.force (.text "modulo") (.int (-2 ^ 31)) (.int (2 ^ 32 - 3)) {} =
        .ok (.int (-2)) {} ∧
      operate Exec.force (.text "times") (.int 715827882) (.int (2 ^ 32 - 3)) {} =
        .ok (.int product) {} ∧
      operate Exec.force (.text "plus") (.int product) (.int (-2)) {} = .ok (.int (-2 ^ 31)) {} ∧
      operate Exec.force (.text "over") (.int (-2 ^ 31)) (.int (2 ^ 32 - 3)) {} =
        .ok (.int 715827882) {} := by
  have hquotient : operate Exec.force (.text "int_div") (.int (-2 ^ 31)) (.int (2 ^ 32 - 3)) {} =
      .ok (.int 715827882) {} := by cbv
  have hremainder : operate Exec.force (.text "modulo") (.int (-2 ^ 31)) (.int (2 ^ 32 - 3)) {} =
      .ok (.int (-2)) {} := by cbv
  have hword : Word.wrap (-2 ^ 31) = -2 ^ 31 := by decide
  obtain ⟨quotient, remainder, product, hq, hrem, htimes, hplus, -, -, hover⟩ :=
    quotient_fits_remainder Exec.force {} (-2 ^ 31) (2 ^ 32 - 3) (by decide) (by decide)
  cases hquotient.symm.trans hq
  cases hremainder.symm.trans hrem
  rw [hword] at hplus
  exact ⟨by decide, product, hquotient, hremainder, htimes, hplus, hover⟩

end Retrace
