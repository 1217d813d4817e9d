import Retrace.Value.Operator

/-!
# Values that are data

The type of values also has real numbers, tuples and thunks, since a machine that was set up by hand
may hold them.  *Data* are the others: nothing, truth values, whole numbers, texts, and lists of
data.  They are what literals of a program stand for, and what its expressions come to.

Operators keep to them.  That is not so of the operators of arithmetic on any two values, as the
quotient of two whole numbers is a real number.  But two whole numbers are always worked out as
words and never come to these operators, and on all other data arithmetic does without real numbers:
there is either a fault, or the result is a text or a list.  So the lemmas here have the condition
that one of the two operands is no whole number, and this is not a restriction, but the case that is
left.

A list may have been extended since it was made, and what it holds are its items together with those
that it was extended by.  So data must not be asked of values alone; that lists are extended by data
only is a condition on what the machine knows of lists (`Lists.Data`), and a loop that goes on with
a list keeps it (`isData_advance`).

That variables and histories hold nothing but data and thunks is shown elsewhere for whole runs.
This module has the part of it that is about values, and needs no machine.

* `Value.isData`: the predicate.
* `Lists.Data`: lists are extended by data only.
* `Op.isData_onValues`: results of operators.
* `Value.isData_advance`: what a counting loop goes on with.
-/

set_option autoImplicit false

namespace Retrace

mutual

/-- Is the value nothing, a truth value, a whole number, a text, or a list of such values? -/
def Value.isData : Value → Bool
  | .none => true
  | .bool _ => true
  | .int _ => true
  | .float _ => false
  | .text _ => true
  | .list _ items => Value.areData items
  | .tuple _ => false
  | .thunk _ => false

/-- Are all values data? -/
def Value.areData : List Value → Bool
  | [] => true
  | v :: rest => v.isData && Value.areData rest

end

theorem Value.areData_iff {vs : List Value} :
    areData vs = true ↔ ∀ v ∈ vs, v.isData = true := by
  induction vs with
  | nil => simp [areData]
  | cons v rest ih => rw [areData, Bool.and_eq_true, ih, List.forall_mem_cons]

/-- Lists are extended by data only. -/
def Lists.Data (l : Lists) : Prop :=
  ∀ id, ∀ v ∈ l.addedTo id, v.isData = true

namespace Lists.Data

variable {l : Lists} (hl : l.Data)
include hl

/-- What a list of data holds is data, also if it has grown. -/
theorem contents {id : Nat} {xs : List Value} (hxs : Value.areData xs = true) :
    Value.areData (l.contents id xs) = true := by
  rw [Value.areData_iff] at *
  intro v hv
  rw [Lists.contents] at hv
  split at hv
  · exact hxs v hv
  · exact (List.mem_append.1 hv).elim (hxs v) (hl id v)

theorem extend {more : List Value} (id : Nat) (hmore : Value.areData more = true) :
    (l.extend id more).Data := by
  intro other v hv
  rw [Lists.addedTo, Lists.extend, Table.get?_insert] at hv
  split at hv
  · rcases List.mem_append.1 hv with hv | hv
    · exact hl id v hv
    · exact Value.areData_iff.1 hmore v hv
  · exact hl other v hv

end Lists.Data

/-- A result that is gone on with is a good one. -/
theorem ok_of_bind {α β : Type} {x : Except Fault α} {f : α → Except Fault β} {b : β}
    (h : x >>= f = .ok b) : ∃ a, x = .ok a ∧ f a = .ok b := by
  cases x with
  | error e => cases h
  | ok a => exact ⟨a, rfl, h⟩

namespace Value

variable {l : Lists} {new : Nat} {u v w : Value}

theorem areData_append {us vs : List Value} (hu : areData us = true) (hv : areData vs = true) :
    areData (us ++ vs) = true := by
  rw [areData_iff] at *
  exact fun v hmem => (List.mem_append.1 hmem).elim (hu v) (hv v)

/-- The numbers among data are whole. -/
theorem whole_of_number? {a : Number} (hv : v.isData = true) (h : v.number? = some a) :
    ∃ i, v.whole? = some i ∧ a = .whole i := by
  cases v with
  | bool b =>
    cases h
    exact ⟨_, rfl, rfl⟩
  | int n =>
    cases h
    exact ⟨_, rfl, rfl⟩
  | float => cases hv
  | _ => cases h

/-- Data that are not both numbers have no quotient, nor anything else that is for numbers only. -/
theorem numeric_isError {symbol : String} {f : Number → Number → Except Fault Number}
    (hu : u.isData = true) (hv : v.isData = true)
    (hwhole : u.whole? = Option.none ∨ v.whole? = Option.none) :
    numeric symbol f u v ≠ .ok w := by
  intro h
  unfold numeric at h
  split at h
  · next ha hb =>
    obtain ⟨i, hi, -⟩ := whole_of_number? hu ha
    obtain ⟨j, hj, -⟩ := whole_of_number? hv hb
    simp [hi, hj] at hwhole
  · cases h

theorem areData_replicateItems {xs items : List Value} {n : Int} (hxs : areData xs = true)
    (h : replicateItems xs n = .ok items) : areData items = true := by
  have hrepeat (k : Nat) : areData (Nat.repeat (xs ++ ·) k []) = true := by
    induction k with
    | zero => rfl
    | succ k ih => exact areData_append hxs ih
  unfold replicateItems at h
  split at h
  · cases h
  · cases h
    unfold repeatItems
    split
    · rfl
    · exact hrepeat n.toNat

section Operators

variable (hl : l.Data) (hu : u.isData = true) (hv : v.isData = true)
include hl hu

theorem isData_replicate {n : Int} (h : u.replicate l new n = .ok w) : w.isData = true := by
  unfold replicate at h
  split at h
  · cases h
  · cases u with
    | text s =>
      dsimp only at h
      split at h
      · cases h
      · split at h
        · cases h
        · cases h
          rfl
    | list id xs =>
      obtain ⟨items, hitems, hw⟩ := ok_of_bind h
      cases hw
      exact areData_replicateItems (hl.contents hu) hitems
    | tuple => cases hu
    | _ =>
      cases h
      exact hu

include hv

/-- A sum that is no sum of two whole numbers joins texts or lists. -/
theorem isData_add (h : u.add l new v = .ok w) : w.isData = true := by
  unfold add at h
  split at h
  · cases h
    rfl
  · cases h
    exact areData_append (hl.contents hu) (hl.contents hv)
  · cases hu
  · split at h
    · cases h
    · split at h
      · next ha hb =>
        obtain ⟨i, -, rfl⟩ := whole_of_number? hu ha
        obtain ⟨j, -, rfl⟩ := whole_of_number? hv hb
        cases h
        rfl
      · cases h

theorem isData_multiply (hwhole : u.whole? = Option.none ∨ v.whole? = Option.none)
    (h : u.multiply l new v = .ok w) : w.isData = true := by
  unfold multiply at h
  split at h
  · split at h
    · exact isData_replicate hl hu h
    · cases h
  · split at h
    · split at h
      · exact isData_replicate hl hv h
      · cases h
    · change numeric "*" Number.mul u v = .ok w at h
      exact absurd h (numeric_isError hu hv hwhole)

omit hl in
/-- A remainder that is none of whole numbers fills in a template. -/
theorem isData_remainder (hwhole : u.whole? = Option.none ∨ v.whole? = Option.none)
    (h : u.remainder l v = .ok w) : w.isData = true := by
  unfold remainder at h
  split at h
  · obtain ⟨t, -, hw⟩ := ok_of_bind h
    cases hw
    rfl
  · exact absurd h (numeric_isError hu hv hwhole)

omit hu in
theorem areData_items? {more : List Value} (h : v.items? l = some more) : areData more = true := by
  cases v with
  | list id xs =>
    cases h
    exact hl.contents hv
  | text s =>
    cases h
    refine areData_iff.2 fun v hv => ?_
    obtain ⟨c, -, rfl⟩ := List.mem_map.1 hv
    rfl
  | tuple => cases hv
  | _ => cases h

/-- What a counting loop goes on with is data, and lists are extended by data. -/
theorem isData_advance {l' : Lists} (h : u.advance l v = .ok (w, l')) :
    w.isData = true ∧ l'.Data := by
  unfold advance at h
  split at h
  · split at h
    · next id _ _ more hmore =>
      cases h
      exact ⟨hu, hl.extend id (areData_items? hl hv hmore)⟩
    · cases h
  · split at h
    · next ha hb =>
      obtain ⟨i, -, rfl⟩ := whole_of_number? hu ha
      obtain ⟨j, -, rfl⟩ := whole_of_number? hv hb
      cases h
      exact ⟨rfl, hl⟩
    · split at h
      · obtain ⟨sum, hsum, hw⟩ := ok_of_bind h
        cases hw
        exact ⟨isData_add hl hu hv hsum, hl⟩
      · cases h

end Operators
end Value

/-- **The result of an operator on data that are not both whole numbers is data.** -/
theorem Op.isData_onValues {l : Lists} {new : Nat} {op : Op} {u v w : Value} (hl : l.Data)
    (hu : u.isData = true) (hv : v.isData = true) (hwhole : u.whole? = none ∨ v.whole? = none)
    (h : op.onValues l new u v = .ok w) : w.isData = true := by
  have numeric {symbol : String} {f : Number → Number → Except Fault Number}
      (h : Value.numeric symbol f u v = .ok w) : w.isData = true :=
    absurd h (Value.numeric_isError hu hv hwhole)
  have relation {op : Op} (h : (do return .bool (← (l.view u).order op (l.view v)) :
      Except Fault Value) = .ok w) : w.isData = true := by
    obtain ⟨b, -, hw⟩ := ok_of_bind h
    cases hw
    rfl
  match op, h with
  | .plus, h => exact Value.isData_add hl hu hv h
  | .minus, h => exact numeric h
  | .times, h => exact Value.isData_multiply hl hu hv hwhole h
  | .over, h => exact numeric h
  | .intDiv, h => exact numeric h
  | .modulo, h => exact Value.isData_remainder hu hv hwhole h
  | .eq, h =>
    cases h
    rfl
  | .neq, h =>
    cases h
    rfl
  | .and, h =>
    cases h
    split
    · exact hv
    · exact hu
  | .or, h =>
    cases h
    split
    · exact hu
    · exact hv
  | .lt, h => exact relation h
  | .gt, h => exact relation h
  | .lte, h => exact relation h
  | .gte, h => exact relation h

end Retrace
