import Retrace.Value.View

/-!
# The memory account

A program may hold only so much memory.  The account is charged for each value that is bound and
credited for each value that is replaced; it is never left below zero by a credit.

An account by itself takes any numbers, and refuses what is none.  The account of a running program
is kept in whole bytes.

* `allocate`, `deallocate`: charges and credits.
* `allocateAt`, `deallocateAt`: the same for amounts that need not be numbers.
* `allocate_whole`, `deallocate_whole`: what they are on whole numbers.
* `Account`, with `charge` and `credit`: the account of a running program.
* `Account.memory_charge`, `Account.memory_credit`: it is an account like any other.
-/

set_option autoImplicit false
namespace Retrace

/-- The bytes that may be held and those that are held. -/
structure Memory where
  limit : Number
  allocated : Number := .whole 0
deriving Inhabited, Repr, DecidableEq

namespace Memory

/-- An account of so many bytes. -/
def ofBytes (n : Int) : Memory :=
  { limit := .whole n }

/-- An account of so many megabytes. -/
def ofMegabytes (n : Number) : Except Fault Memory := do
  let kilobytes ← n.mul (.whole 1024)
  let bytes ← kilobytes.mul (.whole 1024)
  return { limit := bytes }

/-- Charges the account, within its limit. -/
def allocate (m : Memory) (size : Number) : Except Fault Memory := do
  let allocated ← m.allocated.add size
  if m.limit.less allocated then throw .memoryExceeded
  return { m with allocated }

/-- Credits the account. -/
def deallocate (m : Memory) (size : Number) : Except Fault Memory := do
  let allocated ← m.allocated.sub size
  return { m with allocated := if allocated.less (.whole 0) then .whole 0 else allocated }

/-- What may still be charged. -/
def remaining (m : Memory) : Except Fault Number :=
  m.limit.sub m.allocated

/-! ## Amounts of any sort -/

/-- Charges the account with an amount that need not be a number. -/
def allocateAt (m : Memory) (size : View) : Except Fault Memory :=
  match size.number? with
  | some n => m.allocate n
  | none => .error (.unsupported "+" m.allocated.typeName size.typeName)

/-- Credits the account with an amount that need not be a number. -/
def deallocateAt (m : Memory) (size : View) : Except Fault Memory :=
  match size.number? with
  | some n => m.deallocate n
  | none => .error (.unsupported "-=" m.allocated.typeName size.typeName)

/-! ## Whole numbers -/

theorem allocate_whole (limit allocated size : Int) :
    (⟨.whole limit, .whole allocated⟩ : Memory).allocate (.whole size) =
      if limit < allocated + size then .error .memoryExceeded
      else .ok ⟨.whole limit, .whole (allocated + size)⟩ := by
  simp only [allocate, Number.add_whole, Number.less_whole, bind, Except.bind, decide_eq_true_eq]
  split <;> rfl

theorem deallocate_whole (limit allocated size : Int) :
    (⟨.whole limit, .whole allocated⟩ : Memory).deallocate (.whole size) =
      .ok ⟨.whole limit, .whole (max 0 (allocated - size))⟩ := by
  simp only [deallocate, Number.sub_whole, Number.less_whole, bind, Except.bind,
    decide_eq_true_eq, pure, Except.pure]
  split
  · next h => rw [Int.max_eq_left (by omega)]
  · next h => rw [Int.max_eq_right (by omega)]

end Memory

/-! ## Whole bytes -/

/-- The bytes that a running program may hold and those that it holds. -/
structure Account where
  limit : Nat
  held : Nat := 0
deriving Inhabited, Repr, DecidableEq

namespace Account

/-- Charges the account, within its limit. -/
def charge (a : Account) (size : Nat) : Except Fault Account :=
  if a.limit < a.held + size then .error .memoryExceeded
  else .ok { a with held := a.held + size }

/-- Credits the account. -/
def credit (a : Account) (size : Nat) : Account :=
  { a with held := a.held - size }

/-- The account as one that takes any numbers. -/
def memory (a : Account) : Memory :=
  ⟨.whole a.limit, .whole a.held⟩

theorem memory_charge (a : Account) (size : Nat) :
    a.memory.allocate (.whole size) = (a.charge size).map memory := by
  rw [memory, Memory.allocate_whole, charge]
  by_cases h : a.limit < a.held + size
  · rw [if_pos (by omega), if_pos h]
    rfl
  · rw [if_neg (by omega), if_neg h]
    rfl

theorem memory_credit (a : Account) (size : Nat) :
    a.memory.deallocate (.whole size) = .ok (a.credit size).memory := by
  have h : max 0 ((a.held : Int) - size) = ((a.held - size : Nat) : Int) := by omega
  rw [memory, Memory.deallocate_whole, h]
  rfl

end Account
end Retrace
