import Retrace.Name
import Retrace.Sequence
import Retrace.Table
import Retrace.Value.View

/-!
# Histories

A history remembers, for each name, the values that it had before it was changed, each with the
time of the change.  The values of one name are kept as a stack: the latest change is undone first.

* `push`: remembers a value.
* `pop`: gives back the latest value, and forgets it.
* `peek`: the `k`-th latest value; zero and negative numbers count from the oldest value on.
* `prune`: forgets what is older than a retention time, unless that was done a short time ago.
* `of_push`, `of_pop`, `of_prune`: what becomes of the changes of a name.
* `peek_of_pos`: which of the changes a position stands for.

Times are whole numbers of the clock's unit, of which it matters only that they can be subtracted
and compared.  So `retention` is a number of these units as well, and the functions take any other
number in its place.
-/

set_option autoImplicit false
namespace Retrace

/-- A former value and the time at which it was replaced. -/
structure Change (α : Type) where
  old : α
  time : Int
deriving Inhabited, Repr, BEq

/-- The former values of each name, the latest first, and the time of the last pruning. -/
structure History (α : Type) where
  changes : Table Name (List (Change α)) := Table.empty
  lastPruned : Int := 0
deriving Inhabited, Repr

namespace History

variable {α : Type}

/-- The changes of a name, the latest first. -/
def of (h : History α) (name : Name) : List (Change α) :=
  (h.changes.get? name).getD []

/-- Remembers the value that a name had until now. -/
def push (h : History α) (name : Name) (old : α) (now : Int) : History α :=
  { h with changes := h.changes.insert name (⟨old, now⟩ :: h.of name) }

/-- The latest former value of a name, if there is one, and the history without it. -/
def pop (h : History α) (name : Name) : Option α × History α :=
  match h.of name with
  | [] => (none, h)
  | change :: rest => (some change.old, { h with changes := h.changes.insert name rest })

/-- The `k`-th latest former value of a name.  There is none if `k` is too large; zero asks for the
oldest one, and `-k` for the `k`-th one after that, which have to exist. -/
def peek (h : History α) (name : Name) (k : Int) : Except Fault (Option α) :=
  match h.changes.get? name with
  | none => .ok none
  | some changes =>
    if (changes.length : Int) < k then .ok none
    else do
      let change ← Sequence.item changes.reverse (-k)
      return some change.old

/-- The former value of a name at a position that need not be a whole number.  Any number is
compared with how many former values there are, but only a whole one is a position. -/
def peekAt (h : History α) (name : Name) (position : View) : Except Fault (Option α) :=
  match h.changes.get? name with
  | none => .ok none
  | some changes =>
    match position.number? with
    | none => .error (.unordered ">=" "int" position.typeName)
    | some (.whole k) => h.peek name k
    | some (.real x) =>
      match x.compareInt? changes.length with
      | some .gt => .ok none
      | none => .ok none
      | some _ => .error (.badIndex position.typeName)

/-- How long former values are kept, in the unit of the clock. -/
def retention : Int := 50000

/-- Forgets the changes whose age is not `kept`, if enough time has passed since that was last
done. -/
def pruneBy (h : History α) (isLong kept : Int → Bool) (now : Int) : History α :=
  if isLong (now - h.lastPruned) then
    { changes := h.changes.mapValues fun changes =>
        changes.filter fun change => kept (now - change.time)
      lastPruned := now }
  else h

/-- Forgets the changes that are `keep` seconds old or older, if more than `keep` seconds have
passed since that was last done. -/
def prune (h : History α) (keep now : Int) : History α :=
  h.pruneBy (keep < ·) (· < keep) now

/-- Forgets old changes, after a retention time that need not be a whole number.  If it is no number
at all, the fault calls an age by the sort that it has here, where clocks show whole numbers. -/
def pruneAt (h : History α) (keep : View) (now : Int) : Except Fault (History α) :=
  match keep.number? with
  | none => .error (.unordered ">" "int" keep.typeName)
  | some (.whole n) => .ok (h.prune n now)
  | some (.real x) =>
    let isLong (n : Int) := x.compareInt? n == some .lt
    let kept (n : Int) := x.compareInt? n == some .gt
    .ok (h.pruneBy isLong kept now)

/-! ## The changes of a name -/

theorem of_congr (h : History α) {name other : Name} (hn : (name == other) = true) :
    h.of name = h.of other := by
  rw [of, of, Table.get?_congr _ hn]

theorem of_push (h : History α) (name other : Name) (old : α) (now : Int) :
    (h.push name old now).of other =
      if name == other then ⟨old, now⟩ :: h.of other else h.of other := by
  rw [of, push, Table.get?_insert]
  split
  · next hn => rw [Option.getD_some, of_congr h hn]
  · rfl

theorem pop_fst (h : History α) (name : Name) :
    (h.pop name).1 = (h.of name).head?.map Change.old := by
  rw [pop]
  split <;> simp_all

theorem of_pop (h : History α) (name other : Name) :
    (h.pop name).2.of other = if name == other then (h.of other).tail else h.of other := by
  rw [pop]
  split
  · next hn =>
    split
    · next he => rw [← of_congr h he, hn, List.tail_nil]
    · rfl
  · next change rest hn =>
    rw [of, Table.get?_insert]
    split
    · next he => rw [Option.getD_some, ← of_congr h he, hn, List.tail_cons]
    · rfl

/-- From one on, positions are those of the list of changes. -/
theorem peek_of_pos (h : History α) (name : Name) {k : Nat} (hk : 1 ≤ k) :
    h.peek name k =
      ((h.of name)[k - 1]?).elim (.ok none) fun change =>
        if Sequence.inBounds (-k) then .ok (some change.old) else .error .hugeIndex := by
  rw [peek, of]
  cases h.changes.get? name with
  | none => rfl
  | some changes =>
    simp only [Option.getD_some, Int.ofNat_lt]
    split
    · next hlen => rw [List.getElem?_eq_none (by omega), Option.elim_none]
    · next hlen =>
      rw [Sequence.item_reverse changes hk, List.getElem?_eq_getElem (by omega)]
      simp only [Option.elim_some]
      split <;> rfl

theorem of_pruneBy (h : History α) (isLong kept : Int → Bool) (now : Int) (name : Name) :
    (h.pruneBy isLong kept now).of name =
      if isLong (now - h.lastPruned) then (h.of name).filter fun change => kept (now - change.time)
      else h.of name := by
  rw [pruneBy]
  split
  · rw [of, Table.get?_mapValues, of]
    cases h.changes.get? name <;> rfl
  · rfl

theorem of_prune (h : History α) (keep now : Int) (name : Name) :
    (h.prune keep now).of name =
      if keep < now - h.lastPruned then (h.of name).filter fun change => now - change.time < keep
      else h.of name := by
  rw [prune, of_pruneBy]
  simp only [decide_eq_true_eq]

theorem lastPruned_pop (h : History α) (name : Name) :
    (h.pop name).2.lastPruned = h.lastPruned := by
  rw [pop]
  split <;> rfl

theorem lastPruned_pruneBy (h : History α) (isLong kept : Int → Bool) (now : Int) :
    (h.pruneBy isLong kept now).lastPruned =
      if isLong (now - h.lastPruned) then now else h.lastPruned := by
  rw [pruneBy]
  split <;> rfl

theorem lastPruned_prune (h : History α) (keep now : Int) :
    (h.prune keep now).lastPruned = if keep < now - h.lastPruned then now else h.lastPruned := by
  rw [prune, lastPruned_pruneBy]
  simp only [decide_eq_true_eq]

end History
end Retrace
