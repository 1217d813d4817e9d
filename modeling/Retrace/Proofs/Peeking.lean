import Retrace.Proofs.Showing

/-!
# Positions in a history

The former values of a name are asked for by position, one being the latest.  A position beyond the
oldest value is refused, and it is said that there is none.  But zero and negative positions are
taken for positions counted from the other end: zero is the oldest value, minus one the next oldest,
and beyond the latest value the question ends in a fault.

The reason is that the sign of a position is turned around, and what results is taken for a position
in the list of changes, from the oldest one to the newest.  Negative positions of a list count from
its end, so one becomes minus one, which is the last item.  But zero stays zero, which is the first
item, and minus one becomes one, which is the second.  Only positions that are greater than the
number of values are looked at and refused beforehand.

So three questions have to be told apart for a name, and `History.Answers` says of each position how
it is answered: from the latest value on, from the oldest one on, or with a fault.  A name that
never had a former value is another case, since there is no list to be looked at, and all positions
are answered alike.

That two answers are the same is said with a default in the place of no value, as this is what a
program sees of it.

* `Sequence.item_of_nonneg`: the item of a list at a position from its beginning.
* `History.latest?`: the value that a position stands for if it is counted from the latest value on.
* `History.oldest?`: the value at a position that is counted from the oldest one on.
* `History.peek_of_one_le`, `History.peek_of_nonpos`: the value that is given.
* `peek_counts_both_ways`: which questions are answered in which way.
-/

set_option autoImplicit false

namespace Retrace

theorem Sequence.item_of_nonneg {α : Type} (xs : List α) {p : Int} (hp : 0 ≤ p) :
    item xs p =
      if p < bound then (xs[p.toNat]?).elim (.error (.outOfRange "list")) .ok
      else .error .hugeIndex := by
  have hneg : ¬ p < 0 := by omega
  have hlow : -bound ≤ p := by
    rw [bound]
    omega
  have hbounds : inBounds p = decide (p < bound) := by
    rw [inBounds, decide_eq_true hlow, Bool.true_and]
  rw [item, hbounds]
  by_cases hlt : p < bound
  · simp only [hlt, decide_true, Bool.not_true, Bool.false_eq_true, if_false, if_true, hneg]
    cases xs[p.toNat]? <;> rfl
  · simp [hlt]

namespace History

variable {α : Type} (h : History α) (name : Name)

/-- The `k`-th latest former value of a name; there is none at zero, nor before it. -/
def latest? (k : Int) : Option α :=
  if 1 ≤ k then ((h.of name)[(k - 1).toNat]?).map Change.old else none

/-- The former values of a name, the oldest first, counted from zero. -/
def oldest? (i : Int) : Option α :=
  ((h.of name).reverse[i.toNat]?).map Change.old

theorem peek_of_not_contains (hname : h.changes.contains name = false) (k : Int) :
    h.peek name k = .ok none := by
  have hnone : h.changes.get? name = none := Option.isNone_iff_eq_none.1 (by
    rw [← Option.not_isSome, ← Table.contains, hname]
    rfl)
  rw [peek, hnone]

/-- From one on, positions are counted from the latest value. -/
theorem peek_of_one_le (hsize : ((h.of name).length : Int) ≤ Sequence.bound) {k : Int}
    (hk : 1 ≤ k) : h.peek name k = .ok (h.latest? name k) := by
  obtain ⟨n, rfl⟩ := Int.eq_ofNat_of_zero_le (by omega : 0 ≤ k)
  have hpos : 1 ≤ n := by omega
  have hindex : ((n : Int) - 1).toNat = n - 1 := by omega
  rw [peek_of_pos h name hpos, latest?, if_pos hk, hindex]
  cases hc : (h.of name)[n - 1]? with
  | none => rfl
  | some change =>
    have hlt := (List.getElem?_eq_some_iff.1 hc).1
    have hbounds : Sequence.inBounds (-(n : Int)) = true := by
      rw [Sequence.inBounds, Bool.and_eq_true, decide_eq_true_iff, decide_eq_true_iff]
      have hbound : 0 < Sequence.bound := by decide
      omega
    rw [Option.elim_some, hbounds]
    rfl

/-- Up to zero, they are counted from the oldest value. -/
theorem peek_of_nonpos (hname : h.changes.contains name = true) {k : Int} (hk : k ≤ 0) :
    h.peek name k =
      if -k < Sequence.bound then
        (h.oldest? name (-k)).elim (.error (.outOfRange "list")) (.ok ∘ some)
      else .error .hugeIndex := by
  obtain ⟨changes, hchanges⟩ := Option.isSome_iff_exists.1 hname
  have hof : h.of name = changes := by rw [of, hchanges, Option.getD_some]
  have hlength : ¬ (changes.length : Int) < k := by omega
  rw [peek, hchanges, oldest?, hof]
  simp only [hlength, if_false]
  rw [Sequence.item_of_nonneg _ (by omega)]
  split
  · cases changes.reverse[(-k).toNat]? <;> rfl
  · rfl

theorem oldest?_eq_none {i : Int} (hi : 0 ≤ i) :
    h.oldest? name i = none ↔ ((h.of name).length : Int) ≤ i := by
  rw [oldest?, Option.map_eq_none_iff, List.getElem?_eq_none_iff, List.length_reverse]
  omega

/-- How a question for the value at a position is answered. -/
structure Answers (k : Int) : Prop where
  /-- The positions from one on are counted from the latest value. -/
  latest : 1 ≤ k → h.peek name k = .ok (h.latest? name k)
  /-- A name that never had a former value has none at any position. -/
  unknown : h.changes.contains name = false → h.peek name k = .ok none
  /-- The positions from zero down are counted from the oldest value. -/
  oldest : h.changes.contains name = true → k ≤ 0 → ∀ v, h.oldest? name (-k) = some v →
    h.peek name k = .ok (some v)
  /-- It is those among them that are beyond the latest value that end in a fault. -/
  beyond : (∃ fault, h.peek name k = .error fault) ↔
    h.changes.contains name = true ∧ k ≤ 0 ∧ ((h.of name).length : Int) ≤ -k
  /-- So from zero down it is not said that there is nothing, unless nothing is what was
  remembered. -/
  latest_iff : ∀ nothing : α,
    (h.peek name k).map (·.getD nothing) = .ok ((h.latest? name k).getD nothing) ↔
      1 ≤ k ∨ h.changes.contains name = false ∨ h.oldest? name (-k) = some nothing

variable {h name}

theorem peek_eq_oldest (hsize : ((h.of name).length : Int) ≤ Sequence.bound)
    (hname : h.changes.contains name = true) {k : Int} (hk : k ≤ 0) {v : α}
    (hv : h.oldest? name (-k) = some v) : h.peek name k = .ok (some v) := by
  have hlength : ¬ ((h.of name).length : Int) ≤ -k := by
    rw [← oldest?_eq_none h name (by omega), hv]
    exact Option.some_ne_none v
  rw [peek_of_nonpos h name hname hk, if_pos (by omega), hv, Option.elim_some]
  rfl

theorem peek_beyond (hname : h.changes.contains name = true) {k : Int} (hk : k ≤ 0)
    (hlength : ((h.of name).length : Int) ≤ -k) : ∃ fault, h.peek name k = .error fault := by
  rw [peek_of_nonpos h name hname hk, (oldest?_eq_none h name (by omega)).2 hlength]
  split <;> exact ⟨_, rfl⟩

/-- The questions that end in a fault. -/
theorem peek_eq_error_iff (hsize : ((h.of name).length : Int) ≤ Sequence.bound) (k : Int) :
    (∃ fault, h.peek name k = .error fault) ↔
      h.changes.contains name = true ∧ k ≤ 0 ∧ ((h.of name).length : Int) ≤ -k := by
  constructor
  · rintro ⟨fault, hfault⟩
    have hk : k ≤ 0 := by
      by_contra hk
      rw [peek_of_one_le h name hsize (by omega)] at hfault
      cases hfault
    cases hname : h.changes.contains name with
    | false =>
      rw [peek_of_not_contains h name hname] at hfault
      cases hfault
    | true =>
      refine ⟨rfl, hk, (oldest?_eq_none h name (by omega)).1 ?_⟩
      cases hv : h.oldest? name (-k) with
      | none => rfl
      | some v =>
        rw [peek_eq_oldest hsize hname hk hv] at hfault
        cases hfault
  · rintro ⟨hname, hk, hlength⟩
    exact peek_beyond hname hk hlength

/-- The questions that are answered as if positions were counted from the latest value on. -/
theorem peek_eq_latest_iff (hsize : ((h.of name).length : Int) ≤ Sequence.bound) (k : Int)
    (nothing : α) :
    (h.peek name k).map (·.getD nothing) = .ok ((h.latest? name k).getD nothing) ↔
      1 ≤ k ∨ h.changes.contains name = false ∨ h.oldest? name (-k) = some nothing := by
  by_cases hk : 1 ≤ k
  · rw [peek_of_one_le h name hsize hk]
    exact iff_of_true rfl (.inl hk)
  rw [latest?, if_neg hk, Option.getD_none]
  cases hname : h.changes.contains name with
  | false =>
    rw [peek_of_not_contains h name hname]
    exact iff_of_true rfl (.inr (.inl rfl))
  | true =>
    cases hv : h.oldest? name (-k) with
    | none =>
      have hlength := (oldest?_eq_none h name (by omega)).1 hv
      obtain ⟨fault, hfault⟩ := peek_beyond hname (by omega) hlength
      rw [hfault]
      simp [Except.map, hk]
    | some v =>
      rw [peek_eq_oldest hsize hname (by omega) hv]
      simp [Except.map, hk]

end History

/-- A `revtrace` ends in the fault that the question for its position ends in. -/
theorem Exec.carryOut_revtrace_of_fault {m m' : Machine} {x : String} {e : Tree} {k : Int}
    {fault : Fault} (n : Nat) (he : evaluate e m = .ok (.int k) m')
    (hfault : m.history.peek (.ofText x) k = .error fault) :
    carryOut (n + 1) (.revtrace (.text x) e) m = .error fault m' := by
  have htraced : m'.traced (.text x) (.int k) = .error fault := by
    rw [Machine.traced_int, ((evaluate_looks e).ok he).history, hfault]
    rfl
  rw [carryOut_revtrace, revtrace_apply, bind_of_ok he, bind_of_ok (get_apply m'), htraced]
  rfl

/-- **Positions are counted from the latest value on and, from zero down, from the oldest one on.**
This is how questions are answered, for any history and any name that has no more former values than
there are positions.  Where a question ends in a fault, so does a `revtrace`. -/
theorem peek_counts_both_ways {α : Type} (h : History α) (name : Name)
    (hsize : ((h.of name).length : Int) ≤ Sequence.bound) (k : Int) :
    h.Answers name k ∧
    ∀ (m m' : Machine) (x : String) (e : Tree) (n : Nat) (fault : Fault),
      Exec.evaluate e m = .ok (.int k) m' → m.history.peek (.ofText x) k = .error fault →
        Exec.carryOut (n + 1) (.revtrace (.text x) e) m = .error fault m' := by
  refine ⟨?_, fun m m' x e n fault he hfault => Exec.carryOut_revtrace_of_fault n he hfault⟩
  exact {
    latest := h.peek_of_one_le name hsize
    unknown := fun hname => h.peek_of_not_contains name hname k
    oldest := fun hname hk _ hv => History.peek_eq_oldest hsize hname hk hv
    beyond := History.peek_eq_error_iff hsize k
    latest_iff := History.peek_eq_latest_iff hsize k }

/-- The history of a variable that was 1, 2 and 3. -/
def History.ofThree : History Nat :=
  ((({} : History Nat).push (.ofText "x") 1 0).push (.ofText "x") 2 0).push (.ofText "x") 3 0

theorem peek_counts_both_ways_three :
    ((History.ofThree.of (.ofText "x")).length : Int) ≤ Sequence.bound ∧
    History.ofThree.peek (.ofText "x") 1 = .ok (some 3) ∧
    History.ofThree.peek (.ofText "x") (-1) = .ok (some 2) ∧
    (∃ fault, History.ofThree.peek (.ofText "x") (-3) = .error fault) := by
  have hanswers := peek_counts_both_ways History.ofThree (.ofText "x") (by decide)
  exact ⟨by decide, (hanswers 1).1.latest (by decide),
    (hanswers (-1)).1.oldest (by decide) (by decide) 2 (by decide),
    (hanswers (-3)).1.beyond.2 (by decide)⟩

/-- Asked for the position zero, a history gives its oldest value, and if that was taken back, the
question ends in a fault. -/
theorem peek_at_zero :
    (({} : History Nat).push (.ofText "x") 1 0).peek (.ofText "x") 0 = .ok (some 1) ∧
    (({} : History Nat).push (.ofText "x") 1 0).latest? (.ofText "x") 0 = none ∧
    (((({} : History Nat).push (.ofText "x") 1 0).pop (.ofText "x")).2).peek (.ofText "x") 0 =
      .error (.outOfRange "list") :=
  ⟨rfl, rfl, rfl⟩

end Retrace
