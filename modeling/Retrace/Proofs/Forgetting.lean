import Retrace.Proofs.Ageing

/-!
# What pruning forgets

The changes of a name lie in the order of their times, because the clock never goes back.  So the
changes that are too old to be kept are the oldest ones, and pruning cuts the stack of a name at one
place.  Whoever looks at the part above the cut does not see that something below it is gone.

Pruning itself knows nothing of an order.  It goes through all changes and keeps those that are
young enough, and if the times were in disorder it would leave gaps.  That the two come to the same,
to keep the young ones and to cut where the first old one is, is a fact about lists in which being
young passes on from older to newer (`filter_eq_takeWhile`), and the order of the times is what
gives it.

The order is an invariant of uses (`History.InOrder`).  It needs a clock that does not go back, and
that each change was recorded at a reading of it.  Prunings only take changes away, and so keep any
order; it does not matter for that with what retention time they are made, or whether they fail
because the time is no number.  For this reason a history is said to be reached by uses of which
each has a retention time of its own (`History.reached`), and only the last pruning, of which
something is said, has to have a number.

What can be seen of a history is what the next pops give and what can be looked at by position.
Both depend on a beginning of the stack only, if they do not go beyond it.

* `Number.atMost`: the order of numbers, with equality.
* `History.reached`: a history after any uses, each with a retention time of its own.
* `History.pops`: what the next pops of a name give.
* `History.InOrder`: the invariant; `InOrder.use` and `InOrder.reached` say that it is kept.
* `prune_cuts_oldest`: what pruning removes, and what can be seen of it.
-/

set_option autoImplicit false

namespace Retrace

/-! ## Numbers and lists -/

/-- Is the first number at most the second one?  What is not a number is at most nothing. -/
def Number.atMost (a b : Number) : Bool :=
  a.less b || a.compare? b == some .eq

/-- A number that something is more than, and that is not more than `n`, is at most `n`. -/
theorem Number.atMost_of_not_exceeds {R : Number} {m n : Int} (hm : R.less (whole m) = true)
    (hn : ¬ R.exceeds 1 n = true) : R.atMost (whole n) = true := by
  cases R with
  | whole r =>
    have hle : r ≤ n := by
      simp only [exceeds, decide_eq_true_eq] at hn
      omega
    rcases Int.lt_or_eq_of_le hle with hlt | rfl
    · simp [atMost, less_whole, hlt]
    · simp [atMost, compare?]
  | real x =>
    rw [exceeds_one] at hn
    have hnan : x.isNaN = false := by
      cases hx : x.isNaN with
      | false => rfl
      | true => simp [less, compare?, Binary64.compareInt?, hx] at hm
    have hcompared : ∃ o, x.compareInt? n = some o := by
      rw [Binary64.compareInt?, hnan]
      simp only [Bool.false_eq_true, if_false]
      split <;> exact ⟨_, rfl⟩
    obtain ⟨o, ho⟩ := hcompared
    cases o <;> simp_all [atMost, less, compare?]

/-- What is kept of a list is its beginning, if nothing is kept after something that is not. -/
theorem filter_eq_takeWhile {α : Type} {kept : α → Bool} {xs : List α}
    (hxs : xs.Pairwise fun a b => kept b = true → kept a = true) :
    xs.filter kept = xs.takeWhile kept := by
  induction xs with
  | nil => rfl
  | cons x rest ih =>
    obtain ⟨hx, hrest⟩ := List.pairwise_cons.1 hxs
    by_cases hk : kept x = true
    · rw [List.filter_cons_of_pos hk, List.takeWhile_cons_of_pos hk, ih hrest]
    · rw [List.filter_cons_of_neg hk, List.takeWhile_cons_of_neg hk, List.filter_eq_nil_iff]
      exact fun y hy hyk => hk (hx y hy hyk)

namespace History

variable {α : Type} {R : Number} {keep : View} {h : History α} {name : Name} {now last : Int}

/-! ## Looking at former values -/

/-- What the next `k` pops of a name give. -/
def pops (name : Name) : Nat → History α → List (Option α)
  | 0, _ => []
  | k + 1, h => (h.pop name).1 :: pops name k (h.pop name).2

/-- As long as there are changes, pops give the former values from the newest on. -/
theorem pops_eq (name : Name) (k : Nat) (h : History α) (hk : k ≤ (h.of name).length) :
    pops name k h = ((h.of name).take k).map fun change => some change.old := by
  induction k generalizing h with
  | zero => rfl
  | succ k ih =>
    obtain ⟨change, rest, hof⟩ := List.exists_cons_of_length_pos (by omega : 0 < (h.of name).length)
    have hrest : (h.pop name).2.of name = rest := by
      rw [of_pop, if_pos (BEq.refl name), hof, List.tail_cons]
    have hlen : k ≤ rest.length := by
      rw [hof, List.length_cons] at hk
      omega
    rw [pops, ih _ (by rw [hrest]; exact hlen), hrest, pop_fst, hof]
    rfl

section Beginning

variable {h₁ h₂ : History α} (hof : h₁.of name <+: h₂.of name)
include hof

/-- As far as the shorter of two stacks goes, the same former values are seen in both. -/
theorem peek_eq_of_isPrefix {k : Nat} (hk : 1 ≤ k) (hlen : k ≤ (h₁.of name).length) :
    h₁.peek name k = h₂.peek name k := by
  rw [peek_of_pos h₁ name hk, peek_of_pos h₂ name hk, List.getElem?_eq_getElem (by omega),
    List.getElem?_eq_getElem (Nat.lt_of_lt_of_le (by omega) hof.length_le), hof.getElem]

theorem pops_eq_of_isPrefix {k : Nat} (hlen : k ≤ (h₁.of name).length) :
    pops name k h₁ = pops name k h₂ := by
  obtain ⟨lost, hlost⟩ := hof
  rw [pops_eq name k h₁ hlen, pops_eq name k h₂ (by rw [← hlost, List.length_append]; omega),
    ← hlost, List.take_append_of_le_length hlen]

end Beginning

/-! ## Any uses of a history -/

/-- The history after some uses of it, each with the retention time that it is given.  A use that is
refused changes nothing. -/
def reached (h : History α) (uses : List (View × Use α)) : History α :=
  uses.foldl (fun h u => (h.use u.1 u.2).toOption.getD h) h

/-- The changes of every name lie in the order of their times, the latest first, and none is later
than `last`. -/
structure InOrder (last : Int) (h : History α) : Prop where
  sorted : ∀ name, (h.of name).Pairwise fun a b => b.time ≤ a.time
  past : ∀ name, ∀ change ∈ h.of name, change.time ≤ last

namespace InOrder

theorem mono (ho : h.InOrder last) (hnow : last ≤ now) : h.InOrder now :=
  ⟨ho.sorted, fun name change hc => Int.le_trans (ho.past name change hc) hnow⟩

/-- A history whose changes are some of those before, in the same order, is in order. -/
theorem of_sublist {h' : History α} (ho : h.InOrder last)
    (hsub : ∀ name, (h'.of name).Sublist (h.of name)) : h'.InOrder last :=
  ⟨fun name => (ho.sorted name).sublist (hsub name),
    fun name change hc => ho.past name change ((hsub name).mem hc)⟩

theorem push (ho : h.InOrder last) (hnow : last ≤ now) (name : Name) (old : α) :
    (h.push name old now).InOrder now := by
  have ho := ho.mono hnow
  constructor
  · intro other
    rw [of_push]
    split
    · exact List.pairwise_cons.2 ⟨ho.past other, ho.sorted other⟩
    · exact ho.sorted other
  · intro other change hc
    rw [of_push] at hc
    split at hc
    · rcases List.mem_cons.1 hc with rfl | hc
      · exact Int.le_refl now
      · exact ho.past other change hc
    · exact ho.past other change hc

theorem pop (ho : h.InOrder last) (name : Name) : (h.pop name).2.InOrder last := by
  refine ho.of_sublist fun other => ?_
  rw [of_pop]
  split
  · exact List.tail_sublist _
  · exact List.Sublist.refl _

theorem pruneBy (ho : h.InOrder last) (isLong kept : Int → Bool) (now : Int) :
    (h.pruneBy isLong kept now).InOrder last := by
  refine ho.of_sublist fun name => ?_
  rw [of_pruneBy]
  split
  · exact List.filter_sublist
  · exact List.Sublist.refl _

/-- Each use of a history keeps its changes in order, if the clock does not go back. -/
theorem use (ho : h.InOrder last) (keep : View) (u : Use α) (hclock : ∀ t ∈ u.reading?, last ≤ t) :
    ((h.use keep u).toOption.getD h).InOrder (u.reading?.getD last) := by
  cases u with
  | push name old t => exact ho.push (hclock t rfl) name old
  | pop name => exact ho.pop name
  | peek name position => exact ho
  | prune t =>
    have ho := ho.mono (hclock t rfl)
    cases hkeep : keep.number? with
    | none =>
      have hrefused : h.pruneAt keep t = .error (.unordered ">" "int" keep.typeName) := by
        simp only [pruneAt, hkeep]
      rw [History.use, hrefused]
      exact ho
    | some R =>
      rw [History.use, pruneAt_of_number hkeep]
      exact ho.pruneBy (fun n => R.less (.whole n)) (fun n => R.exceeds 1 n) t

/-- So does any number of uses, up to a time `now` that comes after them. -/
theorem reached (uses : List (View × Use α)) (ho : h.InOrder last)
    (hclock : (last :: (uses.filterMap (·.2.reading?) ++ [now])).Pairwise (· ≤ ·)) :
    (h.reached uses).InOrder now := by
  induction uses generalizing h last with
  | nil => exact ho.mono (by simpa using hclock)
  | cons u rest ih =>
    obtain ⟨hu, hrest⟩ := Use.clock_cons hclock
    exact ih (ho.use u.1 u.2 hu) hrest

/-- What is kept of the changes of a name is a beginning of them, the latest ones. -/
theorem of_pruneBy_isPrefix (ho : h.InOrder last) (R : Number) (isLong : Int → Bool) (now : Int)
    (name : Name) :
    (h.pruneBy isLong (fun n => R.exceeds 1 n) now).of name <+: h.of name := by
  rw [of_pruneBy]
  split
  · rw [filter_eq_takeWhile]
    · exact List.takeWhile_prefix _
    · refine (ho.sorted name).imp fun {a b} hab hb => ?_
      exact Number.exceeds_of_le (by omega) hb
  · exact List.prefix_rfl

/-- What pruning takes away is what it should not keep. -/
theorem pruneBy_cuts (ho : h.InOrder last) (R : Number) (now : Int) (name : Name) :
    ∃ lost,
      h.of name =
        (h.pruneBy (fun n => R.less (.whole n)) (fun n => R.exceeds 1 n) now).of name ++ lost ∧
      if R.less (.whole (now - h.lastPruned)) then
        ∀ change ∈ lost, R.atMost (.whole (now - change.time)) = true
      else lost = [] := by
  obtain ⟨lost, hlost⟩ :=
    ho.of_pruneBy_isPrefix R (fun n => R.less (.whole n)) now name
  refine ⟨lost, hlost.symm, ?_⟩
  rw [of_pruneBy] at hlost
  split
  · next hlong =>
    rw [if_pos hlong] at hlost
    -- nothing of what is lost passes the test, or it would be there twice
    have hnone : lost.filter (fun change => R.exceeds 1 (now - change.time)) = [] := by
      have htwice := congrArg (List.filter fun change => R.exceeds 1 (now - change.time)) hlost
      rw [List.filter_append, List.filter_filter] at htwice
      simpa using htwice
    intro change hc
    exact Number.atMost_of_not_exceeds hlong (List.filter_eq_nil_iff.1 hnone change hc)
  · next hlong =>
    rw [if_neg hlong] at hlost
    simpa using hlost

end InOrder
end History

open History (Use)

/-- **Pruning takes away the oldest changes of each name, and nothing else.**  A history is used in
any way, with any retention times, while the clock never goes back.  Then pruning it once more, with
any number `R` for the retention time, comes to its end and cuts the stack of each name at one
place.  If more than `R` has passed since former values were last looked through, everything above
the cut is younger than `R`, and everything below it is at least `R` old; otherwise nothing is cut
off.  Down to the cut, the former values that are looked at or taken back are those there were
before. -/
theorem prune_cuts_oldest {α : Type} {keep : View} {R : Number} (hkeep : keep.number? = some R)
    (start : Int) (uses : List (View × Use α)) (now : Int)
    (hclock : (start :: (uses.filterMap (·.2.reading?) ++ [now])).Pairwise (· ≤ ·))
    {h : History α} (hreached : ({ lastPruned := start } : History α).reached uses = h) :
    ∃ h', h.pruneAt keep now = .ok h' ∧
      ∀ name, ∃ lost, h.of name = h'.of name ++ lost ∧
        (if R.less (.whole (now - h.lastPruned)) then
          (∀ change ∈ h'.of name, (Number.whole (now - change.time)).less R = true) ∧
            ∀ change ∈ lost, R.atMost (.whole (now - change.time)) = true
        else lost = []) ∧
        ∀ k : Nat, 1 ≤ k → k ≤ (h'.of name).length →
          h'.peek name k = h.peek name k ∧ History.pops name k h' = History.pops name k h := by
  have hnew : ({ lastPruned := start } : History α).InOrder start :=
    ⟨fun _ => List.Pairwise.nil, nofun⟩
  have ho : h.InOrder now := hreached ▸ hnew.reached uses hclock
  refine ⟨_, History.pruneAt_of_number hkeep h now, fun name => ?_⟩
  obtain ⟨lost, hlost, hold⟩ := ho.pruneBy_cuts R now name
  refine ⟨lost, hlost, ?_, fun k hk hlen => ?_⟩
  · split
    · next hlong =>
      rw [if_pos hlong] at hold
      refine ⟨fun change hc => ?_, hold⟩
      rw [History.of_pruneBy, if_pos hlong] at hc
      rw [← Number.exceeds_one]
      exact (List.mem_filter.1 hc).2
    · next hlong =>
      rw [if_neg hlong] at hold
      exact hold
  · have hbeginning := ho.of_pruneBy_isPrefix R (fun n => R.less (.whole n)) now name
    exact ⟨History.peek_eq_of_isPrefix hbeginning hk hlen,
      History.pops_eq_of_isPrefix hbeginning hlen⟩

/-- Of three changes, at the times 1, 5 and 9, the latest one is left at time 11 with 5 seconds to
keep.  A pruning before that, with nothing for the retention time, was refused. -/
theorem prune_cuts_two_of_three :
    (∃ h', (({ lastPruned := 0 } : History Nat).reached
          [(.none, .push (.ofText "x") 1 1), (.none, .push (.ofText "x") 2 5),
            (.none, .prune 7), (.none, .push (.ofText "x") 3 9)]).pruneAt (.int 5) 11 =
          .ok h' ∧
        h'.of (.ofText "x") = [⟨3, 9⟩] ∧
        h'.peek (.ofText "x") 1 = .ok (some 3) ∧ History.pops (.ofText "x") 1 h' = [some 3]) := by
  have hkeep : (View.int 5).number? = some (.whole 5) := rfl
  obtain ⟨h', hprune, hall⟩ :=
    prune_cuts_oldest hkeep 0
      [(.none, .push (.ofText "x") 1 1), (.none, .push (.ofText "x") 2 5),
        (.none, .prune 7), (.none, .push (.ofText "x") 3 9)] 11 (by decide) rfl
  have hof : h'.of (.ofText "x") = [⟨3, 9⟩] := by
    cases hprune
    rfl
  obtain ⟨lost, -, -, hseen⟩ := hall (.ofText "x")
  obtain ⟨hpeek, hpops⟩ := hseen 1 (by decide) (by rw [hof]; decide)
  exact ⟨h', hprune, hof, hpeek.trans rfl, hpops.trans rfl⟩

end Retrace
