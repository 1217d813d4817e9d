import Retrace.History

/-!
# How old former values get

A history is pruned from time to time, but most prunings do nothing: former values are looked
through only if more than the retention time has passed since that was last done.  So a former value
may be older than the retention time, even right after a pruning.  It is never twice as old.

That bound cannot be read off one pruning.  A pruning that does nothing leaves what it finds, and
what it finds depends on all that went before.  What carries the bound along is one fact about the
time of the last pruning that did something, which every use of a history keeps: at that time each
value that is still there was younger than the retention time, or was not there yet
(`History.Recent`).  In the second case its age at that time is negative, so that both cases are one
inequality, and no value has to remember which of the two it is in.  A pruning that does nothing
comes at most the retention time later, and the two spans add up to less than twice that time.

The fact needs a clock that never goes back.  It would be lost if a value could be recorded at a
time before the last pruning, so the invariant also bounds the time of that pruning by the last
reading of the clock.

The retention time may be any number, whole or real, and the age of a value is a whole number of
seconds.  A real number times two may be rounded, and then it would not be twice the retention time;
so ages are compared with multiples of the number that a real denotes, which is a fraction of whole
numbers (`Number.exceeds`).  For the multiple by one this is the comparison that prunings make.

* `Number.exceeds`: a multiple of a number compared with a whole number.
* `History.Use`, `History.after`: what may be done with a history, and a sequence of uses.
* `History.Recent`: the invariant; `Recent.use` and `Recent.after` say that it is kept.
* `age_after_prune`: the bound on the age of what a pruning leaves.
-/

set_option autoImplicit false

namespace Retrace

/-! ## Multiples of a number -/

/-- The numerator, with its sign, of the fraction that a finite number is. -/
def Binary64.numerator (x : Binary64) : Int :=
  if x.negative then -(x.ratio.1 : Int) else x.ratio.1

namespace Number

/-- Is the number, taken `k` times, more than `n`?  What is not a number is more than nothing. -/
def exceeds (k : Nat) (n : Int) : Number → Bool
  | .whole r => n < k * r
  | .real x =>
    if x.isNaN then false
    else if x.isInfinite then !x.negative
    else n * x.ratio.2 < k * x.numerator

variable {R : Number} {k : Nat} {a b n : Int}

theorem exceeds_real {x : Binary64} (hnan : ¬ x.isNaN = true) (hinf : ¬ x.isInfinite = true) :
    (real x).exceeds k n = true ↔ n * x.ratio.2 < k * x.numerator := by
  simp [exceeds, hnan, hinf]

theorem less_real {x : Binary64} (hnan : ¬ x.isNaN = true) (hinf : ¬ x.isInfinite = true) :
    (real x).less (whole n) = true ↔ x.numerator < n * x.ratio.2 := by
  simp [less, compare?, Binary64.compareInt?, Binary64.numerator, hnan, hinf, Int.compare_eq_lt]

/-- Once a number is the number itself. -/
theorem exceeds_one (R : Number) (n : Int) : R.exceeds 1 n = (whole n).less R := by
  cases R with
  | whole r => simp [exceeds, less_whole]
  | real x =>
    by_cases hnan : x.isNaN = true
    · simp [exceeds, less, compare?, Binary64.compareInt?, hnan]
    by_cases hinf : x.isInfinite = true
    · cases hneg : x.negative <;>
        simp [exceeds, less, compare?, Binary64.compareInt?, hnan, hinf, hneg]
    · rw [Bool.eq_iff_iff, exceeds_real hnan hinf]
      simp [less, compare?, Binary64.compareInt?, Binary64.numerator, hnan, hinf,
        Int.compare_eq_gt]

theorem not_less_of_exceeds (hn : R.exceeds 1 n = true) : ¬ R.less (whole n) = true := by
  cases R with
  | whole r =>
    simp only [less_whole, exceeds, decide_eq_true_eq] at *
    omega
  | real x =>
    by_cases hnan : x.isNaN = true
    · simp [exceeds, hnan] at hn
    by_cases hinf : x.isInfinite = true
    · simp_all [exceeds, less, compare?, Binary64.compareInt?]
    · rw [exceeds_real hnan hinf] at hn
      rw [less_real hnan hinf]
      omega

/-- What a number is more than, it is more than with something less in its place. -/
theorem exceeds_of_le (hab : a ≤ b) (hb : R.exceeds k b = true) : R.exceeds k a = true := by
  cases R with
  | whole r =>
    simp only [exceeds, decide_eq_true_eq] at *
    omega
  | real x =>
    by_cases hnan : x.isNaN = true
    · simp [exceeds, hnan] at hb
    by_cases hinf : x.isInfinite = true
    · simpa [exceeds, hnan, hinf] using hb
    · rw [exceeds_real hnan hinf] at hb ⊢
      exact Int.lt_of_le_of_lt (Int.mul_le_mul_of_nonneg_right hab (by omega)) hb

/-- A number that is not less than `a`, and more than `b`, is more than `a + b` if taken twice. -/
theorem exceeds_two (ha : ¬ R.less (whole a) = true) (hb : R.exceeds 1 b = true) :
    R.exceeds 2 (a + b) = true := by
  cases R with
  | whole r =>
    simp only [less_whole, exceeds, decide_eq_true_eq] at *
    omega
  | real x =>
    by_cases hnan : x.isNaN = true
    · simp [exceeds, hnan] at hb
    by_cases hinf : x.isInfinite = true
    · simpa [exceeds, hnan, hinf] using hb
    · rw [less_real hnan hinf] at ha
      rw [exceeds_real hnan hinf] at hb ⊢
      rw [Int.add_mul]
      omega

end Number

namespace History

variable {α : Type} {R : Number} {keep : View} {h : History α} {now last : Int}

/-! ## Pruning after any number of seconds -/

/-- After any number of seconds, pruning comes to an end, and both comparisons are those of
numbers. -/
theorem pruneAt_of_number (hkeep : keep.number? = some R) (h : History α) (now : Int) :
    h.pruneAt keep now =
      .ok (h.pruneBy (fun n => R.less (.whole n)) (fun n => R.exceeds 1 n) now) := by
  cases R with
  | whole n =>
    have hless (k : Int) : (Number.whole n).less (.whole k) = decide (n < k) :=
      Number.less_whole n k
    simp [pruneAt, hkeep, prune, hless, Number.exceeds]
  | real x =>
    have hkept (n : Int) :
        (Number.real x).exceeds 1 n = (x.compareInt? n == some .gt) := by
      rw [Number.exceeds_one, Number.less, Number.compare?]
      cases x.compareInt? n with
      | none => rfl
      | some o => cases o <;> rfl
    simp [pruneAt, hkeep, hkept, Number.less, Number.compare?]

/-! ## Uses of a history -/

/-- What may be done with a history, with the time that the clock shows if it is read. -/
inductive Use (α : Type) where
  | push (name : Name) (old : α) (now : Int)
  | pop (name : Name)
  | peek (name : Name) (position : View)
  | prune (now : Int)

/-- The time that the clock shows, if it is read. -/
def Use.reading? : Use α → Option Int
  | .push _ _ now => some now
  | .prune now => some now
  | _ => none

/-- The next reading of the clock, if there is one, takes the place of the last one. -/
theorem Use.clock_cons {β : Type} {reading? : β → Option Int} {b : β} {rest : List β}
    {later : List Int}
    (hclock : (last :: ((b :: rest).filterMap reading? ++ later)).Pairwise (· ≤ ·)) :
    (∀ t ∈ reading? b, last ≤ t) ∧
      ((reading? b).getD last :: (rest.filterMap reading? ++ later)).Pairwise (· ≤ ·) := by
  cases hb : reading? b with
  | none =>
    rw [List.filterMap_cons_none hb] at hclock
    exact ⟨nofun, hclock⟩
  | some t =>
    rw [List.filterMap_cons_some hb, List.cons_append] at hclock
    obtain ⟨hlast, hrest⟩ := List.pairwise_cons.1 hclock
    refine ⟨fun t' ht' => ?_, hrest⟩
    cases ht'
    exact hlast t (List.mem_cons_self ..)

/-- The history after a use of it, with a retention time.  Looking at former values changes nothing,
whether there is one at the position or not. -/
def use (keep : View) (h : History α) : Use α → Except Fault (History α)
  | .push name old now => .ok (h.push name old now)
  | .pop name => .ok (h.pop name).2
  | .peek _ _ => .ok h
  | .prune now => h.pruneAt keep now

/-- The history after some uses of it. -/
def after (keep : View) (h : History α) (uses : List (Use α)) : Except Fault (History α) :=
  uses.foldlM (use keep) h

/-! ## The invariant -/

/-- When former values were last looked through, each one that is still there was younger than the
retention time, or not there yet.  The clock has not shown more than `last` so far. -/
structure Recent (R : Number) (last : Int) (h : History α) : Prop where
  lastPruned : h.lastPruned ≤ last
  young : ∀ name, ∀ change ∈ h.of name, R.exceeds 1 (h.lastPruned - change.time) = true

namespace Recent

/-- A new entry is not older than the last pruning. -/
theorem push (hR : R.exceeds 1 0 = true) (hr : h.Recent R last) (hnow : last ≤ now) (name : Name)
    (old : α) : (h.push name old now).Recent R now where
  lastPruned := Int.le_trans hr.lastPruned hnow
  young other change hc := by
    rw [of_push] at hc
    split at hc
    · rcases List.mem_cons.1 hc with rfl | hc
      · have hage : h.lastPruned - now ≤ 0 := by
          have := hr.lastPruned
          omega
        exact Number.exceeds_of_le hage hR
      · exact hr.young other change hc
    · exact hr.young other change hc

/-- Taking an entry off leaves entries that were there. -/
theorem pop (hr : h.Recent R last) (name : Name) : (h.pop name).2.Recent R last where
  lastPruned := by
    rw [lastPruned_pop]
    exact hr.lastPruned
  young other change hc := by
    rw [lastPruned_pop]
    rw [of_pop] at hc
    split at hc
    · exact hr.young other change (List.mem_of_mem_tail hc)
    · exact hr.young other change hc

/-- A pruning that looks through the values leaves young ones, and sets the time anew; any other
changes nothing. -/
theorem pruneBy (hr : h.Recent R last) (hnow : last ≤ now) :
    (h.pruneBy (fun n => R.less (.whole n)) (fun n => R.exceeds 1 n) now).Recent R now := by
  constructor
  · rw [lastPruned_pruneBy]
    split
    · exact Int.le_refl now
    · exact Int.le_trans hr.lastPruned hnow
  · intro name change hc
    rw [lastPruned_pruneBy]
    rw [of_pruneBy] at hc
    split
    · next hlong =>
      rw [if_pos hlong] at hc
      exact (List.mem_filter.1 hc).2
    · next hlong =>
      rw [if_neg hlong] at hc
      exact hr.young name change hc

theorem mono (hr : h.Recent R last) (hnow : last ≤ now) : h.Recent R now :=
  ⟨Int.le_trans hr.lastPruned hnow, hr.young⟩

/-- Each use of a history keeps the invariant, if the clock does not go back. -/
theorem use (hkeep : keep.number? = some R) (hR : R.exceeds 1 0 = true) (hr : h.Recent R last)
    (u : Use α) (hclock : ∀ t ∈ u.reading?, last ≤ t) :
    ∃ h', h.use keep u = .ok h' ∧ h'.Recent R (u.reading?.getD last) := by
  cases u with
  | push name old t => exact ⟨_, rfl, hr.push hR (hclock t rfl) name old⟩
  | pop name => exact ⟨_, rfl, hr.pop name⟩
  | peek name position => exact ⟨h, rfl, hr⟩
  | prune t => exact ⟨_, pruneAt_of_number hkeep h t, hr.pruneBy (hclock t rfl)⟩

/-- Any number of uses keeps the invariant, up to a time `now` that comes after them. -/
theorem after (hkeep : keep.number? = some R) (hR : R.exceeds 1 0 = true) (uses : List (Use α))
    (hr : h.Recent R last)
    (hclock : (last :: (uses.filterMap Use.reading? ++ [now])).Pairwise (· ≤ ·)) :
    ∃ h', h.after keep uses = .ok h' ∧ h'.Recent R now := by
  induction uses generalizing h last with
  | nil =>
    have hnow : last ≤ now := by simpa using hclock
    exact ⟨h, rfl, hr.mono hnow⟩
  | cons u rest ih =>
    obtain ⟨hread, hlater⟩ := Use.clock_cons hclock
    obtain ⟨h₁, hu, hr₁⟩ := hr.use hkeep hR u hread
    obtain ⟨h', hafter, hr'⟩ := ih hr₁ hlater
    refine ⟨h', ?_, hr'⟩
    rw [History.after, List.foldlM_cons, hu]
    exact hafter

end Recent
end History

open History (Use)

/-- **What a pruning leaves is less than twice the retention time old.**  A history is used in any
way, while the clock never goes back, and always pruned with the same retention time `R`, which is
positive.  Then another pruning comes to its end, and leaves nothing that is twice `R` old or older.
If more than `R` has passed since former values were last looked through, it leaves nothing that is
`R` old or older. -/
theorem age_after_prune {α : Type} {keep : View} {R : Number} (hkeep : keep.number? = some R)
    (hR : R.exceeds 1 0 = true) (start : Int) (uses : List (Use α)) (now : Int)
    (hclock : (start :: (uses.filterMap Use.reading? ++ [now])).Pairwise (· ≤ ·)) :
    ∃ h h', ({ lastPruned := start } : History α).after keep uses = .ok h ∧
      h.pruneAt keep now = .ok h' ∧
      ∀ name, ∀ change ∈ h'.of name, R.exceeds 2 (now - change.time) = true ∧
        (R.less (.whole (now - h.lastPruned)) = true → R.exceeds 1 (now - change.time) = true) := by
  have hnew : ({ lastPruned := start } : History α).Recent R start :=
    ⟨Int.le_refl start, nofun⟩
  obtain ⟨h, hafter, hr⟩ := hnew.after hkeep hR uses hclock
  refine ⟨h, _, hafter, History.pruneAt_of_number hkeep h now, fun name change hc => ?_⟩
  rw [History.of_pruneBy] at hc
  by_cases hlong : R.less (.whole (now - h.lastPruned)) = true
  · rw [if_pos hlong] at hc
    have hyoung : R.exceeds 1 (now - change.time) = true := (List.mem_filter.1 hc).2
    have htwice := Number.exceeds_two (Number.not_less_of_exceeds hR) hyoung
    rw [Int.zero_add] at htwice
    exact ⟨htwice, fun _ => hyoung⟩
  · rw [if_neg hlong] at hc
    have hsum : now - change.time = (now - h.lastPruned) + (h.lastPruned - change.time) := by omega
    rw [hsum]
    exact ⟨Number.exceeds_two hlong (hr.young name change hc), fun h => absurd h hlong⟩

/-- A value that was written at time 2 outlives the prunings at 11 and at 21, with 10 seconds to
keep: it is 9 seconds old when former values are looked through, and 19 seconds old at the end. -/
theorem age_after_second_prune :
    (∃ h h', ({ lastPruned := 0 } : History Unit).after (.int 10)
          [.push (.ofText "x") () 2, .prune 11] = .ok h ∧
        h.pruneAt (.int 10) 21 = .ok h' ∧
        ∀ name, ∀ change ∈ h'.of name, (Number.whole 10).exceeds 2 (21 - change.time) = true ∧
          ((Number.whole 10).less (.whole (21 - h.lastPruned)) = true →
            (Number.whole 10).exceeds 1 (21 - change.time) = true)) ∧
      (({ lastPruned := 0 } : History Unit).after (.int 10)
          [.push (.ofText "x") () 2, .prune 11, .prune 21]).map (·.of (.ofText "x")) =
        .ok [⟨(), 2⟩] :=
  ⟨age_after_prune rfl (by decide) 0 [.push (.ofText "x") () 2, .prune 11] 21 (by decide), rfl⟩

end Retrace
