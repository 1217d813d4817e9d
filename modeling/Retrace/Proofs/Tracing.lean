import Retrace.Proofs.Recall

/-!
# Tracing and reversing

A `revtrace` looks at a former value of a variable and leaves it where it is; reversals take former
values back, one after the other.  Both go by the same history: the value that is looked at from the
position `k` is the one that `k` reversals put in place.

A `revtrace` is a step with several parts, each of which may fail: the target may be no name, the
position no number, and the value that was found may be too long to be shown.  All of these only
read the machine.  So what it writes is a function of the machine after its position was evaluated
(`Machine.traced`), and the statement is the evaluation, this function, and one piece of output
(`revtrace_apply`).  From that equation it is plain that it changes neither variables nor histories,
and what it writes can be looked at without the machine in between.

The former value at a position is counted from the latest one on, and `k` reversals take off the
first `k` entries of the history.  The last of these is put in place, unless it is nothing: a value
of nothing is not put back, and then the variable stays bound to what was put in place before.  So
the condition that there is a place for the variable is needed only where something is put back.

* `Machine.traced`: what a `revtrace` writes, as a function of the machine; `revtrace_apply` says
  that it writes this and does nothing else.
* `History.peek_eq_some`: the former value at a position.
* `Machine.TakesBackAll.lookup_peek`: what is put in place by so many reversals.
* `reversals_reach_traced`: both together.
-/

set_option autoImplicit false

namespace Retrace

/-! ## What is written about a position -/

/-- What a `revtrace` writes about the former value of a variable at a position. -/
def Machine.traced (m : Machine) (target : Tree) (position : Value) : Except Fault String := do
  let name ← Name.ofTree target
  let old ← m.history.peekAt name (m.lists.view position)
  let place ← (m.lists.view position).shown
  match old.filter fun v => !v.isNone with
  | some v =>
    let s ← (m.lists.view v).shown
    return "Reverse Tracepath state " ++ place.display ++ " of " ++ target.shown ++ ": " ++
      s.display ++ "\n"
  | none =>
    return "No state found for " ++ target.shown ++ " at index " ++ place.display ++ "\n"

namespace Exec

/-- Results that may be faults can be put together before or after they are gone on with. -/
theorem ofExcept_bind {α β γ : Type} (r : Except Fault α) (f : α → Except Fault β)
    (g : β → Exec γ) :
    (ofExcept (r >>= f) >>= g) = (ofExcept r >>= fun a => ofExcept (f a) >>= g) := by
  cases r <;> rfl

theorem shown_bind_apply {α : Type} (v : Value) (f : String → Exec α) (m : Machine) :
    (shown v >>= f) m = (ofExcept (m.lists.view v).shown >>= fun s => f s.display) m := by
  rw [bind_apply, shown, bind_of_ok (view_apply v m)]
  cases (m.lists.view v).shown <;> rfl

/-- After it has found its position, a `revtrace` does nothing but write. -/
theorem revtrace_apply (target e : Tree) (m : Machine) :
    revtrace unwatched (.revtrace target e) m = (do
      let position ← evaluate e
      let s ← ofExcept ((← get).traced target position)
      put .revtrace s : Exec Unit) m := by
  have hparts : (Tree.revtrace target e).unpack3 = .ok (.text "revtrace", target, e) := rfl
  rw [revtrace, hparts, bind_of_ok (ofExcept_ok _ m)]
  refine bind_congr_at rfl fun position mid _ => ?_
  rw [bind_of_ok (get_apply mid), Machine.traced, ofExcept_bind]
  refine bind_congr_at rfl fun name _ hname => ?_
  obtain ⟨-, rfl⟩ := ofExcept_eq_ok.1 hname
  rw [bind_of_ok (get_apply _), bind_of_ok (view_apply position _), ofExcept_bind]
  refine bind_congr_at rfl fun old mid hold => ?_
  obtain ⟨-, rfl⟩ := ofExcept_eq_ok.1 hold
  rw [ofExcept_bind]
  generalize old.filter (fun v => !v.isNone) = former
  cases former with
  | none => exact shown_bind_apply position _ _
  | some v =>
    refine (shown_bind_apply position _ _).trans ?_
    refine bind_congr_at rfl fun place mid hplace => ?_
    obtain ⟨-, rfl⟩ := ofExcept_eq_ok.1 hplace
    rw [shown_bind_apply, ofExcept_bind]
    rfl

/-- A `revtrace` leaves variables and histories alone, also if it stops with a fault. -/
theorem revtrace_keeps (target e : Tree) :
    Keeps (fun m m' => m'.bindings = m.bindings ∧ m'.history = m.history)
      (revtrace unwatched (.revtrace target e)) := by
  have hR : Onward fun m m' : Machine => m'.bindings = m.bindings ∧ m'.history = m.history :=
    ⟨fun _ => ⟨rfl, rfl⟩, fun hab hbc => ⟨hbc.1.trans hab.1, hbc.2.trans hab.2⟩⟩
  rw [funext fun m => revtrace_apply target e m]
  refine keepsOn_bind hR ?_ fun position => ?_
  · exact (evaluate_looks e).mono (fun _ h => h) fun _ _ h => ⟨h.bindings, h.history⟩
  refine keepsOn_bind hR (keepsOn_get hR) fun m => ?_
  refine keepsOn_bind hR (keepsOn_ofExcept hR _) fun s => ?_
  exact keepsOn_of_apply (put_apply .revtrace s) fun _ => ⟨rfl, rfl⟩

theorem carryOut_revtrace (n : Nat) (target e : Tree) :
    carryOut (n + 1) (.revtrace target e) = revtrace unwatched (.revtrace target e) :=
  carryOut_of_simply rfl

end Exec

/-! ## The former value at a position -/

/-- From the first position on, a former value is there if there are so many. -/
theorem History.peek_eq_some {α : Type} {h : History α} {name : Name} {k : Nat} {p : α}
    (hk : 1 ≤ k) (hp : h.peek name k = .ok (some p)) :
    ∃ change, (h.of name)[k - 1]? = some change ∧ change.old = p := by
  rw [peek_of_pos h name hk] at hp
  cases hc : (h.of name)[k - 1]? with
  | none =>
    rw [hc] at hp
    cases hp
  | some change =>
    rw [hc, Option.elim_some] at hp
    split at hp
    · cases hp
      exact ⟨change, rfl, rfl⟩
    · cases hp

/-- What is seen at the position `k` is put in place if `k` changes are taken back. -/
theorem Machine.TakesBackAll.lookup_peek {m m' : Machine} {name : Name} {k : Nat} {p : Value}
    (h : m.TakesBackAll name k m') (hk : 1 ≤ k) (hp : m.history.peek name k = .ok (some p))
    (hnone : p ≠ .none) : m'.lookup name = some p := by
  obtain ⟨change, hc, rfl⟩ := History.peek_eq_some hk hp
  have htake : (m.history.of name).take k = (m.history.of name).take (k - 1) ++ [change] := by
    obtain ⟨j, rfl⟩ := Nat.exists_eq_add_of_le' hk
    rw [List.take_add_one, Nat.add_sub_cancel] at *
    rw [hc, Option.toList_some]
  rw [h.lookup, if_pos BEq.rfl, htake, Change.putBackAll_concat _ _ _ hnone]

open Exec

/-- **A `revtrace` sees what reversals bring back.**  A `revtrace` changes no variable and no
history.  A variable may be reversed `k` times, unless the limit of the memory is reached; it must
have a place among the others if one of the latest `k` changes has a former value to put back.  Then
it is bound to what was seen at the position `k`, if that was something; its history is what it was
without the latest `k` changes, and all other variables are as they were, with their histories.  If
there are less than `k` changes, nothing is seen at `k`, and none is left. -/
theorem reversals_reach_traced {target : Tree} {name : Name} (hn : Name.ofTree target = .ok name)
    (m : Machine) {k : Nat} (hk : 1 ≤ k)
    (hplace : ∀ change ∈ (m.history.of name).take k, change.old ≠ .none →
      Name.findPlace m.bindings name = .ok ()) :
    (∀ n e, Keeps (fun m m' => m'.bindings = m.bindings ∧ m'.history = m.history)
      (carryOut n (.revtrace target e))) ∧
    ((m.history.of name).length < k → m.history.peek name k = .ok none) ∧
    ((∃ m', reverseTimes target k m = .error .memoryExceeded m') ∨
      ∃ m', reverseTimes target k m = .ok () m' ∧
        (∀ p, m.history.peek name k = .ok (some p) → p ≠ .none → m'.lookup name = some p) ∧
        m'.history.of name = (m.history.of name).drop k ∧
        ((m.history.of name).length < k → m'.history.of name = []) ∧
        ∀ other, (name == other) = false →
          m'.lookup other = m.lookup other ∧ m'.history.of other = m.history.of other) := by
  refine ⟨fun n e => ?_, fun hlen => ?_, ?_⟩
  · cases n with
    | zero => exact ⟨nofun, fun _ h => by cases h; exact ⟨rfl, rfl⟩⟩
    | succ n =>
      rw [carryOut_revtrace]
      exact revtrace_keeps target e
  · rw [History.peek_of_pos _ _ hk, List.getElem?_eq_none (by omega), Option.elim_none]
  · rcases reverseTimes_takesBack hn k hplace with ⟨m', hrun, ht⟩ | hlimit
    · have hhistory : m'.history.of name = (m.history.of name).drop k := by
        rw [ht.history, if_pos BEq.rfl]
      refine .inr ⟨m', hrun, fun p hp hnone => ht.lookup_peek hk hp hnone, hhistory,
        fun hlen => ?_, fun other hother => ?_⟩
      · rw [hhistory, List.drop_eq_nil_of_le (by omega)]
      · rw [ht.lookup, ht.history, hother]
        exact ⟨rfl, rfl⟩
    · exact .inl hlimit

/-- After `x = 5` and two additions in a loop, the value two steps back is 5, and two reversals
bring it back. -/
theorem reversals_reach_traced_five : ∃ m m' m'', carryOut 1 Recall.first Recall.start = .ok () m ∧
    carryOut 2 Recall.adding m = .ok () m' ∧ m'.lookup (.ofText "x") = some (.int 8) ∧
    m'.history.peek (.ofText "x") 2 = .ok (some (.int 5)) ∧
    reverseTimes (.text "x") 2 m' = .ok () m'' ∧ m''.lookup (.ofText "x") = some (.int 5) := by
  have hruns : ∃ m m' m'', carryOut 1 Recall.first Recall.start = .ok () m ∧
      carryOut 2 Recall.adding m = .ok () m' ∧ m'.lookup (.ofText "x") = some (.int 8) ∧
      m'.history.peek (.ofText "x") 2 = .ok (some (.int 5)) ∧
      reverseTimes (.text "x") 2 m' = .ok () m'' :=
    ⟨_, _, _, by cbv, by cbv, by cbv, by cbv, by cbv⟩
  obtain ⟨m, m', m'', hfirst, hadding, hx, hpeek, hback⟩ := hruns
  have hn : Name.ofTree (.text "x") = .ok (.ofText "x") := rfl
  have hbound : (m'.lookup (.ofText "x")).isSome = true := by
    rw [hx]
    rfl
  obtain ⟨-, -, ⟨m₁, hlimit⟩ | ⟨m₁, hrun, hseen, -⟩⟩ :=
    reversals_reach_traced hn m' (by decide : 1 ≤ 2) fun _ _ _ => findPlace_of_contains hbound
  · cases hback.symm.trans hlimit
  · cases hback.symm.trans hrun
    exact ⟨m, m', m'', hfirst, hadding, hx, hpeek, hback,
      hseen (.int 5) hpeek (ne_none_of_whole? rfl)⟩

end Retrace
