import Retrace.Proofs.Guard
import Retrace.Proofs.Observing
import Retrace.Proofs.Watching

/-!
# The moments of a run

A guard can stop a run at any event, and the machine that is left is the machine at that moment.  So
the moments of a run are the ends of guarded runs, and of two guards the one that allows less stops
at the earlier moment.  A moment need not be one at which a statement has come to its end; it may be
in the midst of a loop, or between two expressions of a print.

`Machine.Precedes m m'` says what is the same at all later moments: thunks that have a value keep
it, and lists have the items they had, with others behind them at most.  Every step keeps this.
That is not enough to compare two moments, though.  If both are inside of the same statement,
neither of them is the start of a step that leads to the other one.

What relates them is that one of two runs was stopped before the other.  If a step is stopped before
its end, the relation holds between the machine at which it was stopped and the one that the step
would have come to (`Exec.StopsShort`).  In a sequence the first part may be stopped, and then the
second part is still to come on the other side, where it keeps the relation; or both do the first
part alike and go on from one machine.  So `StopsShort` needs to know that the step keeps the
relation too, and with that it goes through all ways to put steps together.  It is an instance of
`Watching`, which makes it a fact about all statements.

The relation that the steps keep and the one that is claimed of the machine at which one was stopped
are two parameters.  Here both are `Machine.Precedes`, and the fault is that of a guard.

* `Machine.Precedes`: what is the same at later moments.
* `Exec.StopsShort`: a step that is stopped before another one.
* `Run.machineAt`: the machine at a moment of a run.
* `Run.machineAt_precedes`: of two moments of a run the earlier one precedes the later one.
-/

set_option autoImplicit false

namespace Retrace

/-! ## What lies between two moments -/

/-- `m'` may come later in a run than `m`. -/
structure Machine.Precedes (m m' : Machine) : Prop where
  /-- Thunks are kept, and so are their values. -/
  fills : Fills m.heap m'.heap
  /-- Lists grow at their ends only. -/
  grows : ∀ id, m.lists.addedTo id <+: m'.lists.addedTo id

/-- Only lists are extended, and all else is added without a change to the lists. -/
theorem Value.advance_grows {l l' : Lists} {u v step : Value}
    (h : u.advance l step = .ok (v, l')) (id : Nat) : l.addedTo id <+: l'.addedTo id := by
  have hsame {β : Type} {x : Except Fault β} {f : β → Value}
      (hx : (do return (f (← x), l)) = Except.ok (v, l')) : l' = l := by
    cases x with
    | error e => cases hx
    | ok b =>
      cases hx
      rfl
  unfold Value.advance at h
  split at h
  · next own items =>
    split at h
    · cases h
      rw [Lists.addedTo_extend]
      by_cases hid : own = id
      · rw [if_pos hid, hid]
        exact List.prefix_append ..
      · rw [if_neg hid]
    · cases h
  · split at h
    · rw [hsame h]
    · split at h
      · rw [hsame h]
      · cases h

namespace Exec

open Machine (Precedes Looks)

variable {α β σ : Type} {m m' : Machine}

/-- What was kept up to a moment is kept from there on. -/
theorem onward_precedes : Onward Precedes where
  refl _ := ⟨Fills.refl _, fun _ => List.prefix_refl _⟩
  trans h h' := ⟨h.fills.trans h'.fills, fun id => (h.grows id).trans (h'.grows id)⟩

theorem precedes_of_same (hheap : m'.heap = m.heap) (hlists : m'.lists = m.lists) :
    m.Precedes m' := by
  refine ⟨?_, fun id => ?_⟩
  · rw [hheap]
    exact Fills.refl _
  · rw [hlists]

theorem precedes_of_looks (h : m.Looks m') : m.Precedes m' := by
  refine ⟨h.fills, fun id => ?_⟩
  rw [Lists.addedTo, Lists.addedTo, h.added]

theorem modify_precedes {f : Machine → Machine} (hheap : ∀ m, (f m).heap = m.heap)
    (hlists : ∀ m, (f m).lists = m.lists) : Keeps Precedes (modify f : Exec Unit) :=
  keepsOn_of_apply (modify_apply f) fun m => precedes_of_same (hheap m) (hlists m)

theorem suspend_precedes (e : Tree) : Keeps Precedes (suspend e) :=
  keepsOn_of_apply (suspend_apply e) fun _ => ⟨Fills.push _ _, fun _ => List.prefix_refl _⟩

theorem remember_precedes (name : Name) (old : Value) : Keeps Precedes (remember name old) :=
  keepsOn_of_apply (remember_apply name old) fun _ => precedes_of_same rfl rfl

theorem takeBack_precedes (name : Name) : Keeps Precedes (takeBack name) :=
  keepsOn_of_apply (takeBack_apply name) fun _ => precedes_of_same rfl rfl

theorem charge_precedes (v : Value) : Keeps Precedes (charge v) := by
  refine keepsOn_bind onward_precedes (keepsOn_get onward_precedes) fun m => ?_
  refine keepsOn_bind onward_precedes (keepsOn_ofExcept onward_precedes _) fun memory => ?_
  exact modify_precedes (fun _ => rfl) fun _ => rfl

theorem credit_precedes (v : Value) : Keeps Precedes (credit v) :=
  keepsOn_of_apply (credit_apply v) fun _ => precedes_of_same rfl rfl

theorem bind_precedes (name : Name) (v : Value) : Keeps Precedes (bind name v) := by
  refine keepsOn_bind onward_precedes (keepsOn_get onward_precedes) fun m => ?_
  refine keepsOn_bind onward_precedes (keepsOn_ofExcept onward_precedes _) fun _ => ?_
  exact modify_precedes (fun _ => rfl) fun _ => rfl

/-- A loop that goes on with a list extends it at its end. -/
theorem advance_precedes (v stride : Value) : Keeps Precedes (advance unwatched v stride) := by
  have hwatch : Keeps Precedes (watchExtension unwatched v) := by
    cases v <;> exact keepsOn_pure onward_precedes ()
  refine keepsOn_bind onward_precedes hwatch fun _ => keepsOn_get_bind ?_ ?_
  · intro m m' w h
    obtain ⟨⟨u, lists⟩, mid, hsum, hrest⟩ := bind_eq_ok.1 h
    obtain ⟨hadvance, rfl⟩ := ofExcept_eq_ok.1 hsum
    cases hrest
    exact ⟨Fills.refl _, Value.advance_grows hadvance⟩
  · intro m m' e _ h
    cases hadvance : v.advance m.lists stride with
    | ok _ =>
      rw [hadvance] at h
      cases h
    | error _ =>
      rw [hadvance] at h
      cases h
      exact onward_precedes.refl m

theorem prune_precedes : Keeps Precedes prune := by
  constructor
  · intro m m' _ h
    obtain ⟨m₁, hprune, hstore, -⟩ := prune_ok m
    cases hprune.symm.trans h
    exact precedes_of_same hstore.heap hstore.lists
  · intro m m' e _ h
    obtain ⟨m₁, hprune, -⟩ := prune_ok m
    cases hprune.symm.trans h

/-! ## Steps that are stopped -/

theorem Keeps.machineAfter {R : Machine → Machine → Prop} {x : Exec α} (hx : Keeps R x)
    (m : Machine) : R m (machineAfter (x m)) := by
  cases h : x m with
  | ok a m' => exact hx.ok h
  | error e m' => exact hx.error trivial h

/-- The step `x` is the step `y`, or it is stopped on the way by the fault; then `S` holds between
the machine at which it is stopped and the machine that `y` leaves. -/
structure StopsShort (e : Fault) (R S : Machine → Machine → Prop) (x y : Exec α) : Prop where
  keeps : Keeps R y
  stops : ∀ m, x m = y m ∨ ∃ mid, x m = .error e mid ∧ S mid (machineAfter (y m))

/-- A step is not stopped before itself. -/
theorem stopsShort_refl {e : Fault} {R S : Machine → Machine → Prop} {x : Exec α}
    (hx : Keeps R x) : StopsShort e R S x x :=
  ⟨hx, fun _ => .inl rfl⟩

/-- If the first of two steps is stopped, the second one is still to come. -/
theorem stopsShort_bind {e : Fault} {R S : Machine → Machine → Prop} (hR : Onward R)
    (hS : ∀ a b c, S a b → R b c → S a c) {x y : Exec α} {f g : α → Exec β}
    (hx : StopsShort e R S x y) (hf : ∀ a, StopsShort e R S (f a) (g a)) :
    StopsShort e R S (x >>= f) (y >>= g) := by
  refine ⟨keepsOn_bind hR hx.keeps fun a => (hf a).keeps, fun m => ?_⟩
  rcases hx.stops m with hsame | ⟨mid, hstop, hmid⟩
  · rw [bind_apply, bind_apply, hsame]
    cases hy : y m with
    | ok a m' => exact (hf a).stops m'
    | error e m' => exact .inl rfl
  · refine .inr ⟨mid, bind_of_error hstop, ?_⟩
    rw [bind_apply]
    cases hy : y m with
    | ok a m' =>
      rw [hy] at hmid
      exact hS _ _ _ hmid ((hf a).keeps.machineAfter m')
    | error e m' =>
      rw [hy] at hmid
      exact hmid

/-- Of two guards the one that allows less stops first. -/
theorem stopsShort_guarded {R : Machine → Machine → Prop} (hR : Onward R)
    {allowed allowed' : Event → Machine → Bool}
    (h : ∀ event m, allowed event m = true → allowed' event m = true) (event : Event) :
    StopsShort .outOfFuel R R (guarded allowed event) (guarded allowed' event) := by
  have hkeeps : Keeps R (guarded allowed' event) :=
    keepsOn_bind hR (keepsOn_get hR) fun m => keepsOn_ite (keepsOn_pure hR _) (keepsOn_throw hR _)
  refine ⟨hkeeps, fun m => ?_⟩
  by_cases hevent : allowed event m = true
  · left
    rw [guarded_eq_ok.2 ⟨hevent, rfl⟩, guarded_eq_ok.2 ⟨h event m hevent, rfl⟩]
  · refine .inr ⟨m, ?_, hkeeps.machineAfter m⟩
    rw [guarded, bind_of_ok (get_apply m), if_neg hevent, throw_apply]

/-- A statement that a guard stops has come to a moment of the statement that it does not stop. -/
theorem watching_precedes {allowed allowed' : Event → Machine → Bool}
    (h : ∀ event m, allowed event m = true → allowed' event m = true) :
    Watching (StopsShort .outOfFuel Precedes Precedes) (guarded allowed) (guarded allowed') where
  bind := stopsShort_bind (S := Precedes) onward_precedes fun _ _ _ => onward_precedes.trans
  watched := stopsShort_guarded onward_precedes h
  looking hx := stopsShort_refl (hx.mono (fun _ _ => trivial) fun _ _ => precedes_of_looks)
  countAssignment := stopsShort_refl (modify_precedes (fun _ => rfl) fun _ => rfl)
  countReversal := stopsShort_refl (modify_precedes (fun _ => rfl) fun _ => rfl)
  put _ _ := stopsShort_refl (modify_precedes (fun _ => rfl) fun _ => rfl)
  suspend e := stopsShort_refl (suspend_precedes e)
  charge v := stopsShort_refl (charge_precedes v)
  credit v := stopsShort_refl (credit_precedes v)
  remember name old := stopsShort_refl (remember_precedes name old)
  takeBack name := stopsShort_refl (takeBack_precedes name)
  binding name v := stopsShort_refl (bind_precedes name v)
  extending v stride := stopsShort_refl (advance_precedes v stride)
  prune := stopsShort_refl prune_precedes

end Exec

/-! ## Runs -/

namespace Run

open Exec

variable {m : Machine} {allowed allowed' : Event → Machine → Bool}

/-- The machine at the first moment of a run at which something happens that is not allowed, or at
its end. -/
def machineAt (allowed : Event → Machine → Bool) (n : Nat) (program : List Tree) (m : Machine) :
    Machine :=
  (statementsWatched (guarded allowed) n program m).2.2

theorem machineAt_cons (n : Nat) (t : Tree) (rest : List Tree) :
    machineAt allowed n (t :: rest) m = match topLevel (guarded allowed) n t m with
      | .ok _ m' => machineAt allowed n rest m'
      | .error _ m' => m' := by
  rw [machineAt, statementsWatched]
  cases topLevel (guarded allowed) n t m <;> rfl

/-- The start of a run precedes all its moments. -/
theorem precedes_machineAt (n : Nat) (program : List Tree) (m : Machine) :
    m.Precedes (machineAt allowed n program m) := by
  have hw := watching_precedes fun (event : Event) m (h : allowed event m = true) => h
  induction program generalizing m with
  | nil => exact onward_precedes.refl m
  | cons t rest ih =>
    have hstep := (hw.topLevel n t).keeps.machineAfter m
    rw [machineAt_cons]
    cases htop : topLevel (guarded allowed) n t m with
    | ok _ m' =>
      rw [htop] at hstep
      exact onward_precedes.trans hstep (ih m')
    | error e m' =>
      rw [htop] at hstep
      exact hstep

/-- **Of two moments of a run the earlier one precedes the later one.**  They may lie in the midst
of statements, wherever a guard can stop the run. -/
theorem machineAt_precedes (h : ∀ event m, allowed event m = true → allowed' event m = true)
    (n : Nat) {first program : List Tree} (hfirst : first <+: program) (m : Machine) :
    (machineAt allowed n first m).Precedes (machineAt allowed' n program m) := by
  obtain ⟨rest, rfl⟩ := hfirst
  induction first generalizing m with
  | nil => exact precedes_machineAt n rest m
  | cons t first ih =>
    rw [List.cons_append, machineAt_cons, machineAt_cons]
    rcases ((watching_precedes h).topLevel n t).stops m with hsame | ⟨mid, hstop, hmid⟩
    · rw [hsame]
      cases htop : topLevel (guarded allowed') n t m with
      | ok _ m' => exact ih m'
      | error e m' => exact onward_precedes.refl m'
    · rw [hstop]
      cases htop : topLevel (guarded allowed') n t m with
      | ok _ m' =>
        rw [htop] at hmid
        exact onward_precedes.trans hmid (precedes_machineAt n (first ++ rest) m')
      | error e m' =>
        rw [htop] at hmid
        exact hmid

end Run
end Retrace
