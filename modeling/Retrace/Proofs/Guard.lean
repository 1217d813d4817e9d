import Retrace.Proofs.Evaluating
import Retrace.Proofs.Record
import Retrace.Run

/-!
# Guarded runs

Some properties are about everything that happens in a run and not about where it ends: that no name
is bound twice, or that no expression is evaluated that reads a certain name.  A run does not keep a
list of what happened in it, and a list would be a second account of the run that has to be shown to
fit.  But steps can be watched, and a watch may stop a run.

A *guard* is a watch that gives a run up at the first event that is not allowed.  If a guarded run
goes as the run without a guard goes, then all that happened was allowed; this is how a property of
everything that happens in a run is said (`Run.Throughout`).  It is an equation of two runs, so
nothing has to be added to machines.  That a run does come to its end is not a part of it: a run
that stops with a fault was allowed up to there.

A run may also be carried out by steps of another kind than `topLevel`, such as a guarded step, a
step that evaluates strictly, or a step in which each loop takes up its own `break`.
`Run.executeBy` is a run with the step left open, so that two ways to carry out a program are
compared statement by statement, and all that goes before and after the statements is the same in
both (`execute_eq_executeBy`).

The relations between machines that are needed for such comparisons are put here as well.

* `Machine.SameStore m m'` fixes what an expression can read: bindings, thunks, lists, and which
  names are eager.  It leaves open what only statements look at, namely the history, the clock, the
  account, the counts and what was written.  So it holds across all that a statement does besides
  binding a name, such as a prune or a printed line, and expressions have the same values on both
  sides.
* `Machine.Binds m name v m'` is the same with one name bound anew, and nothing written.  An
  assignment, a reversal and a loop that drives its variable differ in what they record and charge,
  and agree in this.

Whether a machine is `Fit` depends on its store and on what is recorded, so there is one lemma for
each of the two relations, and what they ask for is that the entries of the history are known.

* `Exec.guarded`: the guard, with what guarded steps do.
* `Run.Throughout`: every event of a run is allowed.
* `Run.statementsBy`, `Run.executeBy`: runs by steps of another kind.
* `Machine.withEager`: a new machine with its eager names.
* `Exec.Silent`: watches that may stop a step but change nothing.
-/

set_option autoImplicit false

namespace Retrace

/-- A new machine that has the given names eager. -/
def Machine.withEager (clock : Clock) (eager : List String) : Machine :=
  { Machine.new clock with profile := { eager } }

namespace Exec

/-- Gives a run up at an event that is not allowed. -/
def guarded (allowed : Event → Machine → Bool) : Watch := fun event => do
  if allowed event (← get) then return () else throw .outOfFuel

variable {allowed : Event → Machine → Bool} {m m' : Machine}

/-- A guard lets an event pass if it is allowed, and changes nothing. -/
theorem guarded_eq_ok {event : Event} :
    guarded allowed event m = .ok () m' ↔ allowed event m = true ∧ m' = m := by
  rw [guarded, bind_of_ok (get_apply m)]
  split
  · next h => simp [h, eq_comm]
  · next h => simp [h]

/-- A guarded evaluation is one that is allowed. -/
theorem evaluateWatched_guarded_eq_ok {e : Tree} {v : Value} :
    evaluateWatched (guarded allowed) e m = .ok v m' ↔
      allowed (.evaluation e) m = true ∧ evaluate e m = .ok v m' := by
  rw [evaluateWatched, bind_eq_ok]
  constructor
  · rintro ⟨_, mid, hg, he⟩
    obtain ⟨hallowed, rfl⟩ := guarded_eq_ok.1 hg
    exact ⟨hallowed, he⟩
  · rintro ⟨hallowed, he⟩
    exact ⟨(), m, guarded_eq_ok.2 ⟨hallowed, rfl⟩, he⟩

end Exec

/-- Every event of a run is allowed. -/
def Run.Throughout (allowed : Exec.Event → Machine → Bool) (n : Nat) (program : List Tree)
    (m : Machine) : Prop :=
  Run.statementsWatched (Exec.guarded allowed) n program m = Run.statements n program m

/-! ## Runs by steps of another kind

A run may be compared with one whose statements are carried out in another way, but which is put
together from them as every run is. -/

namespace Run

/-- Carries out statements by steps of a given kind, with the machine after each of them. -/
def statementsBy (step : Tree → Exec Unit) :
    List Tree → Machine → List Machine × Option Fault × Machine
  | [], m => ([], none, m)
  | t :: rest, m =>
    match step t m with
    | .ok _ m =>
      let (steps, fault?, final) := statementsBy step rest m
      (m :: steps, fault?, final)
    | .error e m => ([], some e, m)

/-- Carries out a program by steps of a given kind. -/
def executeBy (step : Tree → Exec Unit) (program : List Tree) (m : Machine) : Report :=
  match (do Exec.put .machine title; profile program : Exec Unit) m with
  | .error e m => { fault? := some e, steps := [], final := withCosts (some e) m }
  | .ok _ m =>
    let (steps, fault?, final) := statementsBy step program m
    { fault?, steps, final := withCosts fault? final }

variable {step step' : Tree → Exec Unit} {program : List Tree} {n : Nat} {m m' : Machine}

/-- Runs are runs by the steps of machines. -/
theorem statementsBy_topLevel (n : Nat) (program : List Tree) (m : Machine) :
    statementsBy (topLevel Exec.unwatched n) program m = statements n program m := by
  induction program generalizing m with
  | nil => rfl
  | cons t rest ih =>
    rw [statementsBy, statements, statementsWatched]
    cases topLevel Exec.unwatched n t m with
    | error e m => rfl
    | ok u m => simp only [ih, statements]

/-- Steps that agree on the statements of a program carry it out alike. -/
theorem statementsBy_congr (h : ∀ t ∈ program, step t = step' t) (m : Machine) :
    statementsBy step program m = statementsBy step' program m := by
  induction program generalizing m with
  | nil => rfl
  | cons t rest ih =>
    rw [statementsBy, statementsBy, h t (List.mem_cons_self ..)]
    simp only [ih fun u hu => h u (List.mem_cons_of_mem _ hu)]

/-- **A run is a run by its own steps,** and so by all steps that do the same. -/
theorem execute_eq_executeBy (h : ∀ t ∈ program, topLevel Exec.unwatched n t = step t)
    (m : Machine) : execute n program m = executeBy step program m := by
  have hsame (m : Machine) : statements n program m = statementsBy step program m := by
    rw [← statementsBy_topLevel, statementsBy_congr h]
  rw [execute, executeBy]
  cases (do Exec.put .machine title; profile program : Exec Unit) m with
  | error e m => rfl
  | ok u m => simp only [hsame]

/-- A run does what its statements do, once its names are counted. -/
theorem execute_of_profile
    (h : (do Exec.put .machine title; profile program : Exec Unit) m = .ok () m') :
    (execute n program m).fault? = (statements n program m').2.1 := by
  rw [execute, h]

theorem executeBy_of_profile
    (h : (do Exec.put .machine title; profile program : Exec Unit) m = .ok () m') :
    (executeBy step program m).fault? = (statementsBy step program m').2.1 := by
  rw [executeBy, h]

end Run

namespace Machine

variable {m m' : Machine} {reg : Nat → List Value}

/-- Between `m` and `m'` something was counted, charged, recorded or written. -/
structure SameStore (m m' : Machine) : Prop where
  bindings : m'.bindings = m.bindings
  heap : m'.heap = m.heap
  lists : m'.lists = m.lists
  profile : m'.profile = m.profile

theorem SameStore.lookup (h : m.SameStore m') (name : Name) : m'.lookup name = m.lookup name := by
  rw [Machine.lookup, h.bindings, Machine.lookup]

/-- What only statements look at may change, as long as the history is known. -/
theorem Fit.sameStore (h : m.Fit reg) (hs : m.SameStore m')
    (hrecorded : ∀ {name change}, change ∈ m'.history.of name → m.Holds reg change.old) :
    m'.Fit reg := by
  have hholds {v : Value} (hv : m.Holds reg v) : m'.Holds reg v := by
    rwa [Holds, hs.lists, hs.heap]
  constructor
  · rw [hs.lists]
    exact h.fresh
  · intro name v hv
    rw [hs.lookup] at hv
    exact hholds (h.bound hv)
  · intro id e v ht
    rw [hs.lists]
    exact h.worked (hs.heap ▸ ht)
  · intro name change hc
    exact hholds (hrecorded hc)

/-- What is recorded for a name may be anything that may stand in the machine. -/
theorem Fit.recorded_push (h : m.Fit reg) {name other : Name} {old : Value} {now : Int}
    {change : Change Value} (hold : m.Holds reg old)
    (hc : change ∈ (m.history.push name old now).of other) : m.Holds reg change.old := by
  rw [History.of_push] at hc
  split at hc
  · rcases List.mem_cons.1 hc with rfl | hc
    · exact hold
    · exact h.recorded hc
  · exact h.recorded hc

/-- A prune leaves no entries that were not there. -/
theorem Fit.recorded_prune (h : m.Fit reg) {keep now : Int} {name : Name} {change : Change Value}
    (hc : change ∈ (m.history.prune keep now).of name) : m.Holds reg change.old := by
  rw [History.of_prune] at hc
  split at hc
  · exact h.recorded (List.mem_filter.1 hc).1
  · exact h.recorded hc

theorem Fit.recorded_pop (h : m.Fit reg) {name other : Name} {change : Change Value}
    (hc : change ∈ (m.history.pop name).2.of other) : m.Holds reg change.old := by
  rw [History.of_pop] at hc
  split at hc
  · exact h.recorded (List.mem_of_mem_tail hc)
  · exact h.recorded hc

/-- Before a name is bound for the first time, there is nothing to record. -/
theorem Fit.lookup_getD (h : m.Fit reg) (name : Name) :
    m.Holds reg ((m.lookup name).getD .none) := by
  cases hv : m.lookup name with
  | none => exact .inl trivial
  | some v => exact h.bound hv

/-- `m'` is `m` with a name bound anew; apart from that nothing has changed but what is counted,
charged and recorded. -/
structure Binds (m : Machine) (name : Name) (v : Value) (m' : Machine) : Prop where
  bindings : m'.bindings = m.bindings.insert name v
  heap : m'.heap = m.heap
  lists : m'.lists = m.lists
  profile : m'.profile = m.profile
  pieces : m'.pieces = m.pieces

theorem Binds.lookup {name : Name} {v : Value} (h : m.Binds name v m') (other : Name) :
    m'.lookup other = if name == other then some v else m.lookup other := by
  rw [Machine.lookup, h.bindings, Table.get?_insert]
  rfl

/-- A name may be bound to anything that may stand in the machine. -/
theorem Fit.binds (h : m.Fit reg) {name : Name} {v : Value} (hb : m.Binds name v m')
    (hv : m.Holds reg v)
    (hrecorded : ∀ {name change}, change ∈ m'.history.of name → m.Holds reg change.old) :
    m'.Fit reg := by
  have hholds {v : Value} (hv : m.Holds reg v) : m'.Holds reg v := by
    rwa [Holds, hb.lists, hb.heap]
  constructor
  · rw [hb.lists]
    exact h.fresh
  · intro other w hw
    rw [hb.lookup] at hw
    split at hw
    · cases hw
      exact hholds hv
    · exact hholds (h.bound hw)
  · intro id e w ht
    rw [hb.lists]
    exact h.worked (hb.heap ▸ ht)
  · exact fun hc => hholds (hrecorded hc)

theorem printed_cons (h : m.printed = m'.printed) (piece : Piece) :
    printed { m with pieces := piece :: m.pieces } =
      printed { m' with pieces := piece :: m'.pieces } := by
  simp only [printed] at h ⊢
  rw [List.filter_cons, List.filter_cons]
  split
  · rw [List.map_cons, List.map_cons, h]
  · exact h

/-- Names are bound to thunks of the heap. -/
theorem Fit.thunk_lt (h : m.Fit reg) {name : Name} {id : Nat}
    (hv : m.lookup name = some (.thunk id)) : id < m.heap.size := by
  rcases h.bound hv with hc | ⟨_, hid, heq⟩
  · cases hc
  · cases heq
    exact hid

/-- A new machine is fit. -/
theorem fit_withEager (clock : Clock) (eager : List String) :
    (withEager clock eager).Fit fun _ => [] :=
  ⟨rfl, nofun, nofun, nofun⟩

/-- A thunk that was put off has no value that could be wrong. -/
theorem Fit.push (h : m.Fit reg) (e : Tree) :
    Fit { m with heap := m.heap.push { expression := e } } reg := by
  have hholds {v : Value} (hv : m.Holds reg v) :
      Holds { m with heap := m.heap.push { expression := e } } reg v :=
    hv.mono (fun _ _ => rfl) (Nat.le_refl _) (by simp)
  constructor
  · exact h.fresh
  · exact fun hv => hholds (h.bound hv)
  · intro id e' v ht
    change (m.heap.push { expression := e })[id]? = _ at ht
    rw [Array.getElem?_push] at ht
    split at ht
    · cases ht
    · exact h.worked ht
  · exact fun hc => hholds (h.recorded hc)

end Machine

namespace Exec

/-- Pruning shortens histories and may write a warning, which no `print` statement has written. -/
theorem prune_ok (m : Machine) : ∃ m', prune m = .ok () m' ∧ m.SameStore m' ∧
    m'.clock = m.clock.read.2 ∧
    m'.history = m.history.prune History.retention m.clock.read.1 ∧ m'.printed = m.printed := by
  let pruned : Machine := { m with
    clock := m.clock.read.2
    history := m.history.prune History.retention m.clock.read.1 }
  have hprune : prune m =
      (if footprintLimit < footprint (pruned.size pruned.lists) pruned.history then
        put .machine "Warning: Memory usage exceeded 50 MB\n" else pure ()) pruned := rfl
  rw [hprune]
  split
  · exact ⟨_, rfl, ⟨rfl, rfl, rfl, rfl⟩, rfl, rfl, rfl⟩
  · exact ⟨_, rfl, ⟨rfl, rfl, rfl, rfl⟩, rfl, rfl, rfl⟩

/-- A watch that changes nothing. -/
def Silent (watch : Watch) : Prop :=
  ∀ {event m m'}, watch event m = .ok () m' → m' = m

theorem silent_unwatched : Silent unwatched := by
  intro event m m' h
  cases h
  rfl

theorem silent_guarded (allowed : Event → Machine → Bool) : Silent (guarded allowed) :=
  fun h => (guarded_eq_ok.1 h).2

section Silent

variable {watch : Watch} (hw : Silent watch) {name : Name} {new : Value} {m m' : Machine}
include hw

/-- A binding that was let through. -/
theorem bindWatched_binds (h : bindWatched watch name new m = .ok () m') :
    watch (.binding name new) m = .ok () m ∧
      m' = { m with bindings := m.bindings.insert name new } := by
  obtain ⟨_, mid, hwatch, hbind⟩ := bind_eq_ok.1 h
  obtain rfl := hw hwatch
  exact ⟨hwatch, (bindName_eq_ok.1 hbind).2⟩

/-- What replacing a binding does, and what the watch was told of. -/
theorem replace_binds (h : replace watch name new m = .ok () m') :
    m.Binds name new m' ∧ m'.clock = m.clock.read.2 ∧
      m'.history = m.history.push name ((m.lookup name).getD .none) m.clock.read.1 ∧
      ∃ mid, mid.bindings = m.bindings ∧ mid.heap = m.heap ∧
        watch (.binding name new) mid = .ok () mid := by
  obtain ⟨memory, -, hbind⟩ := replace_eq_ok.1 h
  obtain ⟨hwatch, rfl⟩ := bindWatched_binds hw hbind
  refine ⟨⟨rfl, rfl, rfl, rfl, rfl⟩, rfl, rfl, _, ?_, ?_, hwatch⟩
  · rfl
  · rfl

end Silent

/-- If a name has a place, only the limit of the memory stands in the way of binding it. -/
theorem replace_ok {name : Name} {m : Machine} (new : Value)
    (hplace : Name.findPlace m.bindings name = .ok ()) :
    (∃ m', replace unwatched name new m = .ok () m') ∨
      ∃ m', replace unwatched name new m = .error .memoryExceeded m' := by
  cases hcharge : m.memory.charge (m.size m.lists new) with
  | ok memory =>
    exact .inl ⟨_, replace_eq_ok.2 ⟨memory, hcharge, bindName_eq_ok.2 ⟨hplace, rfl⟩⟩⟩
  | error e =>
    have hlimit : e = .memoryExceeded := by
      rw [Account.charge] at hcharge
      split at hcharge
      · cases hcharge
        rfl
      · cases hcharge
    subst hlimit
    have hfault : charge new m = .error .memoryExceeded m := by rw [charge_apply, hcharge]
    exact .inr ⟨m, by rw [replace, bind_of_ok (get_apply m), bind_of_error hfault]⟩

end Exec
end Retrace
