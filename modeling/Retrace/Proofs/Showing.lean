import Retrace.Proofs.Closure
import Retrace.Proofs.Tracing

/-!
# What a `revtrace` shows

Behind its colon a `revtrace` shows the entry of a history that reversals would put in place.  If
the entry is data, this is what the variable would be worth afterwards.  If it is a thunk, the
variable would be worth what comes of the thunk, but a `revtrace` asks no thunk for its value: it
shows all thunks alike.

Which of the two it is depends on the variable.  Plain assignments bind an eager name to data, and
so do loops and compound assignments, so that nothing but data ever gets into the history of an
eager name.  For a name that is not eager both occur, and no more can be said than that it is one of
them.

That eager names hold data is an invariant of runs (`Machine.Prompt`), which adds to what is known
of all variables.  It cannot be kept alone: a reversal puts back what stands in the history, so the
history has to hold data as well, and a loop over a list binds its variable to the items of the
list, which have to be data.  So it is built on the invariant that says this of lists and of all
values that expressions come to, as another instance of the same structure with one more condition
on what may be stored (`Value.PromptFor`).

What a variable is worth after reversals is said by reversing it, as often as the position tells,
and evaluating it then (`Machine.ShowsValue`).  The reversals may exceed the memory, and then there
is no value to compare with.

* `Machine.Reports`: a `revtrace` finds an entry and shows it; `Machine.reports_iff` says when.
* `Machine.Prompt`: eager names hold data, now and in their histories.
* `promptness`: that is an invariant of runs.
* `Machine.ShowsEntries`: how the text behind the colon relates to the value after reversals.
* `showsEntries_of_run`: it is so everywhere in a run.
-/

set_option autoImplicit false

namespace Retrace

open Exec
open Phrase (Statement)

/-! ## Reports -/

/-- On the machine, `revtrace x k` reports a state, with the text `s` behind the colon. -/
def Machine.Reports (m : Machine) (x : String) (k : Nat) (s : String) : Prop :=
  ∃ m', carryOut 1 (.revtrace (.text x) (.int k)) m = .ok () m' ∧
    m'.pieces = ⟨.revtrace, "Reverse Tracepath state " ++ toString (k : Int) ++ " of " ++ x ++
      ": " ++ s ++ "\n"⟩ :: m.pieces

/-- Two results that may be faults, one after the other, are good if both are. -/
theorem except_bind_eq_ok {α β : Type} {r : Except Fault α} {f : α → Except Fault β} {b : β} :
    (r >>= f) = .ok b ↔ ∃ a, r = .ok a ∧ f a = .ok b := by
  cases r with
  | ok a =>
    constructor
    · intro h
      exact ⟨a, rfl, h⟩
    · rintro ⟨_, ha, h⟩
      cases ha
      exact h
  | error fault =>
    constructor
    · intro h
      cases h
    · rintro ⟨_, ha, -⟩
      cases ha

theorem History.peekAt_int {α : Type} (h : History α) (name : Name) (k : Int) :
    h.peekAt name (.int k) = h.peek name k := by
  rw [peekAt]
  cases hc : h.changes.get? name with
  | none => rw [peek, hc]
  | some changes => rfl

theorem View.shown_int (k : Int) : (View.int k).shown = (numeral k).map Text.plain := by
  show (do return Text.plain (← write "" (.int k))) = _
  rw [write]
  cases numeral k with
  | error fault => rfl
  | ok s =>
    show Except.ok (Text.plain ("" ++ s)) = .ok (.plain s)
    rw [String.empty_append]

/-- A number is shown unless it is too long. -/
theorem View.numeral_eq_ok {k : Nat} {s : String} :
    numeral k = .ok s ↔ k < digitLimit ∧ s = toString (k : Int) := by
  rw [numeral, Int.natAbs_natCast]
  split
  · next hk => simp [hk, eq_comm]
  · next hk => simp [hk]

namespace Machine

/-- What is written about a position that is given as a whole number. -/
theorem traced_int (m : Machine) (x : String) (k : Int) :
    m.traced (.text x) (.int k) = (do
      let old ← m.history.peek (.ofText x) k
      let place ← View.numeral k
      match old.filter fun v => !v.isNone with
      | some v =>
        let s ← (m.lists.view v).shown
        return "Reverse Tracepath state " ++ place ++ " of " ++ x ++ ": " ++ s.display ++ "\n"
      | none => return "No state found for " ++ x ++ " at index " ++ place ++ "\n") := by
  have hname : Name.ofTree (.text x) = .ok (.ofText x) := rfl
  have hview : m.lists.view (.int k) = .int k := rfl
  rw [traced, hname, hview]
  show (m.history.peekAt (.ofText x) (.int k) >>= _) = _
  rw [History.peekAt_int, View.shown_int]
  cases View.numeral k <;> rfl

theorem reports_iff_traced (m : Machine) (x : String) (k : Nat) (s : String) :
    m.Reports x k s ↔ m.traced (.text x) (.int k) =
      .ok ("Reverse Tracepath state " ++ toString (k : Int) ++ " of " ++ x ++ ": " ++ s ++
        "\n") := by
  have happly : carryOut 1 (.revtrace (.text x) (.int k)) m =
      (ofExcept (m.traced (.text x) (.int k)) >>= put .revtrace)
        { m with evaluations := m.evaluations + 1 } := by
    rw [carryOut_revtrace, revtrace_apply]
    rfl
  rw [Reports, happly]
  cases m.traced (.text x) (.int k) with
  | error fault =>
    constructor
    · rintro ⟨_, h, -⟩
      cases h
    · nofun
  | ok text =>
    constructor
    · rintro ⟨m', h, hpieces⟩
      cases h
      cases hpieces
      rfl
    · rintro h
      cases h
      exact ⟨_, rfl, rfl⟩

/-- A state is reported if there is an entry at the position that is not nothing, and if both can be
shown. -/
theorem reports_iff (m : Machine) (x : String) (k : Nat) (s : String) : m.Reports x k s ↔
    k < View.digitLimit ∧ ∃ p t, m.history.peek (.ofText x) k = .ok (some p) ∧
      p ≠ .none ∧ (m.lists.view p).shown = .ok t ∧ t.display = s := by
  rw [reports_iff_traced, traced_int]
  simp only [except_bind_eq_ok, View.numeral_eq_ok]
  constructor
  · rintro ⟨old, hold, _, ⟨hk, rfl⟩, h⟩
    cases hf : old.filter fun v => !v.isNone with
    | none =>
      rw [hf] at h
      -- the two texts begin differently
      have htexts := congrArg String.toList (Except.ok.inj h)
      simp at htexts
    | some p =>
      rw [hf] at h
      obtain ⟨t, ht, htext⟩ := except_bind_eq_ok.1 h
      obtain ⟨rfl, hnone⟩ := Option.filter_eq_some_iff.1 hf
      refine ⟨hk, p, t, hold, ?_, ht, ?_⟩
      · rintro rfl
        cases hnone
      · have hsame := Except.ok.inj htext
        rwa [String.append_left_inj, String.append_right_inj] at hsame
  · rintro ⟨hk, p, t, hp, hnone, ht, rfl⟩
    refine ⟨some p, hp, _, ⟨hk, rfl⟩, ?_⟩
    rw [Option.filter_some, isNone_eq_false hnone]
    exact except_bind_eq_ok.2 ⟨t, ht, rfl⟩

end Machine

/-! ## Values after reversals -/

/-- After `k` reversals of `x`, if the limit of the memory is not reached, the variable has a value
that is shown as `s`. -/
def Machine.ShowsValue (m : Machine) (x : String) (k : Nat) (s : String) : Prop :=
  (∃ m', reverseTimes (.text x) k m = .error .memoryExceeded m') ∨
    ∃ m' v m'', reverseTimes (.text x) k m = .ok () m' ∧ evaluate (.text x) m' = .ok v m'' ∧
      shown v m'' = .ok s m''

/-- A variable that is bound to data has the data for its value. -/
theorem Exec.evaluate_of_isData {m : Machine} {x : String} {p : Value} (hx : isLiteral x = false)
    (hlookup : m.lookup (.ofText x) = some p) (hp : p.isData = true) :
    evaluate (.text x) m = .ok p { m with evaluations := m.evaluations + 1 } := by
  have hcounted : Machine.lookup { m with evaluations := m.evaluations + 1 } (.ofText x) =
      some p := hlookup
  rw [evaluate, bind_of_ok (get_apply m), evaluateWith, bind_of_ok (countEvaluation_apply m), hx]
  refine (bind_of_ok (get_apply _)).trans ?_
  rw [hcounted]
  cases p with
  | thunk id => cases hp
  | _ => rfl

theorem Exec.shown_of_ok {m : Machine} {v : Value} {t : Text}
    (h : (m.lists.view v).shown = .ok t) : shown v m = .ok t.display m := by
  rw [shown, bind_of_ok (view_apply v m), h]
  rfl

/-- Data is shown as the value that reversals bring back. -/
theorem Machine.Reports.showsValue {m : Machine} {x s : String} {k : Nat} {p : Value}
    (h : m.Reports x k s) (hplace : Name.findPlace m.bindings (.ofText x) = .ok ())
    (hx : isLiteral x = false) (hk : 1 ≤ k) (hp : m.history.peek (.ofText x) k = .ok (some p))
    (hdata : p.isData = true) : m.ShowsValue x k s := by
  obtain ⟨-, _, t, hp', hnone, ht, rfl⟩ := (m.reports_iff x k s).1 h
  cases hp.symm.trans hp'
  have hn : Name.ofTree (.text x) = .ok (.ofText x) := rfl
  rcases reverseTimes_takesBack hn k (fun _ _ _ => hplace) with ⟨m', hrun, htakes⟩ | hlimit
  · have hlookup := htakes.lookup_peek hk hp hnone
    refine .inr ⟨m', p, _, hrun, evaluate_of_isData hx hlookup hdata, shown_of_ok ?_⟩
    show (m'.lists.view p).shown = .ok t
    rw [htakes.lists, ht]
  · exact .inl hlimit

/-- All thunks are shown alike. -/
theorem Machine.Reports.eq_of_thunk {m : Machine} {x s : String} {k id : Nat}
    (h : m.Reports x k s) (hp : m.history.peek (.ofText x) k = .ok (some (.thunk id))) :
    s = "<LazyEval>" := by
  obtain ⟨-, _, t, hp', -, ht, rfl⟩ := (m.reports_iff x k s).1 h
  cases hp.symm.trans hp'
  cases ht
  rfl

/-! ## Eager names -/

/-- A machine that holds nothing but what a run of the program may bring about.  Its eager names are
those given, and they hold data, now and in their histories. -/
structure Machine.Prompt (program : List Statement) (eager : List String) (m : Machine) :
    Prop where
  closed : m.Closed program
  profile : m.profile.eager = eager
  bound : ∀ {x : String} {v : Value}, x ∈ eager → m.lookup (.ofText x) = some v → v.isData = true
  recorded : ∀ {x : String} {change : Change Value}, x ∈ eager →
    change ∈ m.history.of (.ofText x) → change.old.isData = true

/-- The value may be held by the variable: it is data if the variable is eager. -/
def Value.PromptFor (program : List Statement) (eager : List String) (name : Name)
    (heap : Array Thunk) (v : Value) : Prop :=
  v.Storable program heap ∧ ∀ x ∈ eager, (name == .ofText x) = true → v.isData = true

namespace Machine.Prompt

variable {program : List Statement} {eager : List String} {m : Machine}
variable (hm : m.Prompt program eager)
include hm

/-- A name of the program that is not eager is none of the eager ones. -/
theorem not_eager {name : Name} {x : String} (hname : Statement.Binds program name)
    (hlazy : m.isEager name = false) (hx : x ∈ eager) : (name == .ofText x) = false := by
  obtain ⟨_, y, -, -, rfl⟩ := hname
  have hy : y ∉ eager := by simpa [Machine.isEager, Name.ofText, Name.text?, hm.profile] using hlazy
  show (Name.Key.text y == .text x) = false
  refine beq_eq_false_iff_ne.2 fun hyx => hy ?_
  rw [Name.Key.text.inj hyx]
  exact hx

theorem bind {name : Name} {v : Value}
    (hname : Statement.Binds program name ∨ (m.lookup name).isSome = true)
    (hv : v.PromptFor program eager name m.heap) :
    Prompt program eager { m with bindings := m.bindings.insert name v } where
  closed := hm.closed.bind hname hv.1
  profile := hm.profile
  bound {x w} hx hw := by
    rw [Machine.lookup, Table.get?_insert] at hw
    split at hw
    · next hn =>
      cases hw
      exact hv.2 x hx hn
    · exact hm.bound hx hw
  recorded := hm.recorded

/-- Only the part of the machine that holds values matters. -/
theorem with_closed {m' : Machine} (hclosed : m'.Closed program)
    (hbindings : m'.bindings = m.bindings) (hhistory : m'.history = m.history)
    (hprofile : m'.profile = m.profile) : m'.Prompt program eager where
  closed := hclosed
  profile := hprofile ▸ hm.profile
  bound hx hv := by
    rw [Machine.lookup, hbindings] at hv
    exact hm.bound hx hv
  recorded hx hc := by
    rw [hhistory] at hc
    exact hm.recorded hx hc

end Machine.Prompt

/-- **That eager names hold data is an invariant** of all runs of the program. -/
def promptness (program : List Statement) (eager : List String) : Invariant :=
  { closure program with
    holds := Machine.Prompt program eager
    stored := Value.PromptFor program eager
    value_added := fun hm => (closure program).value_added hm.closed
    value_worked := fun hm => (closure program).value_worked hm.closed
    value_result := fun hm => (closure program).value_result hm.closed
    value_successor := fun hm => (closure program).value_successor hm.closed
    value_of_stored := fun {name heap v} h =>
      (closure program).value_of_stored (show (closure program).stored name heap v from h.1)
    stored_congr := fun hn h => ⟨h.1, fun x hx hother => h.2 x hx (BEq.trans hn hother)⟩
    stored_value := fun hv => ⟨.inl hv, fun _ _ _ => hv⟩
    stored_thunk := by
      intro m name e hm hname hlazy he
      refine ⟨(closure program).stored_thunk hm.closed hname hlazy he, fun x hx hn => ?_⟩
      rw [hm.not_eager hname hlazy hx] at hn
      cases hn
    stored_bound := fun {m name v} hm hv => by
      refine ⟨hm.closed.bound hv, fun x hx hn => hm.bound hx ?_⟩
      rwa [← m.lookup_congr hn]
    stored_recorded := fun {m name change} hm hc => by
      refine ⟨hm.closed.recorded hc, fun x hx hn => hm.recorded hx ?_⟩
      rwa [← m.history.of_congr hn]
    holds_congr := fun hm hb hh ha hl hp =>
      hm.with_closed (hm.closed.congr hb hh ha hl) hb hl hp
    holds_bind := fun hm => hm.bind
    holds_history := fun hm hh =>
      ⟨(closure program).holds_history hm.closed fun hc => (hh hc).1, hm.profile, hm.bound,
        fun hx hc => (hh hc).2 _ hx BEq.rfl⟩
    holds_suspend := fun hm he =>
      hm.with_closed ((closure program).holds_suspend hm.closed he) rfl rfl rfl
    holds_settle := fun hm hv =>
      hm.with_closed ((closure program).holds_settle hm.closed hv) rfl rfl rfl
    value_advance := fun hm hu hstep h => by
      obtain ⟨hw, hclosed⟩ := (closure program).value_advance hm.closed hu hstep h
      exact ⟨hw, hm.with_closed hclosed rfl rfl rfl⟩ }

/-! ## Runs -/

/-- Among the variables of a program every text has a place. -/
theorem Machine.Closed.findPlace {program : List Statement} {m : Machine} (hm : m.Closed program)
    (x : String) : Name.findPlace m.bindings (.ofText x) = .ok () := by
  unfold Name.findPlace
  split
  · rfl
  · next first v rest hentries =>
    have hfirst : first ∈ m.bindings.keys := by
      rw [Table.keys, hentries]
      exact List.mem_cons_self ..
    obtain ⟨_, y, -, -, rfl⟩ := hm.keys first hfirst
    rfl

/-- If a `revtrace` reports a state, then the entry that it has found is data, and what it shows is
what the variable would have for its value after so many reversals; or the entry is a thunk, and it
shows what it shows of every thunk.  With an eager name it is data. -/
def Machine.ShowsEntries (eager : List String) (m : Machine) : Prop :=
  ∀ x k s, isLiteral x = false → 1 ≤ k → m.Reports x k s →
    ∃ p, m.history.peek (.ofText x) k = .ok (some p) ∧
      (p.isData = true ∧ m.ShowsValue x k s ∨ (∃ id, p = .thunk id) ∧ s = "<LazyEval>") ∧
      (x ∈ eager → p.isData = true)

/-- On such a machine a `revtrace` shows data as what the variable would be worth, and thunks alike.
-/
theorem Machine.Prompt.showsEntries {program : List Statement} {eager : List String} {m : Machine}
    (hm : m.Prompt program eager) : m.ShowsEntries eager := by
  intro x k s hx hk h
  obtain ⟨-, p, _, hp, -⟩ := (m.reports_iff x k s).1 h
  obtain ⟨change, hc, rfl⟩ := History.peek_eq_some hk hp
  have hrecorded := List.mem_of_getElem? hc
  refine ⟨change.old, hp, ?_, fun hmem => hm.recorded hmem hrecorded⟩
  rcases hm.closed.recorded hrecorded with hdata | ⟨id, _, hthunk, -, -⟩
  · exact .inl ⟨hdata, h.showsValue (hm.closed.findPlace x) hx hk hp hdata⟩
  · rw [hthunk] at hp
    exact .inr ⟨⟨id, hthunk⟩, h.eq_of_thunk hp⟩

/-- **A `revtrace` shows the value that reversals bring back, unless that is a thunk.**  This is so
everywhere in the run of a proper program, whatever names are eager, for all variables and all
positions.  Thunks are shown alike, whatever their values; of an eager name there are none. -/
theorem showsEntries_of_run (program : List Statement)
    (hproper : Statement.areProper program = true) (clock : Clock) (eager : List String) (n : Nat) :
    Run.Everywhere (Machine.ShowsEntries eager) n (Statement.trees program)
        (.withEager clock eager) ∧
      (∀ m' ∈ (Run.statements n (Statement.trees program) (.withEager clock eager)).1,
        m'.ShowsEntries eager) ∧
      (Run.statements n (Statement.trees program) (.withEager clock eager)).2.2.ShowsEntries
        eager := by
  have hnew : (Machine.withEager clock eager).Prompt program eager :=
    ⟨Machine.closed_withEager program clock eager, rfl, nofun, nofun⟩
  exact (promptness program eager).everywhere_of (fun m hm => hm.showsEntries) n
    (runs_of_proper hproper) hnew

namespace Showing

/-- `x = "a"` and `x = "b"` -/
def letters : List Statement :=
  [.assign "x" (.literal (.string "\"a\"")), .assign "x" (.literal (.string "\"b\""))]

/-- `x = 1` and `x = 2` -/
def numbers : List Statement :=
  [.assign "x" (.literal (.int 1)), .assign "x" (.literal (.int 2))]

end Showing

theorem one_lt_digitLimit : 1 < View.digitLimit := by
  unfold View.digitLimit
  -- the power is not to be worked out
  generalize hb : 4300 = b
  exact Nat.one_lt_pow (by omega) (by decide)

/-- With `x` eager, its former value is shown, and it is the value after one reversal. -/
theorem showsEntries_of_letters : Statement.areProper Showing.letters = true ∧
    ∃ m, (Run.statements 1 (Statement.trees Showing.letters) (.withEager {} ["x"])).2.2 = m ∧
      m.Reports "x" 1 "\"a\"" ∧ m.ShowsValue "x" 1 "\"a\"" := by
  have hproper : Statement.areProper Showing.letters = true := by decide
  have hname : isLiteral "x" = false := by cbv
  have hfinal : ∃ m, (Run.statements 1 (Statement.trees Showing.letters)
      (.withEager {} ["x"])).2.2 = m ∧
      m.history.peek (.ofText "x") 1 = .ok (some (.text (.plain "\"a\""))) := ⟨_, by cbv, by cbv⟩
  obtain ⟨m, hm, hpeek⟩ := hfinal
  have hsomething : Value.text (.plain "\"a\"") ≠ .none := by
    intro h
    cases h
  have hreports : m.Reports "x" 1 "\"a\"" :=
    (m.reports_iff "x" 1 _).2 ⟨one_lt_digitLimit, _, _, hpeek, hsomething, rfl, rfl⟩
  obtain ⟨-, -, hshows⟩ := showsEntries_of_run Showing.letters hproper {} ["x"] 1
  rw [hm] at hshows
  obtain ⟨p, hp, ⟨-, hvalue⟩ | ⟨⟨id, hthunk⟩, -⟩, -⟩ :=
    hshows "x" 1 _ hname (by decide) hreports
  · exact ⟨hproper, m, hm, hreports, hvalue⟩
  · cases hthunk
    cases hpeek.symm.trans hp

/-- With no name eager, a thunk is shown in the place of the number 1 that one reversal brings
back. -/
theorem not_showsValue_of_numbers :
    ∃ m, (Run.statements 1 (Statement.trees Showing.numbers) (.withEager {} [])).2.2 = m ∧
      m.Reports "x" 1 "<LazyEval>" ∧ m.ShowsValue "x" 1 "1" ∧
      ¬ m.ShowsValue "x" 1 "<LazyEval>" := by
  have hruns : ∃ m m' m'', (Run.statements 1 (Statement.trees Showing.numbers)
      (.withEager {} [])).2.2 = m ∧
      m.history.peek (.ofText "x") 1 = .ok (some (.thunk 0)) ∧
      reverseTimes (.text "x") 1 m = .ok () m' ∧
      evaluate (.text "x") m' = .ok (.int 1) m'' := ⟨_, _, _, by cbv, by cbv, by cbv, by cbv⟩
  obtain ⟨m, m', m'', hm, hpeek, hback, hvalue⟩ := hruns
  have hthunk : Value.thunk 0 ≠ .none := by
    intro h
    cases h
  have hreports : m.Reports "x" 1 "<LazyEval>" :=
    (m.reports_iff "x" 1 _).2 ⟨one_lt_digitLimit, _, _, hpeek, hthunk, rfl, rfl⟩
  have hone : shown (.int 1) m'' = .ok "1" m'' := by
    have hnumeral : View.numeral 1 = .ok "1" := View.numeral_eq_ok.2 ⟨one_lt_digitLimit, rfl⟩
    have hshown : (m''.lists.view (.int 1)).shown = .ok (.plain "1") := by
      show (View.int 1).shown = _
      rw [View.shown_int, hnumeral]
      rfl
    exact shown_of_ok hshown
  refine ⟨m, hm, hreports, .inr ⟨m', .int 1, m'', hback, hvalue, hone⟩, ?_⟩
  rintro (⟨m₁, hlimit⟩ | ⟨m₁, v, m₂, hback', hvalue', hshown⟩)
  · cases hback.symm.trans hlimit
  · cases hback.symm.trans hback'
    cases hvalue.symm.trans hvalue'
    have htexts := (EStateM.Result.ok.inj (hone.symm.trans hshown)).1
    exact absurd htexts (by decide)

end Retrace
