import Retrace.Proofs.Combining
import Retrace.Proofs.Undo

/-!
# Assignments that fail

An assignment first works out what it needs, then makes an entry in the history of its variable, and
then binds the variable.  What fails before the entry leaves the variables and all histories as they
were.  A plain assignment needs a place for its variable only after the entry, and a compound
assignment finds out only then whether it has two whole numbers to combine.  If that fails, the
entry stays, though nothing was assigned.

To say this of all assignments, the moment of the entry has to be named.  So an assignment is taken
apart into what is done before it and what is done after it, and `carryOut_assignment_eq` says that
the two parts with the entry in between are the assignment.  Both kinds of assignment have the same
three parts, and after that equation they are treated as one.

Which of the two parts fails is decided before the entry is made: the first part ends with all that
the second one needs, namely the name, the value that is to be recorded, and the new value or the
operand.  `Assignment.Stumbles` is the condition, in terms of these, that the second part fails.  It
is exact.  If it holds the assignment fails after its entry, and if it does not hold the assignment
fails before the entry or not at all.

On machines of programs that were read from a text every name has a place, so plain assignments
never leave an entry behind; compound ones do, if they are given something other than two whole
numbers (`Machine.Mismatched`).

* `Exec.prepare`, `Exec.complete`: what is done before the entry and what after it; together they
  are the assignment (`Exec.carryOut_assignment_eq`).
* `Machine.Untouched`: the variables and the histories are as they were; `prepare` keeps it.
* `Assignment.Stumbles`: why an assignment fails after its entry, and the only reasons that there
  are (`Exec.complete_of_stumbles`, `Exec.complete_of_not_stumbles`).
* `failure_leaves_entry`: what a failed assignment leaves behind, on any machine and in the run of a
  program.
-/

set_option autoImplicit false

namespace Retrace

open Exec

/-- The variables, the histories and the clock are as they were. -/
structure Machine.Untouched (m m' : Machine) : Prop where
  bindings : m'.bindings = m.bindings
  history : m'.history = m.history
  clock : m'.clock = m.clock

namespace Machine.Untouched

theorem of_looks {m m' : Machine} (h : m.Looks m') : m.Untouched m' :=
  ⟨h.bindings, h.history, h.clock⟩

theorem onward : Onward Machine.Untouched where
  refl _ := ⟨rfl, rfl, rfl⟩
  trans hab hbc :=
    ⟨hbc.bindings.trans hab.bindings, hbc.history.trans hab.history, hbc.clock.trans hab.clock⟩

end Machine.Untouched

namespace Exec

theorem untouched_of_looks {α : Type} {x : Exec α} (h : Keeps Machine.Looks x) :
    Keeps Machine.Untouched x :=
  h.mono (fun _ h => h) fun _ _ => .of_looks

theorem valueFor_untouched (name : Name) (e : Tree) :
    Keeps Machine.Untouched (valueFor unwatched name e) := by
  refine keepsOn_bind Machine.Untouched.onward (keepsOn_get Machine.Untouched.onward) fun _ => ?_
  refine keepsOn_ite ?_ (keepsOn_of_apply (suspend_apply e) fun _ => ⟨rfl, rfl, rfl⟩)
  rw [evaluateWatched_unwatched]
  exact untouched_of_looks (evaluate_looks e)

theorem charge_untouched (v : Value) : Keeps Machine.Untouched (charge v) := by
  constructor
  · intro m m' _ h
    rw [charge_apply] at h
    split at h <;> cases h
    exact ⟨rfl, rfl, rfl⟩
  · intro m m' e _ h
    rw [charge_apply] at h
    split at h <;> cases h
    exact ⟨rfl, rfl, rfl⟩

/-! ## Before and after the entry -/

/-- What an assignment does before its entry.  This gives the name, what is to be entered for it,
and the new value or the operand. -/
def prepare : Assignment → Exec (Name × Value × Value)
  | .plain target e => do
    countAssignment
    let name ← ofExcept (Name.ofTree target)
    let new ← valueFor unwatched name e
    let old := ((← get).lookup name).getD .none
    charge new
    if !old.isNone then credit old
    return (name, old, new)
  | .compound _ target e => do
    let name ← ofExcept (Name.ofTree target)
    let current ← valueOfName name
    let operand ← evaluate e >>= resolve force
    return (name, current, operand)

/-- What an assignment does after its entry. -/
def complete (s : Assignment) (name : Name) (old other : Value) : Exec Unit :=
  match s with
  | .plain _ _ => bind name other
  | .compound op _ _ =>
    match old.whole? with
    | none => throw (.notAnInteger old.typeName)
    | some a =>
      match other.whole? with
      | none => throw .wrongOperand
      | some b => do
        let new ← wordFor name (op.onWords a b)
        bind name new

/-- An assignment is what is done before the entry, the entry, and what is done after it. -/
theorem carryOut_assignment_eq (n : Nat) (s : Assignment) :
    carryOut (n + 1) s.tree = (prepare s >>= fun r => do
      remember r.1 r.2.1
      complete s r.1 r.2.1 r.2.2) := by
  cases s with
  | plain target e =>
    rw [Assignment.tree, carryOut_of_simply (x := assign unwatched (.assign target e)) rfl]
    have hunpack : ofExcept (Tree.assign target e).unpack3 = pure (.text "assign", target, e) := rfl
    simp only [assign, replace, prepare, complete, hunpack, bind_assoc, pure_bind]
    -- the two differ only in whether the rest comes after the choice or in both of its branches
    refine bind_congr fun _ => bind_congr fun name => bind_congr fun new => bind_congr fun m =>
      bind_congr fun _ => ?_
    split <;> rfl
  | compound op target e =>
    rw [Assignment.tree, carryOut_of_simply (x := compound unwatched op (.compound op target e))
      (by cases op <;> rfl)]
    simp only [compound, prepare, complete, bind_assoc, pure_bind, evaluateWatched_unwatched]
    rfl

/-- What is done before the entry changes no variable and no history. -/
theorem prepare_untouched (s : Assignment) : Keeps Machine.Untouched (prepare s) := by
  have hR := Machine.Untouched.onward
  cases s with
  | plain target e =>
    refine keepsOn_bind hR (keepsOn_of_apply countAssignment_apply fun _ => ⟨rfl, rfl, rfl⟩)
      fun _ => ?_
    refine keepsOn_bind hR (keepsOn_ofExcept hR _) fun name => ?_
    refine keepsOn_bind hR (valueFor_untouched name e) fun new => ?_
    refine keepsOn_bind hR (keepsOn_get hR) fun m => ?_
    refine keepsOn_bind hR (charge_untouched new) fun _ => ?_
    refine keepsOn_ite (keepsOn_bind hR ?_ fun _ => keepsOn_pure hR _) (keepsOn_pure hR _)
    exact keepsOn_of_apply (credit_apply _) fun _ => ⟨rfl, rfl, rfl⟩
  | compound op target e =>
    refine keepsOn_bind hR (keepsOn_ofExcept hR _) fun name => ?_
    refine keepsOn_bind hR (untouched_of_looks (valueOfName_looks name)) fun _ => ?_
    exact keepsOn_bind hR (untouched_of_looks (operand_looks e)) fun _ => keepsOn_pure hR _

theorem prepare_compound_eq_ok {op : Compound} {target e : Tree} {m mid : Machine} {name : Name}
    {current operand : Value} :
    prepare (.compound op target e) m = .ok (name, current, operand) mid ↔
      Name.ofTree target = .ok name ∧ ∃ m₁, valueOfName name m = .ok current m₁ ∧
        (evaluate e >>= resolve force) m₁ = .ok operand mid := by
  rw [prepare]
  constructor
  · intro h
    obtain ⟨_, _, hread, hvalues⟩ := bind_eq_ok.1 h
    obtain ⟨hname, rfl⟩ := ofExcept_eq_ok.1 hread
    obtain ⟨_, m₁, hcurrent, hvalue⟩ := bind_eq_ok.1 hvalues
    obtain ⟨_, _, hoperand, hend⟩ := bind_eq_ok.1 hvalue
    cases hend
    exact ⟨hname, m₁, hcurrent, hoperand⟩
  · rintro ⟨hname, m₁, hcurrent, hoperand⟩
    rw [hname, bind_of_ok (ofExcept_ok name m), bind_of_ok hcurrent, bind_of_ok hoperand]
    rfl

/-- The entry is made for the target. -/
theorem ofTree_target_of_prepared {s : Assignment} {m mid : Machine} {name : Name}
    {old other : Value} (h : prepare s m = .ok (name, old, other) mid) :
    Name.ofTree s.target = .ok name := by
  cases s with
  | plain target e =>
    obtain ⟨_, _, -, hrest⟩ := bind_eq_ok.1 h
    obtain ⟨_, _, hread, hrest⟩ := bind_eq_ok.1 hrest
    obtain ⟨_, _, -, hrest⟩ := bind_eq_ok.1 hrest
    obtain ⟨_, _, -, hrest⟩ := bind_eq_ok.1 hrest
    obtain ⟨_, _, -, hrest⟩ := bind_eq_ok.1 hrest
    obtain ⟨hname, -⟩ := ofExcept_eq_ok.1 hread
    dsimp only at hrest
    split at hrest <;> cases hrest <;> exact hname
  | compound op target e => exact (prepare_compound_eq_ok.1 h).1

end Exec

/-! ## Failures after the entry -/

/-- Something is in the way after the entry: the name has no place among the variables, or there is
something other than two whole numbers to combine. -/
def Assignment.Stumbles (s : Assignment) (m : Machine) (name : Name) (old other : Value) : Prop :=
  match s with
  | .plain _ _ => Name.findPlace m.bindings name ≠ .ok ()
  | .compound _ _ _ => old.whole? = none ∨ other.whole? = none

/-- The assignment makes its entry and fails then. -/
def Assignment.FailsLate (s : Assignment) (m : Machine) (name : Name) (old : Value) : Prop :=
  ∃ other mid, prepare s m = .ok (name, old, other) mid ∧ s.Stumbles m name old other

/-- The machine after the entry. -/
def Machine.entered (m : Machine) (name : Name) (old : Value) : Machine :=
  { m with
    clock := m.clock.read.2
    history := m.history.push name old m.clock.read.1 }

namespace Exec

variable {s : Assignment} {m mid k : Machine} {name : Name} {old other : Value}

theorem bindName_of_not_placed {v : Value} (h : Name.findPlace m.bindings name ≠ .ok ()) :
    ∃ fault, bind name v m = .error fault m := by
  rw [bindName_apply]
  cases hplace : Name.findPlace m.bindings name with
  | ok u => exact absurd hplace h
  | error fault => exact ⟨fault, rfl⟩

/-- What stumbles fails, and leaves the machine as it is. -/
theorem complete_of_stumbles (h : s.Stumbles m name old other) (hk : k.bindings = m.bindings) :
    ∃ fault, complete s name old other k = .error fault k := by
  cases s with
  | plain target e => exact bindName_of_not_placed (hk ▸ h)
  | compound op target e =>
    rw [complete]
    cases hold : old.whole? with
    | none => exact ⟨_, rfl⟩
    | some a =>
      have hother : other.whole? = none := by
        refine h.resolve_left ?_
        rw [hold]
        exact Option.some_ne_none a
      rw [hother]
      exact ⟨_, rfl⟩

/-- What does not stumble comes to its end: a name that has a whole number for its value is bound,
so that it has a place. -/
theorem complete_of_not_stumbles (hprepared : prepare s m = .ok (name, old, other) mid)
    (h : ¬ s.Stumbles m name old other) (hk : k.bindings = m.bindings) :
    ∃ k', complete s name old other k = .ok () k' := by
  cases s with
  | plain target e =>
    have hplace : Name.findPlace k.bindings name = .ok () := by
      rw [hk]
      exact not_not.1 h
    exact ⟨_, bindName_eq_ok.2 ⟨hplace, rfl⟩⟩
  | compound op target e =>
    obtain ⟨-, m₁, hcurrent, -⟩ := prepare_compound_eq_ok.1 hprepared
    obtain ⟨hold, hother⟩ := not_or.1 h
    obtain ⟨a, ha⟩ := Option.ne_none_iff_exists'.1 hold
    obtain ⟨b, hb⟩ := Option.ne_none_iff_exists'.1 hother
    obtain ⟨v, hv, -⟩ := valueOfName_resolves hcurrent (ne_none_of_whole? ha)
    obtain ⟨new, k₁, hword, hsame, -⟩ := wordFor_ok name (op.onWords a b) k
    have hplace : Name.findPlace k₁.bindings name = .ok () := by
      refine findPlace_of_contains ?_
      rw [hsame, hk]
      show (m.lookup name).isSome = true
      rw [hv]
      rfl
    refine ⟨{ k₁ with bindings := k₁.bindings.insert name new }, ?_⟩
    rw [complete, ha, hb]
    exact (bind_of_ok hword).trans (bindName_eq_ok.2 ⟨hplace, rfl⟩)

/-- What an assignment does after it was prepared. -/
theorem carryOut_of_prepared (n : Nat) (h : prepare s m = .ok (name, old, other) mid) :
    carryOut (n + 1) s.tree m = complete s name old other (mid.entered name old) := by
  rw [carryOut_assignment_eq, bind_of_ok h, bind_of_ok (remember_apply ..), Machine.entered]

/-- A late failure leaves the entry. -/
theorem carryOut_of_failsLate (n : Nat) (h : s.FailsLate m name old) :
    ∃ fault m', carryOut (n + 1) s.tree m = .error fault m' ∧ m'.bindings = m.bindings ∧
      m'.history = m.history.push name old m.clock.read.1 := by
  obtain ⟨other, mid, hprepared, hstumbles⟩ := h
  have hsame := (prepare_untouched s).ok hprepared
  rw [carryOut_of_prepared n hprepared]
  obtain ⟨fault, hfails⟩ := complete_of_stumbles hstumbles (k := mid.entered name old)
    hsame.bindings
  refine ⟨fault, _, hfails, hsame.bindings, ?_⟩
  rw [Machine.entered, hsame.history, hsame.clock]

/-- Any other failure comes before the entry. -/
theorem untouched_of_early_failure {n : Nat} {fault : Fault} {m' : Machine}
    (h : carryOut (n + 1) s.tree m = .error fault m')
    (hlate : ∀ name old, ¬ s.FailsLate m name old) : m.Untouched m' := by
  cases hr : prepare s m with
  | error e mid =>
    rw [carryOut_assignment_eq, bind_of_error hr] at h
    cases h
    exact (prepare_untouched s).error trivial hr
  | ok r mid =>
    -- the entry is made, and as nothing is in the way then, there is no failure
    obtain ⟨name, old, other⟩ := r
    have hbindings := ((prepare_untouched s).ok hr).bindings
    obtain ⟨k, hends⟩ := complete_of_not_stumbles hr
      (fun hstumbles => hlate name old ⟨other, mid, hr, hstumbles⟩) (k := mid.entered name old)
      hbindings
    rw [carryOut_of_prepared n hr, hends] at h
    cases h

end Exec

/-! ## Runs -/

theorem History.push_ne {α : Type} (h : History α) (name : Name) (old : α) (now : Int) :
    h.push name old now ≠ h := by
  intro hsame
  have hof := h.of_push name name old now
  rw [hsame, if_pos BEq.rfl] at hof
  exact List.cons_ne_self _ _ hof.symm

/-- A variable and an expression come to values that are not two whole numbers. -/
def Machine.Mismatched (m : Machine) (x : String) (e : Tree) : Prop :=
  ∃ current m₁ operand m₂, valueOfName (.ofText x) m = .ok current m₁ ∧
    (evaluate e >>= resolve force) m₁ = .ok operand m₂ ∧
    (current.whole? = none ∨ operand.whole? = none)

/-- From here on, if an assignment fails, the variables are as they were.  So are the histories
after a plain assignment, and after a compound one if it had not got as far as two values that do
not go together. -/
def Machine.FailsCleanly (m : Machine) : Prop :=
  ∀ (x : String) (e : Tree) (n : Nat) (fault : Fault) (m' : Machine),
    (carryOut (n + 1) (.assign (.text x) e) m = .error fault m' →
      m'.bindings = m.bindings ∧ m'.history = m.history) ∧
    ∀ op, carryOut (n + 1) (.compound op (.text x) e) m = .error fault m' →
      m'.bindings = m.bindings ∧ (m'.history = m.history ↔ ¬ m.Mismatched x e)

/-- A compound assignment fails after its entry exactly if its two operands are not whole numbers.
-/
theorem Machine.mismatched_iff {m : Machine} {x : String} {e : Tree} (op : Compound) :
    m.Mismatched x e ↔ ∃ name old, (Assignment.compound op (.text x) e).FailsLate m name old := by
  constructor
  · rintro ⟨current, m₁, operand, m₂, hcurrent, hoperand, hneither⟩
    exact ⟨.ofText x, current, operand, m₂,
      prepare_compound_eq_ok.2 ⟨rfl, m₁, hcurrent, hoperand⟩, hneither⟩
  · rintro ⟨name, current, operand, m₂, hprepared, hneither⟩
    obtain ⟨hname, m₁, hcurrent, hoperand⟩ := prepare_compound_eq_ok.1 hprepared
    cases hname
    exact ⟨current, m₁, operand, m₂, hcurrent, hoperand, hneither⟩

theorem Machine.failsCleanly {m : Machine}
    (hplace : ∀ x, Name.findPlace m.bindings (.ofText x) = .ok ()) : m.FailsCleanly := by
  intro x e n fault m'
  constructor
  · intro h
    have huntouched : m.Untouched m' := by
      refine untouched_of_early_failure (s := .plain (.text x) e) h ?_
      rintro name old ⟨new, mid, hprepared, hstumbles⟩
      cases ofTree_target_of_prepared hprepared
      exact hstumbles (hplace x)
    exact ⟨huntouched.bindings, huntouched.history⟩
  · intro op h
    by_cases hlate : m.Mismatched x e
    · obtain ⟨name, old, hfails⟩ := (mismatched_iff op).1 hlate
      obtain ⟨_, _, hrun, hbindings, hhistory⟩ := carryOut_of_failsLate n hfails
      cases h.symm.trans hrun
      refine ⟨hbindings, iff_of_false ?_ (not_not.2 hlate)⟩
      rw [hhistory]
      exact m.history.push_ne name old _
    · have huntouched : m.Untouched m' := by
        refine untouched_of_early_failure (s := .compound op (.text x) e) h ?_
        exact fun name old hfails => hlate ((mismatched_iff op).2 ⟨name, old, hfails⟩)
      exact ⟨huntouched.bindings, iff_of_true huntouched.history hlate⟩

/-- **A failed assignment leaves no trace, unless it fails after its entry.**  On any machine, an
assignment that stumbles after its entry fails, and leaves that entry and nothing else in the
histories; if it fails otherwise, all histories are as they were.  The variables are as they were
either way.  In the run of a proper program, whatever names are eager, no plain assignment fails
after its entry, and a compound one does if and only if its variable and its operand come to values
that are not two whole numbers. -/
theorem failure_leaves_entry (s : Assignment) (n : Nat) (m : Machine) :
    (∀ name old, s.FailsLate m name old →
      ∃ fault m', carryOut (n + 1) s.tree m = .error fault m' ∧ m'.bindings = m.bindings ∧
        m'.history = m.history.push name old m.clock.read.1) ∧
    (∀ fault m', carryOut (n + 1) s.tree m = .error fault m' →
      (∀ name old, ¬ s.FailsLate m name old) →
        m'.bindings = m.bindings ∧ m'.history = m.history) ∧
    ∀ (program : List Phrase.Statement), Phrase.Statement.areProper program = true →
      ∀ (clock : Clock) (eager : List String) (n : Nat),
        Run.Everywhere Machine.FailsCleanly n (Phrase.Statement.trees program)
            (.withEager clock eager) ∧
          (∀ m ∈ (Run.statements n (Phrase.Statement.trees program) (.withEager clock eager)).1,
            m.FailsCleanly) ∧
          (Run.statements n (Phrase.Statement.trees program)
            (.withEager clock eager)).2.2.FailsCleanly := by
  refine ⟨fun name old h => carryOut_of_failsLate n h, fun fault m' h hlate => ?_,
    fun program hproper clock eager n => ?_⟩
  · have huntouched := untouched_of_early_failure h hlate
    exact ⟨huntouched.bindings, huntouched.history⟩
  · exact (closure program).everywhere_of (fun m hm => Machine.failsCleanly hm.findPlace) n
      (runs_of_proper hproper) (Machine.closed_withEager program clock eager)

/-- A text plus a number, after a run that has left a text. -/
theorem failure_leaves_entry_letters :
    Phrase.Statement.areProper Showing.letters = true ∧
    ∃ m, (Run.statements 1 (Phrase.Statement.trees Showing.letters)
        (.withEager {} ["x"])).2.2 = m ∧ m.Mismatched "x" (.int 1) ∧
      ∃ fault m', carryOut 1 (.compound .plus (.text "x") (.int 1)) m = .error fault m' ∧
        m'.bindings = m.bindings ∧ m'.history ≠ m.history := by
  have hproper : Phrase.Statement.areProper Showing.letters = true := by decide
  obtain ⟨m, fault, m', hm, hmismatched, hfails⟩ : ∃ m fault m',
      (Run.statements 1 (Phrase.Statement.trees Showing.letters)
        (.withEager {} ["x"])).2.2 = m ∧ m.Mismatched "x" (.int 1) ∧
      carryOut 1 (.compound .plus (.text "x") (.int 1)) m = .error fault m' :=
    ⟨_, _, _, by cbv, ⟨.text (.plain "\"b\""), _, .int 1, _, by cbv, by cbv, .inl rfl⟩, by cbv⟩
  obtain ⟨-, -, hruns⟩ := failure_leaves_entry (.compound .plus (.text "x") (.int 1)) 0 m
  obtain ⟨-, -, hclean⟩ := hruns Showing.letters hproper {} ["x"] 1
  rw [hm] at hclean
  obtain ⟨hbindings, hhistory⟩ := (hclean "x" (.int 1) 0 fault m').2 .plus hfails
  exact ⟨hproper, m, hm, hmismatched, fault, m', hfails, hbindings,
    fun hsame => hhistory.1 hsame hmismatched⟩

/-- `x += "a"` fails after `x = 1`, and `x += 1` fails if there is no `x`; either way `x` has one
more entry in its history then. -/
theorem failed_assignment_entries :
    (∃ m fault m', carryOut 1 (.assign (.text "x") (.int 1)) {} = .ok () m ∧
      carryOut 1 (.compound .plus (.text "x") (.text "\"a\"")) m = .error fault m' ∧
      (m.history.of (.ofText "x")).map Change.old = [.none] ∧
      (m'.history.of (.ofText "x")).map Change.old = [.int 1, .none]) ∧
    ∃ fault m, carryOut 1 (.compound .plus (.text "x") (.int 1)) {} = .error fault m ∧
      (m.history.of (.ofText "x")).map Change.old = [.none] :=
  ⟨⟨_, _, _, by cbv, by cbv, by cbv, by cbv⟩, ⟨_, _, by cbv, by cbv⟩⟩

end Retrace
