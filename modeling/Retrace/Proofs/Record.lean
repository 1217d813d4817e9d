import Retrace.Proofs.Looking

/-!
# What assignments record

An assignment remembers what its variable was bound to before it binds it anew.  A plain assignment
remembers the binding itself, which may be a thunk that nobody has asked for yet.  A compound one
has to know the value, so it remembers that.  Both are instances of `Machine.Records`, which says
what becomes of the variables and of their histories, and leaves open what was remembered.

`Machine.Records` speaks of lookups and of the changes of names and not of the tables that hold
them.  Names may be equal without being the same (a number and a truth value are), tables keep the
first of equal names, and which one that is does not matter to anything that reads them.  The heap
is related by `Fills` only: on the way to its value an assignment may work out thunks, or put one
off.

A reversal takes the latest entry back, and puts it in place unless it is nothing.  Nothing is what
is remembered of a variable that was not bound, and there is no statement that makes a variable
unbound; so after such a reversal the variable stays as it is (`Change.putBack`).  A reversal can
stop for two reasons.  The value that is put back is credited and charged again, which may meet the
limit of the memory; and a name that is bound again needs a place among the other names.  It has one
if it is bound already, as it is in every run of a program that names its variables by texts, and it
needs none if there is nothing to put back.  Therefore the place is asked for only where it is
needed (`putBack_ok`, `reverse_of_place`).

* `Machine.Resolves`: a value, or the value of a thunk that has one.
* `assign_eq_ok`, `compound_eq_ok`: all that happens in an assignment that comes to its end.
* `Machine.Records`: what an assignment leaves behind; `assign_records` and `compound_records` say
  so of the two sorts.
* `Machine.TakesBack`: what a reversal leaves behind.
* `reverse_of_place`: a reversal of a name, if the limit of the memory is not reached.
-/

set_option autoImplicit false

namespace Retrace
namespace Machine

/-- A binding has a value: itself, or the value that the thunk was given. -/
def Resolves (m : Machine) : Value → Value → Prop
  | .thunk id, w => ∃ e, m.heap[id]? = some ⟨e, some w⟩
  | v, w => v = w

/-- What a thunk came to, it has come to for good. -/
theorem Resolves.mono {m m' : Machine} {v w : Value} (h : m.Resolves v w)
    (hf : Fills m.heap m'.heap) : m'.Resolves v w := by
  cases v with
  | thunk id =>
    obtain ⟨e, he⟩ := h
    exact ⟨e, hf.value he⟩
  | _ => exact h

theorem lookup_congr (m : Machine) {name other : Name} (h : (name == other) = true) :
    m.lookup name = m.lookup other :=
  Table.get?_congr _ h

/-- `m'` is `m` after the name was bound to `new` and `old` was remembered; on the way thunks may
have been made and worked out. -/
structure Records (m : Machine) (name : Name) (old new : Value) (m' : Machine) : Prop where
  lookup : ∀ other, m'.lookup other = if name == other then some new else m.lookup other
  history : ∃ now, ∀ other, m'.history.of other =
    if name == other then ⟨old, now⟩ :: m.history.of other else m.history.of other
  fills : Fills m.heap m'.heap

/-- Binding a name right after something was remembered for it is a record. -/
theorem Records.of_bind {m mid m' : Machine} {name : Name} {old new : Value} {now : Int}
    (hb : mid.bindings = m.bindings) (hh : mid.history = m.history)
    (hf : Fills m.heap mid.heap) (hheap : m'.heap = mid.heap)
    (hbindings : m'.bindings = mid.bindings.insert name new)
    (hhistory : m'.history = mid.history.push name old now) : m.Records name old new m' where
  lookup other := by
    rw [Machine.lookup, Machine.lookup, hbindings, hb, Table.get?_insert]
  history := by
    refine ⟨now, fun other => ?_⟩
    rw [hhistory, hh, History.of_push]
  fills := by rwa [hheap]

end Machine

namespace Exec

/-- A statement without blocks is carried out on its own as it is inside of others. -/
theorem carryOut_of_simply {n : Nat} {t : Tree} {x : Exec Unit}
    (h : perform unwatched (n + 1) t = simply x) : carryOut (n + 1) t = x := by
  funext m
  rw [carryOut, carryOutWatched, h, simply]
  simp only [bind_apply]
  cases x m <;> rfl

/-! ## Plain assignments -/

/-- A binding is replaced in four steps: the new value is charged, the old one credited, the old one
remembered, and the name bound. -/
theorem replace_eq_ok {watch : Watch} {name : Name} {new : Value} {m m' : Machine} :
    replace watch name new m = .ok () m' ↔
      ∃ memory, m.memory.charge (m.size m.lists new) = .ok memory ∧
        bindWatched watch name new { m with
          memory :=
            if ((m.lookup name).getD .none).isNone then memory
            else memory.credit (m.size m.lists ((m.lookup name).getD .none))
          clock := m.clock.read.2
          history := m.history.push name ((m.lookup name).getD .none) m.clock.read.1 } =
            .ok () m' := by
  rw [replace, bind_of_ok (get_apply m), bind_apply, charge_apply]
  cases hc : m.memory.charge (m.size m.lists new) with
  | error e => simp
  | ok memory =>
    cases ho : ((m.lookup name).getD .none).isNone <;> simp [bind_apply, Clock.read]

/-- An eager name gets a value, and any other name a thunk. -/
theorem valueFor_apply (watch : Watch) (name : Name) (e : Tree) (m : Machine) :
    valueFor watch name e m = (if m.isEager name then evaluateWatched watch e else suspend e) m :=
  rfl

/-- All that happens in a plain assignment that comes to its end. -/
theorem assign_eq_ok {watch : Watch} {t : Tree} {m m' : Machine} :
    assign watch t m = .ok () m' ↔
      ∃ tag target e name new mid, t.unpack3 = .ok (tag, target, e) ∧
        Name.ofTree target = .ok name ∧
        valueFor watch name e { m with assignments := m.assignments + 1 } = .ok new mid ∧
        replace watch name new mid = .ok () m' := by
  rw [assign, bind_of_ok (countAssignment_apply m)]
  simp only [bind_eq_ok, ofExcept_eq_ok]
  constructor
  · rintro ⟨⟨tag, target, e⟩, _, ⟨ht, rfl⟩, name, _, ⟨hn, rfl⟩, new, mid, hv, hr⟩
    exact ⟨tag, target, e, name, new, mid, ht, hn, hv, hr⟩
  · rintro ⟨tag, target, e, name, new, mid, ht, hn, hv, hr⟩
    exact ⟨(tag, target, e), _, ⟨ht, rfl⟩, name, _, ⟨hn, rfl⟩, new, mid, hv, hr⟩

/-- The variables and the histories are as they were before an assignment binds its name. -/
theorem valueFor_frame {name : Name} {e : Tree} {new : Value} {m mid : Machine}
    (h : valueFor unwatched name e m = .ok new mid) :
    mid.bindings = m.bindings ∧ mid.history = m.history ∧ Fills m.heap mid.heap := by
  rw [valueFor_apply] at h
  split at h
  · have hl := (evaluate_looks e).ok h
    exact ⟨hl.bindings, hl.history, hl.fills⟩
  · cases h
    exact ⟨rfl, rfl, Fills.push _ _⟩

/-- A plain assignment remembers what the name was bound to. -/
theorem assign_records {t : Tree} {m m' : Machine} (h : assign unwatched t m = .ok () m') :
    ∃ tag target e name new, t.unpack3 = .ok (tag, target, e) ∧ Name.ofTree target = .ok name ∧
      m.Records name ((m.lookup name).getD .none) new m' := by
  obtain ⟨tag, target, e, name, new, mid, ht, hn, hv, hr⟩ := assign_eq_ok.1 h
  obtain ⟨hb, hh, hf⟩ := valueFor_frame hv
  obtain ⟨memory, -, hbind⟩ := replace_eq_ok.1 hr
  obtain ⟨-, rfl⟩ := bindName_eq_ok.1 hbind
  have hl : mid.lookup name = m.lookup name := by rw [Machine.lookup, hb, Machine.lookup]
  rw [hl]
  exact ⟨tag, target, e, name, new, ht, hn, .of_bind hb hh hf rfl rfl rfl⟩

/-! ## Compound assignments -/

/-- A thunk that was worked out has the value that came of it. -/
theorem forceWithin_resolves {depth id : Nat} {m m' : Machine} {w : Value}
    (h : forceWithin depth id m = .ok w m') (hw : w ≠ .none) : m'.Resolves (.thunk id) w := by
  cases depth with
  | zero => cases h
  | succ depth =>
    cases ht : m.heap[id]? with
    | none =>
      rw [forceWithin_of_none ht] at h
      cases h
      exact absurd rfl hw
    | some t =>
      obtain ⟨e, _ | v⟩ := t
      · rw [forceWithin_succ ht] at h
        obtain ⟨v, mid, h1, h2⟩ := bind_eq_ok.1 h
        have hl := (evaluateWith_looks (forceWithin_looks depth) e).ok h1
        cases h2
        refine ⟨e, ?_⟩
        -- whether or not the thunk was given a value on the way, it has this one now
        rw [Array.getElem?_modify, if_pos rfl]
        rcases hl.fills id _ ht with hm | ⟨-, v', hm⟩ <;> rw [hm] <;> rfl
      · rw [forceWithin_of_value ht] at h
        cases h
        exact ⟨e, ht⟩

/-- What a name is bound to has the value that the name is found to have. -/
theorem valueOfName_resolves {name : Name} {m m' : Machine} {w : Value}
    (h : valueOfName name m = .ok w m') (hw : w ≠ .none) :
    ∃ v, m.lookup name = some v ∧ m'.Resolves v w := by
  rw [valueOfName, bind_of_ok (get_apply m)] at h
  cases hv : m.lookup name with
  | none =>
    rw [hv] at h
    cases h
    exact absurd rfl hw
  | some v =>
    rw [hv] at h
    refine ⟨v, rfl, ?_⟩
    cases v with
    | thunk id => exact forceWithin_resolves h hw
    | _ => cases h; rfl

/-- A whole number is something. -/
theorem ne_none_of_whole? {v : Value} {n : Int} (h : v.whole? = some n) : v ≠ .none := by
  rintro rfl
  cases h

/-- The result of a compound assignment is stored as it is for an eager name, and as a thunk of a
number for any other. -/
theorem wordFor_eq_ok {name : Name} {n : Int} {new : Value} {m m' : Machine} :
    wordFor name n m = .ok new m' ↔
      if m.isEager name then new = .int n ∧ m' = m
      else new = .thunk m.heap.size ∧
        m' = { m with heap := m.heap.push { expression := .int n } } := by
  rw [wordFor, bind_of_ok (get_apply m)]
  split <;> simp [eq_comm]

/-- All that happens in a compound assignment that comes to its end. -/
theorem compound_eq_ok {watch : Watch} {op : Compound} {t : Tree} {m m' : Machine} :
    compound watch op t m = .ok () m' ↔
      ∃ tag target e name current m1 operand m2 a b new m3, t.unpack3 = .ok (tag, target, e) ∧
        Name.ofTree target = .ok name ∧ valueOfName name m = .ok current m1 ∧
        (evaluateWatched watch e >>= resolve force) m1 = .ok operand m2 ∧
        current.whole? = some a ∧ operand.whole? = some b ∧
        wordFor name (op.onWords a b) { m2 with
          clock := m2.clock.read.2
          history := m2.history.push name current m2.clock.read.1 } = .ok new m3 ∧
        bindWatched watch name new m3 = .ok () m' := by
  rw [compound]
  simp only [bind_eq_ok, ofExcept_eq_ok, remember_apply]
  constructor
  · rintro ⟨⟨tag, target, e⟩, _, ⟨ht, rfl⟩, name, _, ⟨hn, rfl⟩, current, m1, hc, v, m1', he,
      operand, m2, hr, _, _, hm, h⟩
    cases hm
    cases ha : current.whole? with
    | none => simp [ha] at h
    | some a =>
      cases hb : operand.whole? with
      | none => simp [ha, hb] at h
      | some b =>
        simp only [ha, hb] at h
        obtain ⟨new, m3, hw, hb'⟩ := bind_eq_ok.1 h
        exact ⟨tag, target, e, name, current, m1, operand, m2, a, b, new, m3, ht, hn, hc,
          ⟨v, m1', he, hr⟩, ha, hb, hw, hb'⟩
  · rintro ⟨tag, target, e, name, current, m1, operand, m2, a, b, new, m3, ht, hn, hc,
      ⟨v, m1', he, hr⟩, ha, hb, hw, hb'⟩
    refine ⟨(tag, target, e), _, ⟨ht, rfl⟩, name, _, ⟨hn, rfl⟩, current, m1, hc, v, m1', he,
      operand, m2, hr, (), _, rfl, ?_⟩
    simp only [ha, hb]
    exact bind_eq_ok.2 ⟨new, m3, hw, hb'⟩

/-- The value of an operand is looked for twice: what is found first may be a thunk. -/
theorem operand_looks (e : Tree) : Keeps Machine.Looks (evaluate e >>= resolve force) :=
  keepsOn_bind onward_looks (evaluate_looks e) fun v => resolve_looks force_looks v

/-- A compound assignment remembers the value that the name had, which is a whole number or a truth
value. -/
theorem compound_records {op : Compound} {t : Tree} {m m' : Machine}
    (h : compound unwatched op t m = .ok () m') :
    ∃ tag target e name v w new, t.unpack3 = .ok (tag, target, e) ∧ Name.ofTree target = .ok name ∧
      m.lookup name = some v ∧ m'.Resolves v w ∧ w ≠ .none ∧ m.Records name w new m' := by
  obtain ⟨tag, target, e, name, current, m1, operand, m2, a, b, new, m3, ht, hn, hc, ho, ha, hb, hw,
    hbind⟩ := compound_eq_ok.1 h
  have hcurrent := ne_none_of_whole? ha
  obtain ⟨v, hv, hres⟩ := valueOfName_resolves hc hcurrent
  have hl1 := (valueOfName_looks name).ok hc
  have hl2 := (operand_looks e).ok ho
  have hl := onward_looks.trans hl1 hl2
  have h3 : m3.bindings = m2.bindings ∧
      m3.history = m2.history.push name current m2.clock.read.1 ∧ Fills m2.heap m3.heap := by
    rw [wordFor_eq_ok] at hw
    split at hw
    · obtain ⟨-, rfl⟩ := hw
      exact ⟨rfl, rfl, Fills.refl _⟩
    · obtain ⟨-, rfl⟩ := hw
      exact ⟨rfl, rfl, Fills.push _ _⟩
  obtain ⟨-, rfl⟩ := bindName_eq_ok.1 hbind
  have hf3 : Fills m1.heap m3.heap := hl2.fills.trans h3.2.2
  refine ⟨tag, target, e, name, v, current, new, ht, hn, hv, hres.mono hf3, hcurrent, ?_, ?_, ?_⟩
  · intro other
    show (m3.bindings.insert name new).get? other = _
    rw [Table.get?_insert, h3.1, hl.bindings]
    rfl
  · refine ⟨m2.clock.read.1, fun other => ?_⟩
    show m3.history.of other = _
    rw [h3.2.1, History.of_push, hl.history]
  · exact hl.fills.trans h3.2.2

end Exec

/-! ## Reversals -/

/-- What a name is bound to after its latest change was taken back: what the change replaced, unless
that was nothing. -/
def Change.putBack (current : Option Value) : List (Change Value) → Option Value
  | [] => current
  | change :: _ => if change.old.isNone then current else some change.old

/-- `m'` is `m` after the latest change of a name was taken back. -/
structure Machine.TakesBack (m : Machine) (name : Name) (m' : Machine) : Prop where
  lookup : ∀ other, m'.lookup other =
    if name == other then Change.putBack (m.lookup other) (m.history.of other) else m.lookup other
  history : ∀ other, m'.history.of other =
    if name == other then (m.history.of other).tail else m.history.of other
  heap : m'.heap = m.heap

theorem isNone_eq_false {v : Value} (h : v ≠ .none) : v.isNone = false := by
  cases v with
  | none => exact absurd rfl h
  | _ => rfl

/-- Taking a change back does not unbind a name. -/
theorem Machine.TakesBack.bound {m m' : Machine} {name other : Name} (h : m.TakesBack name m')
    (hb : (m.lookup other).isSome = true) : (m'.lookup other).isSome = true := by
  rw [h.lookup]
  split
  · unfold Change.putBack
    split
    · exact hb
    · split
      · exact hb
      · rfl
  · exact hb

namespace Exec

/-- The credit comes before the charge, so the limit is all that can stand in the way. -/
theorem recharge_ok (v : Value) (m : Machine) :
    (∃ memory, (do credit v; charge v : Exec Unit) m = .ok () { m with memory }) ∨
      ∃ m', (do credit v; charge v : Exec Unit) m = .error .memoryExceeded m' := by
  rw [bind_of_ok (credit_apply v m), charge_apply, Account.charge]
  by_cases h : (m.memory.credit (m.size m.lists v)).limit <
      (m.memory.credit (m.size m.lists v)).held + m.size m.lists v
  · rw [if_pos h]
    exact .inr ⟨_, rfl⟩
  · rw [if_neg h]
    exact .inl ⟨_, rfl⟩

/-- What replaced nothing is not put back, so that the name needs a place only for what is. -/
theorem putBack_ok {name : Name} {m : Machine} (old : Value)
    (hplace : old ≠ .none → Name.findPlace m.bindings name = .ok ()) :
    (∃ m', putBack unwatched name old m = .ok () m' ∧ m'.history = m.history ∧ m'.heap = m.heap ∧
      m'.lists = m.lists ∧
      (Name.findPlace m.bindings name = .ok () → Name.findPlace m'.bindings name = .ok ()) ∧
      ∀ other, m'.lookup other =
        if name == other && !old.isNone then some old else m.lookup other) ∨
      ∃ m', putBack unwatched name old m = .error .memoryExceeded m' := by
  unfold putBack
  cases ho : old.isNone with
  | true => exact .inl ⟨m, rfl, rfl, rfl, rfl, id, fun other => by simp⟩
  | false =>
    have hnone : old ≠ .none := by
      rintro rfl
      cases ho
    have hbind := (bindName_eq_ok (v := old)).2 ⟨hplace hnone, rfl⟩
    rcases recharge_ok old { m with bindings := m.bindings.insert name old } with
      ⟨memory, hr⟩ | ⟨m', hr⟩
    · refine .inl ⟨_, (bind_of_ok hbind).trans hr, rfl, rfl, rfl, fun _ => ?_, fun other => ?_⟩
      · refine findPlace_of_contains ?_
        show ((m.bindings.insert name old).get? name).isSome = true
        rw [Table.get?_insert, if_pos BEq.rfl]
        rfl
      · show (m.bindings.insert name old).get? other = _
        rw [Table.get?_insert, Bool.not_false, Bool.and_true]
        rfl
    · exact .inr ⟨m', (bind_of_ok hbind).trans hr⟩

/-- A reversal counts itself, takes the latest entry from the history, and puts it back. -/
theorem reverse_apply {target : Tree} {name : Name} (m : Machine)
    (hn : Name.ofTree target = .ok name) :
    reverse unwatched (.reverse target) m =
      ((m.history.of name).head?.map Change.old).forM (putBack unwatched name)
      { m with reversals := m.reversals + 1, history := (m.history.pop name).2 } := by
  rw [← History.pop_fst]
  show (do
    let name ← ofExcept (Name.ofTree target)
    (← takeBack name).forM (putBack unwatched name))
    { m with reversals := m.reversals + 1 } = _
  rw [hn]
  rfl

/-- A reversal takes the latest change of a name back, and touches no thunk and no list, unless the
limit of the memory is reached.  The name must have a place if there is a former value to put back;
it keeps one that it has. -/
theorem reverse_of_place {target : Tree} {name : Name} {m : Machine}
    (hn : Name.ofTree target = .ok name)
    (hplace : ∀ change ∈ (m.history.of name).head?, change.old ≠ .none →
      Name.findPlace m.bindings name = .ok ()) :
    (∃ m', reverse unwatched (.reverse target) m = .ok () m' ∧ m.TakesBack name m' ∧
      m'.lists = m.lists ∧
      (Name.findPlace m.bindings name = .ok () → Name.findPlace m'.bindings name = .ok ())) ∨
      ∃ m', reverse unwatched (.reverse target) m = .error .memoryExceeded m' := by
  have hof (other : Name) : (m.history.pop name).2.of other =
      if name == other then (m.history.of other).tail else m.history.of other :=
    History.of_pop m.history name other
  rw [reverse_apply m hn]
  cases hc : m.history.of name with
  | nil =>
    refine .inl ⟨_, rfl, ⟨fun other => ?_, hof, rfl⟩, rfl, id⟩
    split
    · next h => rw [← History.of_congr m.history h, hc]; rfl
    · rfl
  | cons change rest =>
    have hlatest : change.old ≠ .none → Name.findPlace m.bindings name = .ok () :=
      hplace change (by rw [hc]; rfl)
    rcases putBack_ok (m := { m with
        reversals := m.reversals + 1, history := (m.history.pop name).2 }) change.old hlatest with
      ⟨m', hp, hhistory, hheap, hlists, hplace', hlookup⟩ | hp
    · refine .inl ⟨m', hp, ⟨fun other => ?_, fun other => ?_, hheap⟩, hlists, hplace'⟩
      · rw [hlookup other]
        by_cases h : (name == other) = true
        · rw [if_pos h, ← History.of_congr m.history h, hc, Change.putBack]
          cases change.old.isNone with
          | true =>
            simp [h]
            rfl
          | false => simp [h]
        · rw [if_neg h, if_neg (by simp [h])]
          rfl
      · rw [hhistory]
        exact hof other
    · exact .inr hp

/-- A name that is bound can be bound again. -/
theorem reverse_ok {target : Tree} {name : Name} {m : Machine} (hn : Name.ofTree target = .ok name)
    (hb : (m.lookup name).isSome = true) :
    (∃ m', reverse unwatched (.reverse target) m = .ok () m' ∧ m.TakesBack name m') ∨
      ∃ m', reverse unwatched (.reverse target) m = .error .memoryExceeded m' :=
  (reverse_of_place hn fun _ _ _ => findPlace_of_contains hb).imp_left
    fun ⟨m', hrev, ht, _⟩ => ⟨m', hrev, ht⟩

end Exec
end Retrace
