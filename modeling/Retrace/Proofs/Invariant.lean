import Mathlib.Data.List.Forall2
import Retrace.Proofs.Agreement
import Retrace.Proofs.Guard
import Retrace.Proofs.Keeping

/-!
# Invariants of runs

A machine changes in few ways: a name is bound, a history is changed, a thunk is made or worked out,
a list is extended.  An `Invariant` is a property of machines that none of these changes breaks, as
long as what goes into the machine is of the right sort; and it says what is of the right sort:
which statements are carried out, which expressions are put off, which names are bound, which values
expressions have, and what each variable and its history may hold.

The sorts are a part of an invariant, as a property of machines alone is never kept.  To bind a
variable keeps what is known of variables only if the value is known to be right, and that is known
only if the expression was evaluated on a machine with the property.  Thus the sorts of values go
along with the property, from where a value comes up to where it is bound, and the framework does
this once for all of them.  Statements have a sort as well, since not every tree that could be
carried out stands in the program.

What an invariant is good for is shown for two runs at once: one under a watch that has nothing to
object to as long as the invariant holds, and one without a watch, on a machine that is the same up
to the count of evaluations.  They agree in everything (`Invariant.perform`).

* On one machine this says that the invariant holds whenever something happens.  A guard that stops
  where it does not hold is never stopped, so the guarded run is the run (`Invariant.everywhere`).
* With the property that all machines have, it says that no step depends on the count.

The two are one proof, because they ask for the same: a lemma for every function that says what it
gives, and that it gives the same under both.  The parameter `exact` tells the two apart; if it
holds the counts are equal too, so that the machines are one.

Main definitions and statements:

* `Invariant`: what has to be shown of a property.
* `Invariant.Alike`: machines that are the same up to the count of evaluations.
* `Invariant.evaluateWith`, `Invariant.forceWithin`: expressions and thunks.
* `Invariant.perform`, `Invariant.statementsWatched`: statements and programs.
* `Invariant.everywhere`: the invariant holds on every machine of a run.
-/

set_option autoImplicit false

namespace Retrace

/-- The variable that a statement binds: that of an assignment, a reversal or a `for` loop. -/
def Tree.target? (t : Tree) : Option Tree :=
  match t.form? with
  | some .assign | some (.compound _) =>
    match t.unpack3 with
    | .ok (_, target, _) => some target
    | .error _ => Option.none
  | some .reverse =>
    match t.unpack2 with
    | .ok (_, target) => some target
    | .error _ => Option.none
  | some .forLoop =>
    match t.unpack4 with
    | .ok (_, target, _, _) => some target
    | .error _ => Option.none
  | _ => Option.none

/-- A property of machines that no change breaks, and what may go into a machine that has it. -/
structure Invariant where
  /-- The machine has the property. -/
  holds : Machine → Prop
  /-- The statement is one that may be carried out. -/
  runs : Tree → Prop
  /-- The expression is one that may be put off. -/
  source : Tree → Prop
  /-- The name is one that may be bound. -/
  named : Name → Prop
  /-- The value is one that an expression may have. -/
  value : Value → Prop
  /-- The value is one that a variable and its history may hold, with such a heap. -/
  stored : Name → Array Thunk → Value → Prop
  runs_inner : ∀ {t}, runs t → ∀ s ∈ t.inner, runs s
  source_int : ∀ n, source (.int n)
  source_assigned : ∀ {t tag target e}, runs t → t.form? = some .assign →
    t.unpack3 = .ok (tag, target, e) → source e
  named_target : ∀ {t target name}, runs t → t.target? = some target →
    Name.ofTree target = .ok name → named name
  value_none : value .none
  value_bool : ∀ b, value (.bool b)
  value_int : ∀ n, value (.int n)
  value_text : ∀ s, value (.text s)
  value_list : ∀ {id vs}, value (.list id vs) ↔ ∀ v ∈ vs, value v
  value_added : ∀ {m : Machine} {id : Nat}, holds m → ∀ v ∈ m.lists.addedTo id, value v
  value_worked : ∀ {m : Machine} {id : Nat} {e : Tree} {v : Value}, holds m →
    m.heap[id]? = some ⟨e, some v⟩ → value v
  value_result : ∀ {m : Machine} {op : Op} {new : Nat} {u v w : Value}, holds m → value u →
    value v → u.whole? = none ∨ v.whole? = none → op.onValues m.lists new u v = .ok w → value w
  value_successor : ∀ {m : Machine} {new : Nat} {u w : Value}, holds m → value u →
    u.add m.lists new (.int 1) = .ok w → value w
  value_of_stored : ∀ {name heap v}, stored name heap v → (∃ id, v = .thunk id) ∨ value v
  stored_congr : ∀ {name other heap v}, (name == other) = true → stored name heap v →
    stored other heap v
  stored_value : ∀ {name heap v}, value v → stored name heap v
  stored_thunk : ∀ {m : Machine} {name : Name} {e : Tree}, holds m → named name →
    m.isEager name = false → source e →
    stored name (m.heap.push { expression := e }) (.thunk m.heap.size)
  stored_bound : ∀ {m : Machine} {name : Name} {v : Value}, holds m → m.lookup name = some v →
    stored name m.heap v
  stored_recorded : ∀ {m : Machine} {name : Name} {change : Change Value}, holds m →
    change ∈ m.history.of name → stored name m.heap change.old
  holds_congr : ∀ {m m' : Machine}, holds m → m'.bindings = m.bindings → m'.heap = m.heap →
    m'.lists.added = m.lists.added → m'.history = m.history → m'.profile = m.profile → holds m'
  holds_bind : ∀ {m : Machine} {name : Name} {v : Value}, holds m →
    named name ∨ (m.lookup name).isSome → stored name m.heap v →
    holds { m with bindings := m.bindings.insert name v }
  holds_history : ∀ {m : Machine} {h : History Value}, holds m →
    (∀ {name change}, change ∈ h.of name → stored name m.heap change.old) →
    holds { m with history := h }
  holds_suspend : ∀ {m : Machine} {e : Tree}, holds m → source e →
    holds { m with heap := m.heap.push { expression := e } }
  holds_settle : ∀ {m : Machine} {id : Nat} {v : Value}, holds m → value v →
    holds { m with heap := m.heap.modify id fun t => { t with value? := some v } }
  value_advance : ∀ {m : Machine} {u step w : Value} {l : Lists}, holds m → value u → value step →
    u.advance m.lists step = .ok (w, l) → value w ∧ holds { m with lists := l }

namespace Invariant

open Exec

variable {α β : Type}

/-- The two machines are the same up to the count of evaluations, and in that as well if `exact`;
the first one has the property. -/
structure Alike (I : Invariant) (exact : Prop) (m m' : Machine) : Prop where
  same : m' = { m with evaluations := m'.evaluations }
  count : exact → m'.evaluations = m.evaluations
  holds : I.holds m

variable {I : Invariant} {exact : Prop} {m m' : Machine}

namespace Alike

theorem eq (h : I.Alike True m m') : m' = m := by
  rw [h.same, h.count trivial]

theorem refl (exact : Prop) (h : I.holds m) : I.Alike exact m m :=
  ⟨rfl, fun _ => rfl, h⟩

variable (h : I.Alike exact m m')
include h

theorem lists : m'.lists = m.lists := by rw [h.same]

theorem heap : m'.heap = m.heap := by rw [h.same]

theorem bindings : m'.bindings = m.bindings := by rw [h.same]

theorem history : m'.history = m.history := by rw [h.same]

theorem lookup (name : Name) : m'.lookup name = m.lookup name := by
  rw [Machine.lookup, h.bindings, Machine.lookup]

theorem isEager (name : Name) : m'.isEager name = m.isEager name := by
  rw [h.same]
  rfl

/-- A change that does not look at the count leaves the machines alike. -/
theorem change {f : Machine → Machine} (hI : I.holds (f m))
    (hf : ∀ k, f { m with evaluations := k } = { f m with evaluations := k }) :
    I.Alike exact (f m) (f m') where
  same := by
    rw [h.same, hf]
  count hexact := by
    rw [h.same, h.count hexact]
  holds := hI

end Alike

/-- Two steps have the same outcome, and leave the machines alike. -/
abbrev Agrees (I : Invariant) (exact : Prop) (m m' : Machine) (x y : Exec α) (Q : α → Prop) :
    Prop :=
  Agree (I.Alike exact) (I.Alike exact) m m' x y Q

/-- A step with one outcome only, which does not look at the count. -/
theorem Alike.step {x : Exec α} {g : Machine → α} {f : Machine → Machine} {Q : α → Prop}
    (h : I.Alike exact m m') (hx : ∀ n, x n = .ok (g n) (f n)) (hI : I.holds (f m)) (hQ : Q (g m))
    (hf : ∀ k, g { m with evaluations := k } = g m ∧
      f { m with evaluations := k } = { f m with evaluations := k }) :
    I.Agrees exact m m' x x Q := by
  have hg : g m' = g m := by rw [h.same, (hf _).1]
  exact agree_of_apply (hx m) (hg ▸ hx m') (h.change hI fun k => (hf k).2) hQ

/-- A step that changes nothing an invariant is about. -/
theorem Alike.step_congr {x : Exec Unit} {f : Machine → Machine} (h : I.Alike exact m m')
    (hx : ∀ n, x n = .ok () (f n))
    (hsame : (f m).bindings = m.bindings ∧ (f m).heap = m.heap ∧
      (f m).lists.added = m.lists.added ∧ (f m).history = m.history ∧ (f m).profile = m.profile)
    (hf : ∀ k, f { m with evaluations := k } = { f m with evaluations := k }) :
    I.Agrees exact m m' x x fun _ => True :=
  h.step (g := fun _ => ()) hx
    (I.holds_congr h.holds hsame.1 hsame.2.1 hsame.2.2.1 hsame.2.2.2.1 hsame.2.2.2.2) trivial
    fun k => ⟨rfl, hf k⟩

/-! ## Expressions -/

/-- What a list holds is of the sort of values. -/
theorem contents (hm : I.holds m) {id : Nat} {xs : List Value} (hxs : ∀ v ∈ xs, I.value v) :
    ∀ v ∈ m.lists.contents id xs, I.value v := by
  intro v hv
  rw [Lists.contents] at hv
  split at hv
  · exact hxs v hv
  · rcases List.mem_append.1 hv with hv | hv
    · exact hxs v hv
    · exact I.value_added hm v hv

theorem countEvaluation (h : I.Alike exact m m') :
    I.Agrees exact m m' countEvaluation countEvaluation fun _ => True := by
  refine agree_of_apply (countEvaluation_apply m) (countEvaluation_apply m') ⟨?_, ?_, ?_⟩ trivial
  · rw [h.same]
  · exact fun hexact => congrArg (· + 1) (h.count hexact)
  · exact I.holds_congr h.holds rfl rfl rfl rfl rfl

theorem newId (h : I.Alike exact m m') : I.Agrees exact m m' newId newId fun _ => True :=
  h.step (g := fun m => m.lists.next) newId_apply
    (I.holds_congr h.holds rfl rfl rfl rfl rfl) trivial fun _ => ⟨rfl, rfl⟩

theorem isTruthy (v : Value) (h : I.Alike exact m m') :
    I.Agrees exact m m' (isTruthy v) (isTruthy v) fun _ => True :=
  h.step (isTruthy_apply v) h.holds trivial fun _ => ⟨rfl, rfl⟩

theorem shown (v : Value) (h : I.Alike exact m m') :
    I.Agrees exact m m' (shown v) (shown v) fun _ => True := by
  refine agree_view_bind ?_
  rw [h.lists]
  exact agree_ofExcept_bind h fun s _ => agree_pure h trivial

theorem isLess (u v : Value) (h : I.Alike exact m m') :
    I.Agrees exact m m' (isLess u v) (isLess u v) fun _ => True := by
  refine agree_view_bind (agree_view_bind ?_)
  rw [h.lists]
  exact agree_ofExcept h h fun _ _ => trivial

theorem item {u : Value} (hu : I.value u) (position : Value) (h : I.Alike exact m m') :
    I.Agrees exact m m' (item u position) (item u position) I.value := by
  cases u with
  | list id xs =>
    simp only [Exec.item]
    split
    · refine agree_get_bind ?_
      rw [h.lists]
      refine agree_ofExcept h h fun v hv => ?_
      exact contents h.holds (I.value_list.1 hu) v (mem_of_item hv)
    · exact agree_throw h
  | _ => exact agree_bind (shown _ h) fun _ _ _ h1 _ => agree_throw h1

theorem lengthOf (v : Value) (h : I.Alike exact m m') :
    I.Agrees exact m m' (lengthOf v) (lengthOf v) I.value := by
  cases v with
  | text s => exact agree_pure h (I.value_int _)
  | list id xs =>
    refine agree_get_bind ?_
    rw [h.lists]
    exact agree_pure h (I.value_int _)
  | _ => exact agree_throw h

/-- An operator on two values gives one. -/
theorem apply (op : Op) {u v : Value} (hu : I.value u) (hv : I.value v) (h : I.Alike exact m m') :
    I.Agrees exact m m' (apply op u v) (apply op u v) I.value := by
  have onValues (hwhole : u.whole? = none ∨ v.whole? = none) : I.Agrees exact m m'
      (do let new ← Exec.newId; Exec.ofExcept (op.onValues (← get).lists new u v))
      (do let new ← Exec.newId; Exec.ofExcept (op.onValues (← get).lists new u v)) I.value := by
    refine agree_bind (newId h) fun _ _ new h1 _ => agree_get_bind ?_
    rw [h1.lists]
    exact agree_ofExcept h1 h1 fun w hw => I.value_result h1.holds hu hv hwhole hw
  unfold Exec.apply
  cases hwu : u.whole? with
  | none => exact onValues (.inl hwu)
  | some a =>
    cases hwv : v.whole? with
    | none => exact onValues (.inr hwv)
    | some b => exact agree_pure h (I.value_int _)

/-- Expressions come to the same values, given that thunks do. -/
structure Forces (I : Invariant) (exact : Prop) (force : Nat → Exec Value) : Prop where
  agrees : ∀ {m m'} id, I.Alike exact m m' → I.Agrees exact m m' (force id) (force id) I.value

section Force

variable {force : Nat → Exec Value} (hforce : I.Forces exact force)
include hforce

/-- A binding is a value, or a thunk that is worked out to one. -/
theorem resolve {v : Value} (hv : (∃ id, v = .thunk id) ∨ I.value v) (h : I.Alike exact m m') :
    I.Agrees exact m m' (resolve force v) (resolve force v) I.value := by
  rcases hv with ⟨id, rfl⟩ | hv
  · exact hforce.agrees id h
  · cases v with
    | thunk id => exact hforce.agrees id h
    | _ => exact agree_pure h hv

theorem resolve? (name : Name) (h : I.Alike exact m m') :
    I.Agrees exact m m' (resolve? force (m.lookup name)) (resolve? force (m'.lookup name))
      I.value := by
  rw [h.lookup]
  cases hv : m.lookup name with
  | none => exact agree_pure h I.value_none
  | some v => exact resolve hforce (I.value_of_stored (I.stored_bound h.holds hv)) h

theorem operate (op : Tree) {u v : Value} (hu : I.value u) (hv : I.value v)
    (h : I.Alike exact m m') :
    I.Agrees exact m m' (operate force op u v) (operate force op u v) I.value := by
  refine agree_bind (resolve hforce (.inr hu) h) fun _ _ u h1 hu => ?_
  refine agree_bind (resolve hforce (.inr hv) h1) fun _ _ v h2 hv => ?_
  split
  · exact apply _ hu hv h2
  · exact agree_throw h2

end Force

/-- Every expression is counted before anything else is done. -/
private theorem counted {f : Unit → Exec α} {Q : α → Prop} (h : I.Alike exact m m')
    (hf : ∀ {n n'}, I.Alike exact n n' → I.Agrees exact n n' (f ()) (f ()) Q) :
    I.Agrees exact m m' (Exec.countEvaluation >>= f) (Exec.countEvaluation >>= f) Q :=
  agree_bind (countEvaluation h) fun _ _ _ h1 _ => hf h1

mutual

/-- Every expression comes to a value, if thunks do. -/
theorem evaluateWith {force : Nat → Exec Value} (hforce : I.Forces exact force) :
    ∀ (e : Tree) {m m' : Machine}, I.Alike exact m m' → I.Agrees exact m m'
      (evaluateWith force e) (evaluateWith force e) I.value
  | .thunk _, _, _, h => counted h fun h1 => agree_throw h1
  | .list xs, _, _, h => counted h fun h1 => by
    refine agree_bind (evaluateItems hforce xs h1) fun _ _ vs h2 hvs => ?_
    exact agree_bind (newId h2) fun _ _ id h3 _ => agree_pure h3 (I.value_list.2 hvs)
  | .tuple [left, op, right], _, _, h => counted h fun h1 => by
    refine agree_bind (evaluateWith hforce left h1) fun _ _ u h2 hu => ?_
    refine agree_bind (evaluateWith hforce right h2) fun _ _ v h3 hv => ?_
    exact agree_ite (fun _ => item hu v h3) fun _ => operate hforce op hu hv h3
  | .tuple [first, e], _, _, h => counted h fun h1 => by
    refine agree_ite (fun _ => ?_) fun _ => agree_throw h1
    exact agree_bind (evaluateWith hforce e h1) fun _ _ v h2 _ => lengthOf v h2
  | .tuple [], _, _, h => counted h fun h1 => agree_throw h1
  | .tuple [_], _, _, h => counted h fun h1 => agree_throw h1
  | .tuple (_ :: _ :: _ :: _ :: _), _, _, h => counted h fun h1 => agree_throw h1
  | .int n, _, _, h => counted h fun h1 => agree_pure h1 (I.value_int n)
  | .bool b, _, _, h => counted h fun h1 => agree_pure h1 (I.value_bool b)
  | .text s, _, _, h => counted h fun h1 =>
    agree_ite (fun _ => agree_pure h1 (I.value_text _)) fun _ =>
      agree_get_bind (resolve? hforce _ h1)
  | .none, _, _, h => counted h fun h1 => agree_throw h1
  | .float _, _, _, h => counted h fun h1 => agree_throw h1

/-- The items of a list come to values. -/
theorem evaluateItems {force : Nat → Exec Value} (hforce : I.Forces exact force) :
    ∀ (es : List Tree) {m m' : Machine}, I.Alike exact m m' → I.Agrees exact m m'
      (evaluateItems force es) (evaluateItems force es) fun vs => ∀ v ∈ vs, I.value v
  | [], _, _, h => agree_pure h (List.forall_mem_nil _)
  | e :: rest, _, _, h => by
    refine agree_bind (evaluateWith hforce e h) fun _ _ v h1 hv => ?_
    refine agree_bind (evaluateItems hforce rest h1) fun _ _ vs h2 hvs => ?_
    exact agree_pure h2 (List.forall_mem_cons.2 ⟨hv, hvs⟩)

end

/-- A thunk comes to the same value on both machines, at any depth. -/
theorem forces_forceWithin (I : Invariant) (exact : Prop) :
    ∀ depth, I.Forces exact (forceWithin depth)
  | 0 => ⟨fun _ h => agree_throw h⟩
  | depth + 1 => ⟨fun {m m'} id h => by
    refine agree_get_bind ?_
    rw [h.heap]
    split
    · exact agree_pure h I.value_none
    · next thunk ht =>
      obtain ⟨e, value?⟩ := thunk
      cases value? with
      | some v => exact agree_pure h (I.value_worked h.holds ht)
      | none =>
        refine agree_bind (evaluateWith (I.forces_forceWithin exact depth) e h)
          fun _ _ v h1 hv => ?_
        refine agree_bind (P := fun _ => True) ?_ fun _ _ _ h2 _ => agree_pure h2 hv
        exact h1.step (g := fun _ => ()) (settle_apply id v) (I.holds_settle h1.holds hv) trivial
          fun _ => ⟨rfl, rfl⟩⟩

theorem forces_force (I : Invariant) (exact : Prop) : I.Forces exact force where
  agrees id h := by
    refine agree_get_bind ?_
    rw [h.heap]
    exact (I.forces_forceWithin exact _).agrees id h

theorem evaluate (e : Tree) (h : I.Alike exact m m') :
    I.Agrees exact m m' (evaluate e) (evaluate e) I.value := by
  refine agree_get_bind ?_
  rw [h.heap]
  exact evaluateWith (I.forces_forceWithin exact _) e h

theorem valueOfName (name : Name) (h : I.Alike exact m m') :
    I.Agrees exact m m' (valueOfName name) (valueOfName name) I.value :=
  agree_get_bind (resolve? (I.forces_force exact) name h)

/-! ## Single changes -/

theorem put (writer : Writer) (s : String) (h : I.Alike exact m m') :
    I.Agrees exact m m' (put writer s) (put writer s) fun _ => True :=
  h.step_congr (put_apply writer s) ⟨rfl, rfl, rfl, rfl, rfl⟩ fun _ => rfl

theorem credit (v : Value) (h : I.Alike exact m m') :
    I.Agrees exact m m' (credit v) (credit v) fun _ => True :=
  h.step_congr (credit_apply v) ⟨rfl, rfl, rfl, rfl, rfl⟩ fun _ => rfl

theorem charge (v : Value) (h : I.Alike exact m m') :
    I.Agrees exact m m' (charge v) (charge v) fun _ => True := by
  have hsame : m'.memory.charge (m'.size m'.lists v) = m.memory.charge (m.size m.lists v) := by
    rw [h.same]
  refine agree_get_bind ?_
  rw [hsame]
  refine agree_ofExcept_bind h fun memory _ => ?_
  exact h.step_congr (f := fun m => { m with memory }) (modify_apply _)
    ⟨rfl, rfl, rfl, rfl, rfl⟩ fun _ => rfl

/-- Charging for a value changes the account only. -/
theorem charge_eq_ok {v : Value} {n : Machine} (h : Exec.charge v m = .ok () n) :
    ∃ memory, n = { m with memory } := by
  rw [charge_apply] at h
  split at h
  · next memory _ =>
    cases h
    exact ⟨memory, rfl⟩
  · cases h

/-- An expression that may be put off. -/
theorem suspend {e : Tree} (he : I.source e) (h : I.Alike exact m m') :
    I.Agrees exact m m' (suspend e) (suspend e) fun _ => True :=
  h.step (g := fun m => .thunk m.heap.size) (suspend_apply e) (I.holds_suspend h.holds he) trivial
    fun _ => ⟨rfl, rfl⟩

/-- What is recorded is what the variable may hold. -/
theorem remember (name : Name) {old : Value} (hold : I.stored name m.heap old)
    (h : I.Alike exact m m') :
    I.Agrees exact m m' (remember name old) (remember name old) fun _ => True := by
  refine h.step (g := fun _ => ()) (remember_apply name old) ?_ trivial fun _ => ⟨rfl, rfl⟩
  refine I.holds_congr (m := { m with history := m.history.push name old m.clock.read.1 }) ?_
    rfl rfl rfl rfl rfl
  refine I.holds_history h.holds fun {other change} hc => ?_
  rw [History.of_push] at hc
  split at hc
  · next hn =>
    rcases List.mem_cons.1 hc with rfl | hc
    · exact I.stored_congr hn hold
    · exact I.stored_recorded h.holds hc
  · exact I.stored_recorded h.holds hc

theorem takeBack (name : Name) (h : I.Alike exact m m') :
    I.Agrees exact m m' (takeBack name) (takeBack name) fun _ => True := by
  refine h.step (g := fun m => (m.history.pop name).1) (takeBack_apply name) ?_ trivial
    fun _ => ⟨rfl, rfl⟩
  refine I.holds_history h.holds fun {other change} hc => ?_
  rw [History.of_pop] at hc
  split at hc
  · exact I.stored_recorded h.holds (List.mem_of_mem_tail hc)
  · exact I.stored_recorded h.holds hc

/-- What is taken back was recorded. -/
theorem stored_takeBack {name : Name} {old : Value} {n : Machine} (hm : I.holds m)
    (h : Exec.takeBack name m = .ok (some old) n) : I.stored name n.heap old := by
  rw [takeBack_apply, EStateM.Result.ok.injEq, History.pop_fst] at h
  obtain ⟨hold, rfl⟩ := h
  obtain ⟨change, hc, rfl⟩ := Option.map_eq_some_iff.1 hold
  show I.stored name m.heap change.old
  exact I.stored_recorded hm (List.mem_of_mem_head? hc)

theorem readClock (h : I.Alike exact m m') :
    I.Agrees exact m m' readClock readClock fun _ => True :=
  h.step (g := fun m => m.clock.read.1) (f := fun m => { m with clock := m.clock.read.2 })
    (fun _ => rfl) (I.holds_congr h.holds rfl rfl rfl rfl rfl) trivial fun _ => ⟨rfl, rfl⟩

theorem prune (h : I.Alike exact m m') : I.Agrees exact m m' prune prune fun _ => True := by
  refine agree_bind (readClock h) fun n n' now h1 _ => ?_
  have hforget : I.Agrees exact n n'
      (modify fun m => { m with history := m.history.prune History.retention now })
      (modify fun m => { m with history := m.history.prune History.retention now })
      fun _ => True := by
    refine h1.step (g := fun _ => ()) (modify_apply _) ?_ trivial fun _ => ⟨rfl, rfl⟩
    refine I.holds_history h1.holds fun {name change} hc => ?_
    rw [History.of_prune] at hc
    split at hc
    · exact I.stored_recorded h1.holds (List.mem_filter.1 hc).1
    · exact I.stored_recorded h1.holds hc
  refine agree_bind hforget fun n n' _ h2 _ => agree_get_bind ?_
  have hsame : footprint (n'.size n'.lists) n'.history = footprint (n.size n.lists) n.history := by
    rw [h2.same]
  rw [hsame]
  exact agree_ite (fun _ => put _ _ h2) fun _ => agree_pure h2 trivial

/-! ## Statements without blocks -/

/-- The watch has nothing to object to as long as the invariant holds. -/
structure Tolerant (I : Invariant) (watch : Watch) : Prop where
  told : ∀ event {m}, I.holds m → watch event m = .ok () m

/-- No watch has nothing to object to. -/
theorem tolerant_unwatched : I.Tolerant unwatched :=
  ⟨fun _ _ _ => rfl⟩

section Watch

variable {watch : Watch} (hw : I.Tolerant watch)
include hw

/-- An event is let through as long as the invariant holds. -/
theorem told (event : Event) {x y : Exec α} {Q : α → Prop} (h : I.Alike exact m m')
    (hxy : I.Agrees exact m m' x y Q) :
    I.Agrees exact m m' (watch event >>= fun _ => x) (unwatched event >>= fun _ => y) Q where
  ok hx := by
    rw [bind_of_ok (hw.told event h.holds)] at hx
    exact hxy.ok hx
  error hx := by
    rw [bind_of_ok (hw.told event h.holds)] at hx
    exact hxy.error hx

theorem evaluateWatched (e : Tree) (h : I.Alike exact m m') :
    I.Agrees exact m m' (evaluateWatched watch e) (evaluateWatched unwatched e) I.value :=
  told hw _ h (evaluate e h)

/-- A name may be bound if that is allowed, or if it has been bound before. -/
theorem bindWatched {name : Name} {v : Value} (hname : I.named name ∨ (m.lookup name).isSome)
    (hv : I.stored name m.heap v) (h : I.Alike exact m m') :
    I.Agrees exact m m' (bindWatched watch name v) (bindWatched unwatched name v)
      fun _ => True := by
  refine told hw _ h (agree_get_bind ?_)
  rw [h.bindings]
  refine agree_ofExcept_bind h fun _ _ => ?_
  exact h.step (g := fun _ => ()) (f := fun m => { m with bindings := m.bindings.insert name v })
    (modify_apply _) (I.holds_bind h.holds hname hv) trivial fun _ => ⟨rfl, rfl⟩

/-- The former binding is recorded, and the new one is of the right sort. -/
theorem replace {name : Name} {new : Value} (hname : I.named name)
    (hnew : I.stored name m.heap new) (h : I.Alike exact m m') :
    I.Agrees exact m m' (replace watch name new) (replace unwatched name new) fun _ => True := by
  have hold : I.stored name m.heap ((m.lookup name).getD .none) := by
    cases hv : m.lookup name with
    | none => exact I.stored_value I.value_none
    | some v => exact I.stored_bound h.holds hv
  refine agree_get_bind ?_
  rw [h.lookup]
  generalize (m.lookup name).getD .none = old at hold
  -- the account says nothing about the heap, by which it is judged what may be stored
  have last {n n' : Machine} (hheap : n.heap = m.heap) (hn : I.Alike exact n n') :
      I.Agrees exact n n' (do Exec.remember name old; Exec.bindWatched watch name new)
        (do Exec.remember name old; Exec.bindWatched unwatched name new) fun _ => True := by
    refine agree_bind_of_ok (remember name (hheap ▸ hold) hn) fun _ _ _ hx h1 _ => ?_
    rw [remember_apply] at hx
    cases hx
    exact bindWatched hw (.inl hname) (hheap ▸ hnew) h1
  refine agree_bind_of_ok (charge new h) fun n n' _ hx h1 _ => ?_
  obtain ⟨memory, rfl⟩ := charge_eq_ok hx
  refine agree_ite (fun _ => ?_) fun _ => last rfl h1
  refine agree_bind_of_ok (credit old h1) fun _ _ _ hx h2 _ => ?_
  rw [credit_apply] at hx
  cases hx
  exact last rfl h2

theorem valueFor (name : Name) {e : Tree} (he : I.source e) (h : I.Alike exact m m') :
    I.Agrees exact m m' (valueFor watch name e) (valueFor unwatched name e) fun _ => True := by
  refine agree_get_bind ?_
  rw [h.isEager]
  refine agree_ite (fun _ => ?_) fun _ => suspend he h
  exact (evaluateWatched hw e h).imp fun _ _ => trivial

/-- What an assignment binds its name to is a value or a new thunk. -/
theorem stored_valueFor {name : Name} {e : Tree} {new : Value} {n : Machine} (hm : I.holds m)
    (hname : I.named name) (he : I.source e) (h : Exec.valueFor watch name e m = .ok new n) :
    I.stored name n.heap new := by
  rw [valueFor_apply] at h
  split at h
  · obtain ⟨_, -, -, hv⟩ := (evaluateWatched hw e (.refl True hm)).ok h
    exact I.stored_value hv
  · next hlazy =>
    cases h
    exact I.stored_thunk hm hname (eq_false_of_ne_true hlazy) he

theorem assign {t : Tree} (ht : I.runs t) (hform : t.form? = some .assign)
    (h : I.Alike exact m m') :
    I.Agrees exact m m' (assign watch t) (assign unwatched t) fun _ => True := by
  refine agree_bind (h.step_congr countAssignment_apply ⟨rfl, rfl, rfl, rfl, rfl⟩ fun _ => rfl)
    fun _ _ _ h1 _ => ?_
  refine agree_ofExcept_bind h1 fun (_, target, e) hparts => ?_
  refine agree_ofExcept_bind h1 fun name hn => ?_
  have he := I.source_assigned ht hform hparts
  have htarget : t.target? = some target := by simp only [Tree.target?, hform, hparts]
  have hname := I.named_target ht htarget hn
  refine agree_bind_of_ok (valueFor hw name he h1) fun _ _ new hx h2 _ => ?_
  exact replace hw hname (stored_valueFor hw h1.holds hname he hx) h2

omit hw in
theorem wordFor (name : Name) (n : Int) (h : I.Alike exact m m') :
    I.Agrees exact m m' (wordFor name n) (wordFor name n) fun _ => True := by
  refine agree_get_bind ?_
  rw [h.isEager]
  exact agree_ite (fun _ => agree_pure h trivial) fun _ => suspend (I.source_int n) h

omit hw in
/-- A word, or a thunk of a word, may be held by the variable. -/
theorem stored_wordFor {name : Name} {k : Int} {new : Value} {n : Machine} (hm : I.holds m)
    (hname : I.named name) (h : Exec.wordFor name k m = .ok new n) : I.stored name n.heap new := by
  rw [wordFor_eq_ok] at h
  split at h
  · obtain ⟨rfl, -⟩ := h
    exact I.stored_value (I.value_int k)
  · next hlazy =>
    obtain ⟨rfl, rfl⟩ := h
    exact I.stored_thunk hm hname (eq_false_of_ne_true hlazy) (I.source_int k)

theorem compound (op : Compound) {t : Tree} (ht : I.runs t)
    (hform : t.form? = some (.compound op)) (h : I.Alike exact m m') :
    I.Agrees exact m m' (compound watch op t) (compound unwatched op t) fun _ => True := by
  refine agree_ofExcept_bind h fun (_, target, e) hparts => ?_
  refine agree_ofExcept_bind h fun name hn => ?_
  have htarget : t.target? = some target := by simp only [Tree.target?, hform, hparts]
  have hname := I.named_target ht htarget hn
  refine agree_bind (valueOfName name h) fun _ _ current h1 hcurrent => ?_
  refine agree_bind (evaluateWatched hw e h1) fun _ _ v h2 hv => ?_
  refine agree_bind (resolve (I.forces_force exact) (.inr hv) h2) fun _ _ operand h3 _ => ?_
  refine agree_bind (remember name (I.stored_value hcurrent) h3) fun _ _ _ h4 _ => ?_
  split
  · exact agree_throw h4
  · split
    · exact agree_throw h4
    · refine agree_bind_of_ok (wordFor name _ h4) fun _ _ new hx h5 _ => ?_
      exact bindWatched hw (.inl hname) (stored_wordFor h4.holds hname hx) h5

/-- A value that is put back was recorded for that variable. -/
theorem reverse {t : Tree} (ht : I.runs t) (hform : t.form? = some .reverse)
    (h : I.Alike exact m m') :
    I.Agrees exact m m' (reverse watch t) (reverse unwatched t) fun _ => True := by
  refine agree_bind (h.step_congr countReversal_apply ⟨rfl, rfl, rfl, rfl, rfl⟩ fun _ => rfl)
    fun _ _ _ h1 _ => ?_
  refine agree_ofExcept_bind h1 fun (_, target) hparts => ?_
  refine agree_ofExcept_bind h1 fun name hn => ?_
  have htarget : t.target? = some target := by simp only [Tree.target?, hform, hparts]
  refine agree_bind_of_ok (takeBack name h1) fun _ _ old hx h2 _ => ?_
  cases old with
  | none => exact agree_pure h2 trivial
  | some old =>
    refine agree_ite (fun _ => ?_) fun _ => agree_pure h2 trivial
    have hold := stored_takeBack h1.holds hx
    refine agree_bind (bindWatched hw (.inl (I.named_target ht htarget hn)) hold h2)
      fun _ _ _ h3 _ => ?_
    exact agree_bind (credit old h3) fun _ _ _ h4 _ => charge old h4

/-- The counter of a loop goes up only if it is bound: nothing has no value. -/
theorem increment (counter : Tree) (h : I.Alike exact m m') :
    I.Agrees exact m m' (increment watch counter) (increment unwatched counter)
      fun _ => True := by
  refine agree_ofExcept_bind h fun name _ => agree_get_bind ?_
  rw [h.lookup]
  refine agree_view_bind ?_
  rw [h.lists]
  cases hv : m.lookup name with
  | none =>
    refine agree_bind (P := fun _ => False) ?_ fun _ _ _ _ hfalse => hfalse.elim
    refine told hw _ h (agree_get_bind ?_)
    exact agree_bind (countEvaluation h) fun _ _ _ h1 _ => agree_throw h1
  | some old =>
    refine agree_bind_of_ok (evaluateWatched hw _ h) fun n _ v hx h1 hvalue => agree_get_bind ?_
    rw [h1.lists]
    refine agree_ofExcept_bind h1 fun w hadd => ?_
    have hbound : (n.lookup name).isSome := by
      rw [Exec.evaluateWatched, bind_of_ok (hw.told _ h.holds)] at hx
      rw [((evaluate_looks _).ok hx).lookup, hv]
      rfl
    have hsum := I.value_successor h1.holds hvalue hadd
    exact bindWatched hw (.inr hbound) (I.stored_value hsum) h1

/-- What a loop goes on with is a value again. -/
theorem advance {v stride : Value} (hv : I.value v) (hstride : I.value stride)
    (h : I.Alike exact m m') :
    I.Agrees exact m m' (advance watch v stride) (advance unwatched v stride) I.value := by
  have extended : I.Agrees exact m m' (watchExtension watch v) (watchExtension unwatched v)
      fun _ => True := by
    cases v with
    | list id _ => exact agree_of_apply (hw.told _ h.holds) rfl h trivial
    | _ => exact agree_pure h trivial
  refine agree_bind extended fun _ _ _ h1 _ => agree_get_bind ?_
  rw [h1.lists]
  refine agree_ofExcept_bind h1 fun (w, lists) hadvance => ?_
  obtain ⟨hvalue, hholds⟩ := I.value_advance h1.holds hv hstride hadvance
  refine agree_bind (P := fun _ => True) ?_ fun _ _ _ h2 _ => agree_pure h2 hvalue
  exact h1.step (g := fun _ => ()) (f := fun m => { m with lists }) (modify_apply _) hholds trivial
    fun _ => ⟨rfl, rfl⟩

omit hw in
theorem printed (v : Value) (h : I.Alike exact m m') :
    I.Agrees exact m m' (printed v) (printed v) fun _ => True := by
  cases v with
  | text s => exact agree_pure h trivial
  | _ => exact shown _ h

theorem printedAll (es : List Tree) (h : I.Alike exact m m') :
    I.Agrees exact m m' (printedAll watch es) (printedAll unwatched es) fun _ => True := by
  induction es generalizing m m' with
  | nil => exact agree_pure h trivial
  | cons e rest ih =>
    refine agree_bind (evaluateWatched hw e h) fun _ _ v h1 _ => ?_
    refine agree_bind (printed v h1) fun _ _ s h2 _ => ?_
    exact agree_bind (ih h2) fun _ _ ss h3 _ => agree_pure h3 trivial

theorem print (t : Tree) (h : I.Alike exact m m') :
    I.Agrees exact m m' (print watch t) (print unwatched t) fun _ => True := by
  refine agree_ofExcept_bind h fun (_, values) _ => ?_
  refine agree_ofExcept_bind h fun es _ => ?_
  exact agree_bind (printedAll hw es h) fun _ _ _ h1 _ => put _ _ h1

theorem revtrace (t : Tree) (h : I.Alike exact m m') :
    I.Agrees exact m m' (revtrace watch t) (revtrace unwatched t) fun _ => True := by
  refine agree_ofExcept_bind h fun (_, target, e) _ => ?_
  refine agree_bind (evaluateWatched hw e h) fun n n' position h1 _ => ?_
  refine agree_ofExcept_bind h1 fun name _ => ?_
  refine agree_get_bind (agree_view_bind ?_)
  rw [h1.lists, h1.history]
  refine agree_ofExcept_bind h1 fun old _ => ?_
  split
  · refine agree_bind (shown position h1) fun _ _ _ h2 _ => ?_
    exact agree_bind (shown _ h2) fun _ _ _ h3 _ => put _ _ h3
  · exact agree_bind (shown position h1) fun _ _ _ h2 _ => put _ _ h2

theorem chooseElif (no : Tree) (elifs : List Tree) (h : I.Alike exact m m') :
    I.Agrees exact m m' (chooseElif watch no elifs) (chooseElif unwatched no elifs)
      fun _ => True := by
  induction elifs generalizing m m' with
  | nil => exact agree_pure h trivial
  | cons x rest ih =>
    refine agree_ofExcept_bind h fun (condition, body) _ => ?_
    refine agree_bind (evaluateWatched hw condition h) fun _ _ v h1 _ => ?_
    refine agree_bind (isTruthy v h1) fun _ _ b h2 _ => ?_
    exact agree_ite (fun _ => agree_pure h2 trivial) fun _ => ih h2

theorem strideOf (step : Tree) (h : I.Alike exact m m') :
    I.Agrees exact m m' (strideOf watch step) (strideOf unwatched step) I.value :=
  agree_ite (fun _ => evaluateWatched hw step h) fun _ => agree_pure h (I.value_int 1)

theorem evaluateAll (es : List Tree) (h : I.Alike exact m m') :
    I.Agrees exact m m' (es.mapM (Exec.evaluateWatched watch))
      (es.mapM (Exec.evaluateWatched unwatched)) fun vs => ∀ v ∈ vs, I.value v := by
  induction es generalizing m m' with
  | nil => exact agree_pure h (List.forall_mem_nil _)
  | cons e rest ih =>
    rw [List.mapM_cons, List.mapM_cons]
    refine agree_bind (evaluateWatched hw e h) fun _ _ v h1 hv => ?_
    refine agree_bind (ih h1) fun _ _ vs h2 hvs => ?_
    exact agree_pure h2 (List.forall_mem_cons.2 ⟨hv, hvs⟩)

/-! ## Statements with blocks -/

/-- Statements end alike, carried out in the one way and in the other. -/
structure Performs (I : Invariant) (exact : Prop) (run run' : Tree → Exec Bool) : Prop where
  agrees : ∀ {t m m'}, I.runs t → I.Alike exact m m' →
    I.Agrees exact m m' (run t) (run' t) fun _ => True

section Blocks

variable {run run' : Tree → Exec Bool} {t : Tree} (hrun : I.Performs exact run run')
include hrun

omit hw in
/-- Statements in a row. -/
theorem inOrder {ts : List Tree} (hts : ∀ s ∈ ts, I.runs s) (h : I.Alike exact m m') :
    I.Agrees exact m m' (inOrder run ts) (inOrder run' ts) fun _ => True :=
  agree_inOrder h fun s hs _ _ h1 => hrun.agrees (hts s hs) h1

omit hw in
/-- A block of a statement that may be carried out. -/
theorem block {body : Tree} (ht : I.runs t) (hb : body ∈ t.blocks) (h : I.Alike exact m m') :
    I.Agrees exact m m' (block run body) (block run' body) fun _ => True :=
  agree_ofExcept_bind h fun _ hi =>
    inOrder hrun (fun s hs => I.runs_inner ht s (Tree.mem_inner hb hi hs)) h

theorem branch (ht : I.runs t) (hform : t.form? = some .branch) (h : I.Alike exact m m') :
    I.Agrees exact m m' (branch watch run t) (branch unwatched run' t) fun _ => True := by
  refine agree_ofExcept_bind h fun (_, condition, yes, elifs, no) hparts => ?_
  refine agree_bind (evaluateWatched hw condition h) fun _ _ v h1 _ => ?_
  refine agree_bind (isTruthy v h1) fun n n' b h2 _ => ?_
  refine agree_ite (fun _ => block hrun ht (Tree.mem_blocks_yes hform hparts) h2) fun _ => ?_
  refine agree_ofExcept_bind h2 fun xs hxs => ?_
  have hchoose := (chooseElif hw no xs h2).and_left fun _ _ h => chooseElif_mem h
  refine agree_bind hchoose fun _ _ chosen h3 hchosen => ?_
  exact block hrun ht (Tree.mem_blocks_chosen hform hparts hxs hchosen.1) h3

theorem plainLoop (k : Nat) {condition body : Tree} (ht : I.runs t) (hb : body ∈ t.blocks)
    (h : I.Alike exact m m') :
    I.Agrees exact m m' (plainLoop watch run k condition body)
      (plainLoop unwatched run' k condition body) fun _ => True := by
  refine agree_iterate (I := fun _ => True) id (fun _ _ _ h _ => ?_) k m m' () h trivial
  refine agree_bind (evaluateWatched hw condition h) fun _ _ v h1 _ => ?_
  refine agree_bind (isTruthy v h1) fun _ _ b h2 _ => ?_
  refine agree_ite (fun _ => ?_) fun _ => agree_pure h2 trivial
  refine agree_bind (block hrun ht hb h2) fun _ _ c h3 _ => agree_pure h3 ?_
  cases c <;> trivial

theorem countingLoop (k : Nat) {counter stop body : Tree} (ht : I.runs t) (hb : body ∈ t.blocks)
    (h : I.Alike exact m m') :
    I.Agrees exact m m' (countingLoop watch run k counter stop body)
      (countingLoop unwatched run' k counter stop body) fun _ => True := by
  refine agree_bind (evaluateWatched hw stop h) fun n n' last h0 _ => ?_
  refine agree_iterate (I := fun _ => True) id (fun _ _ _ h _ => ?_) k n n' () h0 trivial
  refine agree_bind (evaluateWatched hw counter h) fun _ _ v h1 _ => ?_
  refine agree_bind (isLess v last h1) fun _ _ b h2 _ => ?_
  refine agree_ite (fun _ => ?_) fun _ => agree_pure h2 trivial
  refine agree_bind (block hrun ht hb h2) fun _ _ c h3 _ => ?_
  refine agree_ite (fun _ => ?_) fun _ => agree_pure h3 trivial
  exact agree_bind (increment hw counter h3) fun _ _ _ h4 _ => agree_pure h4 trivial

theorem whileLoop (k : Nat) (ht : I.runs t) (hform : t.form? = some .whileLoop)
    (h : I.Alike exact m m') :
    I.Agrees exact m m' (whileLoop watch run k t) (whileLoop unwatched run' k t) fun _ => True := by
  refine agree_ofExcept_bind h fun (_, condition, body) hparts => ?_
  have hb := Tree.mem_blocks_whileLoop hform hparts
  dsimp only
  split
  · exact agree_ite (fun _ => countingLoop hw hrun k ht hb h) fun _ =>
      plainLoop hw hrun k ht hb h
  · exact plainLoop hw hrun k ht hb h

section For

variable {target body : Tree} (ht : I.runs t) (hb : body ∈ t.blocks)
  (hd : t.target? = some target)
include ht hb hd

/-- The variable of a loop is bound to a value. -/
theorem forPass {v : Value} (hv : I.value v) (h : I.Alike exact m m') :
    I.Agrees exact m m' (forPass watch run target body v) (forPass unwatched run' target body v)
      fun _ => True := by
  refine agree_ofExcept_bind h fun name hn => ?_
  have hname := I.named_target ht hd hn
  refine agree_bind (bindWatched hw (.inl hname) (I.stored_value hv) h) fun _ _ _ h1 _ => ?_
  exact block hrun ht hb h1

theorem rangeLoop (k : Nat) {range : Tree} (h : I.Alike exact m m') :
    I.Agrees exact m m' (rangeLoop watch run k target range body)
      (rangeLoop unwatched run' k target range body) fun _ => True := by
  refine agree_ofExcept_bind h fun (_, start, stop, step) _ => ?_
  refine agree_bind (evaluateWatched hw start h) fun _ _ first h1 hfirst => ?_
  refine agree_bind (evaluateWatched hw stop h1) fun _ _ last h2 _ => ?_
  refine agree_bind (strideOf hw step h2) fun n n' stride h3 hstride => ?_
  refine agree_iterate (I := I.value) id (fun _ _ v h hv => ?_) k n n' first h3 hfirst
  refine agree_bind (isLess v last h) fun _ _ b h4 _ => ?_
  refine agree_ite (fun _ => ?_) fun _ => agree_pure h4 trivial
  refine agree_bind (forPass hw hrun ht hb hd hv h4) fun _ _ c h5 _ => ?_
  refine agree_ite (fun _ => ?_) fun _ => agree_pure h5 trivial
  exact agree_bind (advance hw hv hstride h5) fun _ _ w h6 hw' => agree_pure h6 hw'

/-- A pass for each of the values. -/
theorem eachLoop {vs : List Value} (hvs : ∀ v ∈ vs, I.value v) (h : I.Alike exact m m') :
    I.Agrees exact m m' (eachLoop watch run target body vs) (eachLoop unwatched run' target body vs)
      fun _ => True := by
  induction vs generalizing m m' with
  | nil => exact agree_pure h trivial
  | cons v rest ih =>
    rw [List.forall_mem_cons] at hvs
    refine agree_bind (forPass hw hrun ht hb hd hvs.1 h) fun _ _ b h1 _ => ?_
    exact agree_ite (fun _ => ih hvs.2 h1) fun _ => agree_pure h1 trivial

theorem laterLoop (k id : Nat) (h : I.Alike exact m m') :
    I.Agrees exact m m' (laterLoop watch run k target body id)
      (laterLoop unwatched run' k target body id) fun _ => True := by
  refine agree_iterate (I := fun _ => True) (fun h => h) (fun n n' j h _ => ?_) k m m' 0 h trivial
  refine agree_get_bind ?_
  rw [h.lists]
  split
  · next v hv =>
    have hmem := I.value_added h.holds v (List.mem_of_getElem? hv)
    refine agree_bind (forPass hw hrun ht hb hd hmem h) fun _ _ c h1 _ => agree_pure h1 ?_
    cases c <;> trivial
  · exact agree_pure h trivial

/-- The items of a list and the letters of a text are values. -/
theorem itemLoop (k : Nat) {source : Tree} {v : Value} (hv : I.value v) (h : I.Alike exact m m') :
    I.Agrees exact m m' (itemLoop watch run k target source body v)
      (itemLoop unwatched run' k target source body v) fun _ => True := by
  cases v with
  | list id items =>
    refine agree_bind (eachLoop hw hrun ht hb hd (I.value_list.1 hv) h) fun _ _ b h1 _ => ?_
    exact agree_ite (fun _ => laterLoop hw hrun ht hb hd k id h1) fun _ =>
      agree_pure h1 trivial
  | text s =>
    have hletters : ∀ v ∈ s.letters.map Value.text, I.value v := by
      intro v hv
      obtain ⟨c, -, rfl⟩ := List.mem_map.1 hv
      exact I.value_text c
    refine agree_bind (eachLoop hw hrun ht hb hd hletters h) fun _ _ _ h1 _ => ?_
    exact agree_pure h1 trivial
  | _ => exact agree_throw h

end For

theorem forLoop (k : Nat) (ht : I.runs t) (hform : t.form? = some .forLoop)
    (h : I.Alike exact m m') :
    I.Agrees exact m m' (forLoop watch run k t) (forLoop unwatched run' k t) fun _ => True := by
  refine agree_ofExcept_bind h fun (_, target, source, body) hparts => ?_
  have hb := Tree.mem_blocks_forLoop hform hparts
  have hd : t.target? = some target := by simp only [Tree.target?, hform, hparts]
  refine agree_ofExcept_bind h fun first _ => ?_
  refine agree_ite (fun _ => rangeLoop hw hrun ht hb hd k h) fun _ => ?_
  split
  · refine agree_bind (evaluateAll hw _ h) fun _ _ vs h1 hvs => ?_
    refine agree_bind (eachLoop hw hrun ht hb hd hvs h1) fun _ _ _ h2 _ => ?_
    exact agree_pure h2 trivial
  · refine agree_bind (evaluateWatched hw _ h) fun _ _ v h1 hv => ?_
    exact itemLoop hw hrun ht hb hd k hv h1

/-- One statement ends alike in both runs if those inside of it do. -/
theorem statement (k : Nat) (ht : I.runs t) (h : I.Alike exact m m') :
    I.Agrees exact m m' (statement watch run k t) (statement unwatched run' k t) fun _ => True := by
  have simple {x y : Exec Unit} (hxy : I.Agrees exact m m' x y fun _ => True) :
      I.Agrees exact m m' (simply x) (simply y) fun _ => True :=
    agree_bind hxy fun _ _ _ h _ => agree_pure h trivial
  refine agree_ofExcept_bind h fun tag htag => ?_
  have hform := Tree.form?_of_head htag
  split
  · next hf => exact simple (assign hw ht (hform.trans hf) h)
  · next op hf => exact simple (compound hw op ht (hform.trans hf) h)
  · next hf => exact simple (reverse hw ht (hform.trans hf) h)
  · exact simple (revtrace hw t h)
  · next hf => exact branch hw hrun ht (hform.trans hf) h
  · next hf => exact forLoop hw hrun k ht (hform.trans hf) h
  · next hf => exact whileLoop hw hrun k ht (hform.trans hf) h
  · exact simple (print hw t h)
  · exact agree_pure h trivial
  · exact agree_throw h

end Blocks

/-- **Every statement ends alike on both machines**, and keeps the invariant. -/
theorem performs (k : Nat) : I.Performs exact (perform watch k) (perform unwatched k) := by
  induction k with
  | zero => exact ⟨fun _ h => agree_throw h⟩
  | succ k ih => exact ⟨fun ht h => statement hw ih k ht h⟩

/-- A statement of a program, and the prune after it. -/
theorem topLevel (k : Nat) {t : Tree} (ht : I.runs t) (h : I.Alike exact m m') :
    I.Agrees exact m m' (Run.topLevel watch k t) (Run.topLevel unwatched k t) fun _ => True := by
  refine agree_bind (P := fun _ => True) ?_ fun _ _ _ h1 _ => prune h1
  refine agree_bind ((performs hw k).agrees ht h) fun _ _ b h1 _ => ?_
  exact agree_ite (fun _ => agree_throw h1) fun _ => agree_pure h1 trivial

/-- **A program ends alike on both machines**, and the invariant holds after each of its
statements. -/
theorem statementsWatched (k : Nat) {program : List Tree} (hall : ∀ t ∈ program, I.runs t)
    (h : I.Alike exact m m') :
    List.Forall₂ (I.Alike exact) (Run.statementsWatched watch k program m).1
        (Run.statementsWatched unwatched k program m').1 ∧
      (Run.statementsWatched watch k program m).2.1 =
        (Run.statementsWatched unwatched k program m').2.1 ∧
      I.Alike exact (Run.statementsWatched watch k program m).2.2
        (Run.statementsWatched unwatched k program m').2.2 := by
  induction program generalizing m m' with
  | nil => exact ⟨.nil, rfl, h⟩
  | cons t rest ih =>
    have htop := topLevel hw k (hall t (List.mem_cons_self ..)) h
    have hrest {n n' : Machine} (h : I.Alike exact n n') :=
      ih (fun u hu => hall u (List.mem_cons_of_mem _ hu)) h
    rw [Run.statementsWatched, Run.statementsWatched]
    cases h1 : Run.topLevel watch k t m with
    | ok _ n =>
      obtain ⟨n', h1', hn, -⟩ := htop.ok h1
      rw [h1']
      obtain ⟨hsteps, hfault, hfinal⟩ := hrest hn
      exact ⟨.cons hn hsteps, hfault, hfinal⟩
    | error e n =>
      obtain ⟨n', h1', hn⟩ := htop.error h1
      rw [h1']
      exact ⟨.nil, rfl, hn⟩

end Watch
end Invariant

open Classical in
/-- A property holds in a run whenever something happens: a guard that insists on it has nothing to
object to. -/
def Run.Everywhere (P : Machine → Prop) (n : Nat) (program : List Tree) (m : Machine) : Prop :=
  Run.Throughout (fun _ m => decide (P m)) n program m

/-- **What an invariant implies holds everywhere in a run**, after each of its statements and in the
end. -/
theorem Invariant.everywhere_of (I : Invariant) {P : Machine → Prop} (hP : ∀ m, I.holds m → P m)
    {m : Machine} (n : Nat) {program : List Tree} (hall : ∀ t ∈ program, I.runs t)
    (hm : I.holds m) :
    Run.Everywhere P n program m ∧ (∀ m' ∈ (Run.statements n program m).1, P m') ∧
      P (Run.statements n program m).2.2 := by
  classical
  have hguard : I.Tolerant (Exec.guarded fun _ m => decide (P m)) :=
    ⟨fun _ m h => Exec.guarded_eq_ok.2 ⟨decide_eq_true (hP m h), rfl⟩⟩
  obtain ⟨hsteps, hfault, hfinal⟩ := statementsWatched hguard n hall (.refl True hm)
  obtain ⟨hsteps', -, hfinal'⟩ :=
    statementsWatched tolerant_unwatched n hall (.refl True hm)
  refine ⟨?_, fun m' hm' => hP _ (List.forall₂_same.1 hsteps' m' hm').holds, hP _ hfinal'.holds⟩
  have hsame : (Run.statementsWatched (Exec.guarded fun _ m => decide (P m)) n program m).1 =
      (Run.statements n program m).1 := by
    rw [← List.forall₂_eq_eq_eq]
    exact hsteps.imp fun _ _ h => h.eq.symm
  exact Prod.ext hsame (Prod.ext hfault hfinal.eq.symm)

/-- **An invariant holds everywhere in a run**, after each of its statements and in the end. -/
theorem Invariant.everywhere (I : Invariant) {m : Machine} (n : Nat) {program : List Tree}
    (hall : ∀ t ∈ program, I.runs t) (hm : I.holds m) :
    Run.Everywhere I.holds n program m ∧
      (∀ m' ∈ (Run.statements n program m).1, I.holds m') ∧
      I.holds (Run.statements n program m).2.2 :=
  I.everywhere_of (fun _ h => h) n hall hm

end Retrace
