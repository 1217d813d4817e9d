import Mathlib.Data.Finset.Card
import Mathlib.Data.Finset.Range
import Mathlib.Order.Monotone.Basic
import Retrace.Proofs.Evaluating
import Retrace.Proofs.Numbering

/-!
# Reading is observing

To evaluate an expression works thunks out, and a thunk that was worked out keeps its value, even if
what comes after it ends in a fault.  Nothing of that can be observed: whatever was evaluated
before, an expression comes to the same value or to the same fault.

The proof goes by what an expression *reads as* in the machine `m` from which everything starts: an
outcome, that is a value or a fault, that is found without keeping anything (`Tree.outcome`,
`Machine.readThunk`).  The values in it are blurred, since the numbers of new lists depend on what
was evaluated before.  Unlike the meaning of an expression, an outcome tells of faults, and lists
may have grown.

A thunk that depends on itself reads as the fault `circular`, and so does one that is asked for at
too little depth; with more depth only that fault may be replaced (`Approximates`).  This is an
order, and all operations on outcomes are monotone in it, so that an outcome can only get better
when the depth grows.  Each depth at which something changes is one at which a further thunk gets an
outcome, so nothing changes from the size of the heap on (`readThunk_approximates`).  That the depth
is enough is thus a matter of counting thunks, and no chain of dependencies has to be followed.

A machine is *visited* if it came about from `m` by looking at values, and each thunk that has a
value has the one that it reads as in `m`.  Evaluating leads from one visited machine to another,
and at every depth `d` it comes to something between the outcome within `d` and the final one
(`evaluateWith_sees`, `forceWithin_sees`).  It is not the outcome within `d` itself: a thunk that
has a value by now needs no depth, and may give a value where reading from `m` would still find a
circle.  At the depth of the heap's size the two bounds are the same, and there an evaluation comes
to just what is read.

* `Approximates`: the order of outcomes.
* `Tree.outcome`, `Machine.reading`: what an expression reads as.
* `Machine.Numbered`, `Machine.Visited`: where everything starts, and what it leads to.
* `Exec.Sees`: a step whose result lies between two outcomes.
* `evaluate_sees`: evaluating comes to what is read.
-/

set_option autoImplicit false

namespace Retrace

open Exec (isLiteral)

/-! ## Outcomes -/

/-- The second outcome is the first one, unless that is the fault of too little depth. -/
def Approximates {α : Type} (r s : Except Fault α) : Prop :=
  r = .error .circular ∨ r = s

namespace Approximates

variable {α β : Type} {r s t : Except Fault α}

theorem refl (r : Except Fault α) : Approximates r r :=
  .inr rfl

theorem circular (r : Except Fault α) : Approximates (.error .circular) r :=
  .inl rfl

theorem trans (h : Approximates r s) (h' : Approximates s t) : Approximates r t := by
  rcases h with h | rfl
  · exact .inl h
  · exact h'

theorem antisymm (h : Approximates r s) (h' : Approximates s r) : r = s := by
  rcases h with h | h
  · rcases h' with h' | h'
    · rw [h, h']
    · exact h'.symm
  · exact h

theorem eq_of_ok {a : α} (h : Approximates (.ok a) r) : r = .ok a := by
  rcases h with h | h
  · cases h
  · exact h.symm

/-- What goes on after an outcome is the fault of too little depth if the outcome is. -/
theorem bind {f g : α → Except Fault β} (h : Approximates r s)
    (hfg : ∀ a, s = .ok a → Approximates (f a) (g a)) : Approximates (r >>= f) (s >>= g) := by
  rcases h with rfl | rfl
  · exact circular _
  · cases r with
    | error e => exact refl _
    | ok a => exact hfg a rfl

end Approximates

/-- The item at a position, of values all of whose new lists have the number `n`. -/
def Value.itemSince (l : Lists) (n : Nat) (v position : Value) : Except Fault Value :=
  match v with
  | .list id xs =>
    match position.whole? with
    | some k => Sequence.item (l.contents id xs) k
    | Option.none => .error (.badIndex position.typeName)
  | v => do
    let s ← (l.viewSince n v).shown
    .error (.exec (.notIndexable s.display))

/-- The length of a value all of whose new lists have the number `n`. -/
def Value.lengthSince (l : Lists) : Value → Except Fault Value
  | .text s => .ok (.int s.length)
  | .list id xs => .ok (.int (l.contents id xs).length)
  | v => .error (.exec (.noLength v.typeName))

/-- The outcome of an operator on values all of whose new lists have the number `n`. -/
def Op.outcome (l : Lists) (n : Nat) (op : Op) (u v : Value) : Except Fault Value :=
  match u.whole?, v.whole? with
  | some a, some b => .ok (.int (op.onWords a b))
  | _, _ => op.since l n u v

namespace Tree

mutual

/-- What an expression comes to, given what names come to.  All new lists have the number `n`. -/
def outcome (l : Lists) (n : Nat) (names : Name → Except Fault Value) : Tree → Except Fault Value
  | .thunk _ => .error .thunkAsExpression
  | .list es => do
    let vs ← outcomes l n names es
    return .list n vs
  | .tuple [left, op, right] => do
    let u ← outcome l n names left
    let v ← outcome l n names right
    if op.isText "index" then u.itemSince l n v
    else
      match Op.ofTree? op with
      | some op => op.outcome l n u v
      | Option.none => .error (.exec (.unknownOperator op))
  | .tuple [first, e] =>
    if first.isText "len" then do
      let v ← outcome l n names e
      v.lengthSince l
    else .error (.exec (.badTuple (.tuple [first, e])))
  | .tuple xs => .error (.exec (.badTuple (.tuple xs)))
  | .int k => .ok (.int k)
  | .bool b => .ok (.bool b)
  | .text s => if isLiteral s then .ok (.ofString s) else names (.ofText s)
  | t => .error (.exec (.badExpression t))

/-- What expressions come to, given what names come to. -/
def outcomes (l : Lists) (n : Nat) (names : Name → Except Fault Value) :
    List Tree → Except Fault (List Value)
  | [] => .ok []
  | e :: rest => do
    let v ← outcome l n names e
    let vs ← outcomes l n names rest
    return v :: vs

end

section

variable {l : Lists} {n : Nat} {names names' : Name → Except Fault Value}

mutual

/-- An outcome gets better as those of the names do. -/
theorem outcome_mono (h : ∀ name, Approximates (names name) (names' name)) : ∀ e : Tree,
    Approximates (e.outcome l n names) (e.outcome l n names')
  | .thunk _ => .refl _
  | .list es => (outcomes_mono h es).bind fun _ _ => .refl _
  | .tuple [left, op, right] =>
    (outcome_mono h left).bind fun _ _ => (outcome_mono h right).bind fun _ _ => .refl _
  | .tuple [first, e] => by
    rw [outcome, outcome]
    split
    · exact (outcome_mono h e).bind fun _ _ => .refl _
    · exact .refl _
  | .tuple [] => .refl _
  | .tuple [_] => .refl _
  | .tuple (_ :: _ :: _ :: _ :: _) => .refl _
  | .int _ => .refl _
  | .bool _ => .refl _
  | .text s => by
    rw [outcome, outcome]
    split
    · exact .refl _
    · exact h _
  | .none => .refl _
  | .float _ => .refl _

theorem outcomes_mono (h : ∀ name, Approximates (names name) (names' name)) : ∀ es : List Tree,
    Approximates (outcomes l n names es) (outcomes l n names' es)
  | [] => .refl _
  | e :: rest => (outcome_mono h e).bind fun _ _ => (outcomes_mono h rest).bind fun _ _ => .refl _

end

end
end Tree

/-! ## What is read in a machine -/

namespace Machine

/-- What a name reads as, given what thunks read as. -/
def readName (m : Machine) (thunks : Nat → Except Fault Value) (name : Name) :
    Except Fault Value :=
  match m.lookup name with
  | some (.thunk id) => thunks id
  | some v => .ok v
  | none => .ok .none

/-- What a thunk reads as, if not more than `depth` of them depend on each other. -/
def readThunk (m : Machine) : Nat → Nat → Except Fault Value
  | 0, _ => .error .circular
  | depth + 1, id =>
    match m.heap[id]? with
    | none => .ok .none
    | some thunk =>
      match thunk.value? with
      | some v => .ok v
      | none => thunk.expression.outcome m.lists m.lists.next (m.readName (readThunk m depth))

/-- What an expression reads as, if not more than `depth` thunks depend on each other. -/
def reading (m : Machine) (depth : Nat) (e : Tree) : Except Fault Value :=
  e.outcome m.lists m.lists.next (m.readName (m.readThunk depth))

variable {m : Machine}

theorem readThunk_of_value {depth id : Nat} {e : Tree} {v : Value}
    (h : m.heap[id]? = some ⟨e, some v⟩) : m.readThunk (depth + 1) id = .ok v := by
  rw [readThunk, h]

theorem readThunk_of_waiting {depth id : Nat} {e : Tree} (h : m.heap[id]? = some ⟨e, none⟩) :
    m.readThunk (depth + 1) id = m.reading depth e := by
  rw [readThunk, h]
  rfl

theorem readName_mono {f g : Nat → Except Fault Value} (h : ∀ id, Approximates (f id) (g id))
    (name : Name) : Approximates (m.readName f name) (m.readName g name) := by
  unfold readName
  split
  · exact h _
  · exact .refl _
  · exact .refl _

theorem readName_congr {f g : Nat → Except Fault Value}
    (h : ∀ name id, m.lookup name = some (.thunk id) → f id = g id) :
    m.readName f = m.readName g := by
  funext name
  unfold readName
  split
  · next id hid => exact h name id hid
  · rfl
  · rfl

/-- With more depth a thunk reads as it did, or the depth was too little. -/
theorem readThunk_mono {d d' : Nat} (hd : d ≤ d') (id : Nat) :
    Approximates (m.readThunk d id) (m.readThunk d' id) := by
  induction d generalizing d' id with
  | zero => exact .circular _
  | succ d ih =>
    obtain ⟨k, rfl⟩ : ∃ k, d' = k + 1 := ⟨d' - 1, by omega⟩
    rw [readThunk, readThunk]
    split
    · exact .refl _
    · split
      · exact .refl _
      · exact Tree.outcome_mono (readName_mono fun j => ih (by omega) j) _

/-! ### The size of the heap is depth enough -/

/-- Is the depth too little? -/
def lacksDepth : Except Fault Value → Bool
  | .error .circular => true
  | _ => false

theorem lacksDepth_iff {r : Except Fault Value} : lacksDepth r = true ↔ r = .error .circular := by
  constructor
  · intro h
    unfold lacksDepth at h
    split at h
    · rfl
    · cases h
  · rintro rfl
    rfl

/-- The thunks for which the depth suffices. -/
def answered (m : Machine) (depth : Nat) : Finset Nat :=
  (Finset.range m.heap.size).filter fun id => lacksDepth (m.readThunk depth id) = false

theorem mem_answered {depth id : Nat} : id ∈ m.answered depth ↔
    id < m.heap.size ∧ m.readThunk depth id ≠ .error .circular := by
  rw [answered, Finset.mem_filter, Finset.mem_range, ← Bool.not_eq_true, lacksDepth_iff]

/-- With more depth no thunk loses its outcome. -/
theorem answered_mono {d d' : Nat} (hd : d ≤ d') : m.answered d ⊆ m.answered d' := by
  intro id hid
  rw [mem_answered] at hid ⊢
  rcases readThunk_mono hd id with h | h
  · exact absurd h hid.2
  · exact ⟨hid.1, h ▸ hid.2⟩

/-- If no more thunks are answered with more depth, all read as they did. -/
theorem readThunk_eq_of_card {d d' : Nat} (hd : d ≤ d')
    (hcard : (m.answered d).card = (m.answered d').card) {id : Nat} (hid : id < m.heap.size) :
    m.readThunk d id = m.readThunk d' id := by
  have hsame := Finset.eq_of_subset_of_card_le (answered_mono hd) (Nat.le_of_eq hcard.symm)
  rcases readThunk_mono hd id with h | h
  · have hnot : id ∉ m.answered d' := by
      rw [← hsame, mem_answered]
      exact fun hmem => hmem.2 h
    rw [mem_answered, not_and, not_not] at hnot
    rw [h, hnot hid]
  · exact h

section

variable (hbound : ∀ name id, m.lookup name = some (.thunk id) → id < m.heap.size)
include hbound

/-- If all thunks read as they did with one more depth, they do so with two more. -/
theorem readThunk_succ {d : Nat}
    (h : ∀ id < m.heap.size, m.readThunk d id = m.readThunk (d + 1) id) (id : Nat) :
    m.readThunk (d + 1) id = m.readThunk (d + 2) id := by
  have hnames : m.readName (m.readThunk d) = m.readName (m.readThunk (d + 1)) :=
    readName_congr fun name j hj => h j (hbound name j hj)
  rw [readThunk, readThunk, hnames]

/-- The number of thunks with an outcome grows with the depth until it stops, and there are no more
of them than thunks. -/
theorem card_answered_stable {d : Nat} (hd : m.heap.size ≤ d) :
    (m.answered d).card = (m.answered m.heap.size).card := by
  refine Nat.stabilises_of_monotone (f := fun d => (m.answered d).card) ?_ ?_ ?_ hd
  · intro d d' hdd
    exact Finset.card_le_card (answered_mono hdd)
  · intro d
    exact (Finset.card_filter_le _ _).trans (Nat.le_of_eq (Finset.card_range _))
  · intro d hcard
    have hsame := readThunk_succ hbound fun id hid =>
      readThunk_eq_of_card (Nat.le_succ d) hcard hid
    have hanswered : m.answered (d + 1) = m.answered (d + 2) := by
      ext id
      rw [mem_answered, mem_answered, hsame id]
    exact congrArg Finset.card hanswered

/-- At any depth a thunk reads as it does at the depth of the heap's size, or the depth is too
little. -/
theorem readThunk_approximates (d : Nat) {id : Nat} (hid : id < m.heap.size) :
    Approximates (m.readThunk d id) (m.readThunk m.heap.size id) := by
  rcases Nat.le_total d m.heap.size with hd | hd
  · exact readThunk_mono hd id
  · have hcard := card_answered_stable hbound hd
    exact .inr (readThunk_eq_of_card hd hcard.symm hid).symm

end

/-! ## Visited machines -/

/-- All values of the machine conform to the registry; its lists may have grown. -/
structure Numbered (m : Machine) (reg : Nat → List Value) : Prop where
  known : m.lists.Known reg m.lists.next
  bound : ∀ {name v}, m.lookup name = some v → m.Holds reg v
  worked : ∀ {id : Nat} {e : Tree} {v : Value}, m.heap[id]? = some ⟨e, some v⟩ →
    v.Conforms reg m.lists.next

/-- The machine `a` came about from `m` by looking at values, and all thunks that have a value have
the one that they read as in `m`.  New lists are in the registry as well. -/
structure Visited (m : Machine) (reg : Nat → List Value) (a : Machine) : Prop where
  looks : m.Looks a
  known : m.lists.Known reg m.lists.next
  bound : ∀ {name v}, m.lookup name = some v → m.Holds reg v
  worked : ∀ {id : Nat} {e : Tree} {v : Value}, a.heap[id]? = some ⟨e, some v⟩ →
    v.Conforms reg a.lists.next ∧ m.readThunk m.heap.size id = .ok (v.blur m.lists.next)

/-- What conforms at `a` conforms at `b` as well. -/
structure Extends (reg : Nat → List Value) (a : Machine) (reg' : Nat → List Value) (b : Machine) :
    Prop where
  same : ∀ i < a.lists.next, reg' i = reg i
  next : a.lists.next ≤ b.lists.next

section

variable {a b c : Machine} {reg reg' reg'' : Nat → List Value}

theorem Extends.refl : Extends reg a reg a :=
  ⟨fun _ _ => rfl, Nat.le_refl _⟩

theorem Extends.trans (h : Extends reg a reg' b) (h' : Extends reg' b reg'' c) :
    Extends reg a reg'' c where
  same i hi := (h'.same i (Nat.lt_of_lt_of_le hi h.next)).trans (h.same i hi)
  next := Nat.le_trans h.next h'.next

theorem Extends.conforms (h : Extends reg a reg' b) {v : Value}
    (hv : v.Conforms reg a.lists.next) : v.Conforms reg' b.lists.next :=
  hv.mono h.same h.next

/-- A machine is visited from itself. -/
theorem Numbered.visited (h : m.Numbered reg) : m.Visited reg m where
  looks := Exec.looks_refl m
  known := h.known
  bound := h.bound
  worked {id e v} ht := by
    have hv := h.worked ht
    obtain ⟨k, hk⟩ : ∃ k, m.heap.size = k + 1 :=
      ⟨m.heap.size - 1, by have := (Array.getElem?_eq_some_iff.1 ht).1; omega⟩
    refine ⟨hv, ?_⟩
    rw [hk, readThunk_of_value ht, hv.blur]

namespace Visited

variable (h : m.Visited reg a)
include h

theorem thunk_lt {name : Name} {id : Nat} (hid : m.lookup name = some (.thunk id)) :
    id < m.heap.size := by
  rcases h.bound hid with hv | ⟨j, hj, heq⟩
  · cases hv
  · cases heq
    exact hj

theorem lists : a.lists = { m.lists with next := a.lists.next } := by
  rw [h.looks.same]

/-- What lists were extended by is known at a visited machine, too. -/
theorem known_next : m.lists.Conform reg a.lists.next :=
  fun id => (h.known.added id).mono (fun _ _ => rfl) h.looks.next

/-- The registry may be extended, if thunks that were worked out on the way have the right
values. -/
theorem onward (hl : a.Looks b) (hext : Extends reg a reg' b)
    (hworked : ∀ {id : Nat} {e : Tree} {v : Value}, b.heap[id]? = some ⟨e, some v⟩ →
      v.Conforms reg' b.lists.next ∧ m.readThunk m.heap.size id = .ok (v.blur m.lists.next)) :
    m.Visited reg' b where
  looks := Exec.onward_looks.trans h.looks hl
  known := {
    made := fun id hid => by
      rw [hext.same id (Nat.lt_of_lt_of_le hid h.looks.next)]
      exact (h.known.made id hid).mono
        (fun i hi => hext.same i (Nat.lt_of_lt_of_le hi h.looks.next)) (Nat.le_refl _)
    added := fun id => (h.known.added id).mono
      (fun i hi => hext.same i (Nat.lt_of_lt_of_le hi h.looks.next)) (Nat.le_refl _)
    new := h.known.new }
  bound := fun hv => (h.bound hv).mono
    (fun i hi => hext.same i (Nat.lt_of_lt_of_le hi h.looks.next)) (Nat.le_refl _) (Nat.le_refl _)
  worked := hworked

/-- If no thunk was worked out, there is nothing more to show. -/
theorem of_heap_eq (hl : a.Looks b) (hheap : b.heap = a.heap) (hext : Extends reg a reg' b) :
    m.Visited reg' b := by
  refine h.onward hl hext fun {id e v} ht => ?_
  obtain ⟨hv, hread⟩ := h.worked (hheap ▸ ht)
  exact ⟨hext.conforms hv, hread⟩

end Visited

end
end Machine

/-! ## Evaluating comes to what is read -/

namespace Exec

open Machine (Visited Extends)

/-- The result of a step from `a`: the machine is visited in the end, and what comes out, seen
through `see`, lies between two outcomes. -/
structure Sees {α β : Type} (m : Machine) (good : (Nat → List Value) → Nat → α → Prop)
    (see : α → β) (low high : Except Fault β) (reg : Nat → List Value) (a : Machine)
    (r : EStateM.Result Fault Machine α) : Prop where
  ok : ∀ {v b}, r = .ok v b → ∃ reg', m.Visited reg' b ∧ Extends reg a reg' b ∧
    good reg' b.lists.next v ∧ Approximates low (.ok (see v)) ∧ Approximates (.ok (see v)) high
  error : ∀ {f b}, r = .error f b → ∃ reg', m.Visited reg' b ∧ Extends reg a reg' b ∧
    Approximates low (.error f) ∧ Approximates (.error f) high

/-- A step that gives a value. -/
abbrev SeesValue (m : Machine) :=
  Sees m Value.Conforms (Value.blur m.lists.next)

/-- A step that gives values. -/
abbrev SeesValues (m : Machine) :=
  Sees m Value.ConformAll (Value.blurs m.lists.next)

section

variable {α β γ δ : Type} {m a b : Machine} {reg : Nat → List Value}
variable {good : (Nat → List Value) → Nat → α → Prop} {see : α → β}
variable {good' : (Nat → List Value) → Nat → γ → Prop} {see' : γ → δ}

theorem sees_ok (ha : m.Visited reg a) {v : α} (hv : good reg a.lists.next v) :
    Sees m good see (.ok (see v)) (.ok (see v)) reg a (.ok v a) where
  ok h := by
    cases h
    exact ⟨reg, ha, .refl, hv, .refl _, .refl _⟩
  error h := by cases h

theorem sees_error (ha : m.Visited reg a) (f : Fault) :
    Sees m good see (.error f) (.error f) reg a (.error f a) where
  ok h := by cases h
  error h := by
    cases h
    exact ⟨reg, ha, .refl, .refl _, .refl _⟩

/-- A step goes on from where another one has led. -/
theorem Sees.extend {reg' : Nat → List Value} {low high : Except Fault β}
    {r : EStateM.Result Fault Machine α} (hext : Extends reg a reg' b)
    (h : Sees m good see low high reg' b r) : Sees m good see low high reg a r where
  ok hr := by
    obtain ⟨reg'', hv, hext', hrest⟩ := h.ok hr
    exact ⟨reg'', hv, hext.trans hext', hrest⟩
  error hr := by
    obtain ⟨reg'', hv, hext', hrest⟩ := h.error hr
    exact ⟨reg'', hv, hext.trans hext', hrest⟩

/-- One step after another, with the bounds put together in the same way. -/
theorem sees_bind {x : Exec α} {f : α → Exec γ} {low high : Except Fault β}
    {g g' : β → Except Fault δ} (hx : Sees m good see low high reg a (x a))
    (hf : ∀ v reg' b, m.Visited reg' b → Extends reg a reg' b → good reg' b.lists.next v →
      Sees m good' see' (g (see v)) (g' (see v)) reg' b (f v b)) :
    Sees m good' see' (low >>= g) (high >>= g') reg a ((x >>= f) a) := by
  rw [bind_apply]
  cases hr : x a with
  | ok v b =>
    obtain ⟨reg', hb, hext, hv, hlow, hhigh⟩ := hx.ok hr
    rw [hhigh.eq_of_ok]
    have hrest := (hf v reg' b hb hext hv).extend hext
    -- if the lower bound was circular, it stays so, and says nothing about the rest
    rcases hlow with rfl | rfl
    · exact ⟨fun h => by
        obtain ⟨r, h1, h2, h3, -, h4⟩ := hrest.ok h
        exact ⟨r, h1, h2, h3, .circular _, h4⟩, fun h => by
        obtain ⟨r, h1, h2, -, h3⟩ := hrest.error h
        exact ⟨r, h1, h2, .circular _, h3⟩⟩
    · exact hrest
  | error e b =>
    obtain ⟨reg', hb, hext, hlow, hhigh⟩ := hx.error hr
    refine ⟨fun h => (by cases h), fun h => ?_⟩
    cases h
    refine ⟨reg', hb, hext, ?_, ?_⟩
    · rcases hlow with rfl | rfl
      · exact .circular _
      · exact .refl _
    · rcases hhigh with h | h
      · cases h
        exact .circular _
      · rw [← h]
        exact .refl _

/-- Every expression is counted before anything else is done. -/
theorem sees_counted {f : Unit → Exec α} {low high : Except Fault β} (ha : m.Visited reg a)
    (hf : ∀ b, m.Visited reg b → Sees m good see low high reg b (f () b)) :
    Sees m good see low high reg a ((countEvaluation >>= f) a) := by
  rw [bind_of_ok (countEvaluation_apply a)]
  have hl := countEvaluation_looks.ok (countEvaluation_apply a)
  have hext : Extends reg a reg { a with evaluations := a.evaluations + 1 } :=
    ⟨fun _ _ => rfl, Nat.le_refl _⟩
  exact (hf _ (ha.of_heap_eq hl rfl hext)).extend hext

end

section

variable {m a : Machine} {reg : Nat → List Value} (ha : m.Visited reg a)
include ha

theorem item_sees {u : Value} (hu : u.Conforms reg a.lists.next) (v : Value) :
    SeesValue m ((u.blur m.lists.next).itemSince m.lists m.lists.next (v.blur m.lists.next))
      ((u.blur m.lists.next).itemSince m.lists m.lists.next (v.blur m.lists.next)) reg a
      (item u v a) := by
  have hshown : (a.lists.view u).shown =
      (m.lists.viewSince m.lists.next (u.blur m.lists.next)).shown := by
    rw [ha.lists, Lists.view_next, Value.shown_blur ha.known hu]
  -- only lists have items
  have notAList : SeesValue m (do
        let s ← (m.lists.viewSince m.lists.next (u.blur m.lists.next)).shown
        .error (.exec (.notIndexable s.display)))
      (do
        let s ← (m.lists.viewSince m.lists.next (u.blur m.lists.next)).shown
        .error (.exec (.notIndexable s.display))) reg a
      ((do fail (.notIndexable (← shown u)) : Exec Value) a) := by
    rw [bind_apply, shown, bind_of_ok (view_apply u a), bind_apply, hshown]
    cases (m.lists.viewSince m.lists.next (u.blur m.lists.next)).shown with
    | error e => exact sees_error ha e
    | ok s => exact sees_error ha _
  cases u with
  | list id xs =>
    have hcontents : a.lists.contents id xs = m.lists.contents id xs := by
      rw [ha.lists]
      rfl
    simp only [item, Value.blur, Value.itemSince, Value.whole?_blur, Value.typeName_blur]
    cases v.whole? with
    | none => exact sees_error ha _
    | some k =>
      have hitem : Sequence.item (m.lists.contents (min id m.lists.next)
          (Value.blurs m.lists.next xs)) k =
          (Sequence.item (m.lists.contents id xs) k).map (Value.blur m.lists.next) := by
        rw [Value.contents_blur ha.known hu, Value.blurs_eq_map, item_map]
      simp only [hitem]
      rw [bind_of_ok (get_apply a), hcontents]
      cases hw : Sequence.item (m.lists.contents id xs) k with
      | error e => exact sees_error ha e
      | ok w =>
        have hitems := Value.contents_conform ha.known_next hu.2.2 id
        exact sees_ok ha (Value.conformAll_iff.1 hitems w (mem_of_item hw))
  | _ => exact notAList

theorem lengthOf_sees {v : Value} (hv : v.Conforms reg a.lists.next) :
    SeesValue m ((v.blur m.lists.next).lengthSince m.lists)
      ((v.blur m.lists.next).lengthSince m.lists) reg a (lengthOf v a) := by
  cases v with
  | text s => exact sees_ok (v := Value.int s.length) ha trivial
  | list id xs =>
    have hcontents : a.lists.contents id xs = m.lists.contents id xs := by
      rw [ha.lists]
      rfl
    rw [lengthOf, bind_of_ok (get_apply a), hcontents, Value.blur, Value.lengthSince,
      Value.contents_blur ha.known hv, Value.length_blurs]
    exact sees_ok (v := Value.int (m.lists.contents id xs).length) ha trivial
  | _ => exact sees_error ha _

/-- A number for a list is used up, whether there will be such a list or not. -/
theorem visited_newId {reg' : Nat → List Value} (hreg : ∀ i < a.lists.next, reg' i = reg i) :
    m.Visited reg' { a with lists := { a.lists with next := a.lists.next + 1 } } ∧
    Extends reg a reg' { a with lists := { a.lists with next := a.lists.next + 1 } } := by
  have hext : Extends reg a reg' { a with lists := { a.lists with next := a.lists.next + 1 } } :=
    ⟨hreg, Nat.le_succ _⟩
  exact ⟨ha.of_heap_eq (newId_looks.ok (newId_apply a)) rfl hext, hext⟩

/-- A new list is entered in the registry, and is blurred. -/
theorem newList_sees {vs : List Value} (hvs : Value.ConformAll reg a.lists.next vs) :
    SeesValue m (.ok (.list m.lists.next (Value.blurs m.lists.next vs)))
      (.ok (.list m.lists.next (Value.blurs m.lists.next vs))) reg a (newList vs a) := by
  have hbuilt : (Value.list a.lists.next vs).Built reg a.lists.next a.lists.next :=
    .inr ⟨vs, rfl, hvs⟩
  obtain ⟨reg', hreg, hconforms⟩ := hbuilt.register
  obtain ⟨hvisited, hext⟩ := visited_newId ha hreg
  have hblur : (Value.list a.lists.next vs).blur m.lists.next =
      .list m.lists.next (Value.blurs m.lists.next vs) := by
    rw [Value.blur, Nat.min_eq_right ha.looks.next]
  have hok : SeesValue m _ _ _ _ _ := sees_ok hvisited hconforms
  rw [hblur] at hok
  exact hok.extend hext

/-- An operator comes to its outcome on blurred values. -/
theorem apply_sees {u v : Value} (hu : u.Conforms reg a.lists.next)
    (hv : v.Conforms reg a.lists.next) (op : Op) :
    SeesValue m (op.outcome m.lists m.lists.next (u.blur m.lists.next) (v.blur m.lists.next))
      (op.outcome m.lists m.lists.next (u.blur m.lists.next) (v.blur m.lists.next)) reg a
      (apply op u v a) := by
  simp only [Op.outcome, Value.whole?_blur]
  rcases words_or_values u v with ⟨i, j, hi, hj⟩ | hvalues
  · rw [apply_of_words hi hj, hi, hj]
    exact sees_ok (v := Value.int (op.onWords i j)) ha trivial
  · -- operators look at what was added to lists, never at the number of the next one
    have hlists : op.onValues { a.lists with next := a.lists.next + 1 } a.lists.next u v =
        op.onValues m.lists a.lists.next u v := by
      rw [Op.onValues_next]
      exact (congrArg (fun l => op.onValues l a.lists.next u v) ha.lists).trans
        (Op.onValues_next m.lists a.lists.next a.lists.next op u v)
    have hsince := Value.onValues_blur ha.known ha.looks.next hu hv op
    have hmatch : (match u.whole?, v.whole? with
        | some i, some j => .ok (.int (op.onWords i j))
        | _, _ => op.since m.lists m.lists.next (u.blur m.lists.next) (v.blur m.lists.next)) =
        op.since m.lists m.lists.next (u.blur m.lists.next) (v.blur m.lists.next) := by
      split
      · next i j hi hj => simp [hi, hj] at hvalues
      · rfl
    rw [apply_of_values hvalues, hlists, hmatch, ← hsince]
    cases hw : op.onValues m.lists a.lists.next u v with
    | error e =>
      have hreg : ∀ i < a.lists.next, reg i = reg i := fun _ _ => rfl
      obtain ⟨hvisited, hext⟩ := visited_newId ha hreg
      exact (sees_error hvisited e).extend hext
    | ok w =>
      obtain ⟨reg', hreg, hconforms⟩ := (Value.onValues_built ha.known_next hu hv hw).register
      obtain ⟨hvisited, hext⟩ := visited_newId ha hreg
      exact (sees_ok hvisited hconforms).extend hext

end

section

variable {m : Machine} {force : Nat → Exec Value} {low high : Nat → Except Fault Value}

/-- Each thunk comes to something between the two outcomes. -/
def ForcesBetween (m : Machine) (force : Nat → Exec Value) (low high : Nat → Except Fault Value) :
    Prop :=
  ∀ id < m.heap.size, ∀ reg a, m.Visited reg a → SeesValue m (low id) (high id) reg a (force id a)

/-- A name is read between the bounds for its thunk. -/
theorem lookup_sees (hf : ForcesBetween m force low high) {reg : Nat → List Value} {a : Machine}
    (ha : m.Visited reg a) (name : Name) :
    SeesValue m (m.readName low name) (m.readName high name) reg a
      ((do resolve? force ((← get).lookup name) : Exec Value) a) := by
  rw [bind_of_ok (get_apply a), ha.looks.lookup]
  have hnext : m.lists.next ≤ a.lists.next := ha.looks.next
  cases hv : m.lookup name with
  | none =>
    simp only [Machine.readName, hv]
    exact sees_ok (v := Value.none) ha trivial
  | some v =>
    cases v with
    | thunk id =>
      simp only [Machine.readName, hv]
      exact hf id (ha.thunk_lt hv) reg a ha
    | _ =>
      rcases ha.bound hv with hconforms | ⟨id, -, hid⟩
      · have hok : SeesValue m _ _ _ _ _ := sees_ok ha (hconforms.mono (fun _ _ => rfl) hnext)
        rw [hconforms.blur] at hok
        simp only [Machine.readName, hv]
        exact hok
      · cases hid

mutual

/-- An expression, if each thunk is worked out between two bounds. -/
theorem evaluateWith_sees (hf : ForcesBetween m force low high) : ∀ (e : Tree)
    {reg : Nat → List Value} {a : Machine}, m.Visited reg a →
    SeesValue m (e.outcome m.lists m.lists.next (m.readName low))
      (e.outcome m.lists m.lists.next (m.readName high)) reg a (evaluateWith force e a)
  | .thunk _, _, _, ha => sees_counted ha fun _ hb => sees_error hb _
  | .list es, _, _, ha => sees_counted ha fun _ hb =>
    sees_bind (evaluateItems_sees hf es hb) fun _ _ _ hc _ hvs => newList_sees hc hvs
  | .tuple [left, op, right], _, _, ha => sees_counted ha fun _ hb =>
    sees_bind (evaluateWith_sees hf left hb) fun u _ _ hc _ hu =>
    sees_bind (evaluateWith_sees hf right hc) fun v _ _ hd hext hv => by
      have hu' := hext.conforms hu
      split
      · exact item_sees hd hu' v
      · rw [operate_of_conforms hu' hv]
        cases Op.ofTree? op with
        | none => exact sees_error hd _
        | some o => exact apply_sees hd hu' hv o
  | .tuple [first, e], _, _, ha => sees_counted ha fun _ hb => by
    rw [Tree.outcome, Tree.outcome]
    split
    · exact sees_bind (evaluateWith_sees hf e hb) fun _ _ _ hc _ hv => lengthOf_sees hc hv
    · exact sees_error hb _
  | .tuple [], _, _, ha => sees_counted ha fun _ hb => sees_error hb _
  | .tuple [_], _, _, ha => sees_counted ha fun _ hb => sees_error hb _
  | .tuple (_ :: _ :: _ :: _ :: _), _, _, ha => sees_counted ha fun _ hb => sees_error hb _
  | .int k, _, _, ha => sees_counted ha fun _ hb => sees_ok (v := Value.int k) hb trivial
  | .bool c, _, _, ha => sees_counted ha fun _ hb => sees_ok (v := Value.bool c) hb trivial
  | .text s, _, _, ha => sees_counted ha fun _ hb => by
    rw [Tree.outcome, Tree.outcome]
    split
    · exact sees_ok (v := Value.ofString s) hb trivial
    · exact lookup_sees hf hb _
  | .none, _, _, ha => sees_counted ha fun _ hb => sees_error hb _
  | .float _, _, _, ha => sees_counted ha fun _ hb => sees_error hb _

theorem evaluateItems_sees (hf : ForcesBetween m force low high) : ∀ (es : List Tree)
    {reg : Nat → List Value} {a : Machine}, m.Visited reg a →
    SeesValues m (Tree.outcomes m.lists m.lists.next (m.readName low) es)
      (Tree.outcomes m.lists m.lists.next (m.readName high) es) reg a (evaluateItems force es a)
  | [], _, _, ha => sees_ok (v := []) ha trivial
  | e :: rest, _, _, ha =>
    sees_bind (evaluateWith_sees hf e ha) fun v _ _ hb _ hv =>
    sees_bind (evaluateItems_sees hf rest hb) fun vs _ _ hc hext hvs =>
      sees_ok (v := v :: vs) hc ⟨hext.conforms hv, hvs⟩

end

end

section

variable {m : Machine}

/-- **A thunk comes to what it reads as**, if the depth suffices for that. -/
theorem forceWithin_sees (depth : Nat) :
    ForcesBetween m (forceWithin depth) (m.readThunk depth) (m.readThunk m.heap.size) := by
  induction depth with
  | zero =>
    intro id hid reg a ha
    refine ⟨fun h => (by cases h), fun h => ?_⟩
    cases h
    exact ⟨reg, ha, .refl, .refl _, .circular _⟩
  | succ depth ih =>
    intro id hid reg a ha
    have hbound (name : Name) (id : Nat) (h : m.lookup name = some (.thunk id)) :
        id < m.heap.size := ha.thunk_lt h
    have hdepth := Machine.readThunk_approximates hbound (depth + 1) hid
    have hsize : id < a.heap.size := by rwa [ha.looks.heapSize]
    have ht := Array.getElem?_eq_getElem hsize
    cases hthunk : a.heap[id] with
    | mk e value? =>
      rw [hthunk] at ht
      cases value? with
      | some v =>
        -- it was worked out before
        obtain ⟨hv, hread⟩ := ha.worked ht
        rw [forceWithin_of_value ht]
        refine ⟨fun h => ?_, fun h => (by cases h)⟩
        cases h
        rw [hread] at hdepth ⊢
        exact ⟨reg, ha, .refl, hv, hdepth, .refl _⟩
      | none =>
        have hwaiting := ha.looks.waiting ht
        have hlow : m.readThunk (depth + 1) id = m.reading depth e :=
          Machine.readThunk_of_waiting hwaiting
        have hhigh := Machine.readThunk_approximates hbound (m.heap.size + 1) hid
        rw [Machine.readThunk_of_waiting hwaiting] at hhigh
        have hsees := evaluateWith_sees ih e ha
        have hlooks := forceWithin_looks (depth + 1) id
        rw [hlow]
        refine ⟨fun {v b} h => ?_, fun {f b} h => ?_⟩
        · have hl := hlooks.ok h
          rw [forceWithin_succ ht] at h
          obtain ⟨w, c, hw, h⟩ := bind_eq_ok.1 h
          cases h
          obtain ⟨reg', hc, hext, hv, hvlow, hvhigh⟩ := hsees.ok hw
          have hread := (hvhigh.trans hhigh).eq_of_ok
          refine ⟨reg', ha.onward hl ⟨hext.same, hext.next⟩ fun {j e' u} hj => ?_,
            ⟨hext.same, hext.next⟩, hv, hvlow, hvhigh.trans hhigh⟩
          rw [Array.getElem?_modify] at hj
          split at hj
          · next hij =>
            subst hij
            obtain ⟨t, -, heq⟩ := Option.map_eq_some_iff.1 hj
            cases heq
            exact ⟨hv, hread⟩
          · exact hc.worked hj
        · rw [forceWithin_succ ht, bind_apply] at h
          split at h
          · cases h
          · next hfault =>
            cases h
            obtain ⟨reg', hb, hext, hflow, hfhigh⟩ := hsees.error hfault
            exact ⟨reg', hb, hext, hflow, hfhigh.trans hhigh⟩

/-- At the depth of the heap an expression comes to what it reads as. -/
theorem evaluate_sees (e : Tree) {reg : Nat → List Value} {a : Machine} (ha : m.Visited reg a) :
    SeesValue m (m.reading m.heap.size e) (m.reading m.heap.size e) reg a (evaluate e a) := by
  have hevaluate : evaluate e a = evaluateWith (forceWithin m.heap.size) e a := by
    rw [evaluate, bind_of_ok (get_apply a), ha.looks.heapSize]
  rw [hevaluate]
  exact evaluateWith_sees (forceWithin_sees m.heap.size) e ha

end

end Exec

/-- The machine after a step. -/
def Exec.machineAfter {α : Type} : EStateM.Result Fault Machine α → Machine
  | .ok _ m => m
  | .error _ m => m

/-- What a step comes to: its value, but for the numbers of lists from `n` on, or its fault. -/
def Exec.outcomeSince (n : Nat) : EStateM.Result Fault Machine Value → Except Fault Value
  | .ok v _ => .ok (v.blur n)
  | .error f _ => .error f

namespace Machine

variable {m a : Machine} {reg : Nat → List Value}

/-- The outcome is the same at all visited machines. -/
theorem Visited.outcomeSince (ha : m.Visited reg a) (e : Tree) :
    Exec.outcomeSince m.lists.next (Exec.evaluate e a) = m.reading m.heap.size e := by
  have hsees := Exec.evaluate_sees e ha
  cases hr : Exec.evaluate e a with
  | ok v b =>
    obtain ⟨_, _, _, _, hlow, hhigh⟩ := hsees.ok hr
    exact hhigh.antisymm hlow
  | error f b =>
    obtain ⟨_, _, _, hlow, hhigh⟩ := hsees.error hr
    exact hhigh.antisymm hlow

/-- Evaluating leads from one visited machine to another, also if it fails. -/
theorem Visited.machineAfter (ha : m.Visited reg a) (e : Tree) :
    ∃ reg', m.Visited reg' (Exec.machineAfter (Exec.evaluate e a)) := by
  have hsees := Exec.evaluate_sees e ha
  cases hr : Exec.evaluate e a with
  | ok v b =>
    obtain ⟨reg', hb, _⟩ := hsees.ok hr
    exact ⟨reg', hb⟩
  | error f b =>
    obtain ⟨reg', hb, _⟩ := hsees.error hr
    exact ⟨reg', hb⟩

end Machine

end Retrace
