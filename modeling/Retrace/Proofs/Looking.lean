import Retrace.Proofs.Step

/-!
# Evaluating is looking

An expression is evaluated for its value only.  What else becomes of the machine is this: thunks
that were asked for have got their values, some numbers of lists are used up, and evaluations were
counted.  `Machine.Looks m m'` says that nothing but that lies between `m` and `m'`, and every way
of asking for a value keeps it, also when it ends in a fault.

The relation is set up as an equation: `m'` is `m` with another heap, another count and another next
number.  One could say of each part of the machine that it is the same instead, but the machine has
many parts, and a proof needs now one of them and now another.  From the equation every part follows
by rewriting (`Looks.bindings`, `Looks.history`, …), also one that is added to machines later.  The
heap needs more than an equation, as it does change.  `Fills` says what it keeps: no thunk is lost,
none changes its expression, and a thunk which has a value keeps it.  Together with the size this
says that a look at the machine only fills in values that had been put off.

A heap may also grow, when a computation is put off (`suspend`), so the size is no part of `Fills`.
For this reason `Fills` alone is what lies between any two moments of a run, however many
assignments lie between them as well.

Working out a thunk is the only way in which evaluations call each other, and the depth of it is
bounded by a number.  So the lemmas about expressions take any function that works thunks out and
looks, and the induction on the depth is made once, in `forceWithin_looks`.

That every evaluation counts itself at least once is shown along the way (`Counted`): an evaluation
is a count and then a step that looks, whatever the expression is.

* `Fills`: what the heap keeps.
* `Machine.Looks`: what a look at the machine leaves as it was.
* `evaluateWith_counted`: an evaluation counts itself, and then it looks.
* `forceWithin_looks`, `evaluate_looks`: all ways of asking for a value only look.
* `forceWithin_succ`, `forceWithin_of_value`, `forceWithin_of_none`: how a thunk is worked out.
-/

set_option autoImplicit false

namespace Retrace

/-- Every thunk of the first heap is in the second one as it was, or it had no value and now has
one. -/
def Fills (h h' : Array Thunk) : Prop :=
  ∀ (id : Nat) (t : Thunk), h[id]? = some t →
    h'[id]? = some t ∨ t.value? = none ∧ ∃ v, h'[id]? = some { t with value? := some v }

namespace Fills

theorem refl (h : Array Thunk) : Fills h h := fun _ _ ht => .inl ht

theorem trans {a b c : Array Thunk} (hab : Fills a b) (hbc : Fills b c) : Fills a c := by
  intro id t ht
  rcases hab id t ht with hb | ⟨hn, v, hb⟩
  · exact hbc id t hb
  · rcases hbc id _ hb with hc | ⟨hn', -⟩
    · exact .inr ⟨hn, v, hc⟩
    · exact absurd hn' (by simp)

/-- A thunk that has a value keeps it. -/
theorem value {h h' : Array Thunk} (hf : Fills h h') {id : Nat} {e : Tree} {v : Value}
    (ht : h[id]? = some ⟨e, some v⟩) : h'[id]? = some ⟨e, some v⟩ := by
  rcases hf id _ ht with h1 | ⟨hn, -⟩
  · exact h1
  · exact absurd hn (by simp)

/-- A computation that is put off stands behind all others. -/
theorem push (h : Array Thunk) (t : Thunk) : Fills h (h.push t) := by
  intro id u hu
  have hlt : id < h.size := (Array.getElem?_eq_some_iff.1 hu).1
  rw [Array.getElem?_push, if_neg (by omega)]
  exact .inl hu

/-- A thunk without a value may be given one, also after others were. -/
theorem settle {h h' : Array Thunk} (hf : Fills h h') {id : Nat} {e : Tree}
    (ht : h[id]? = some ⟨e, none⟩) (v : Value) :
    Fills h (h'.modify id fun t => { t with value? := some v }) := by
  intro j t hj
  rw [Array.getElem?_modify]
  by_cases hji : id = j
  · subst hji
    rw [ht] at hj
    cases hj
    refine .inr ⟨rfl, v, ?_⟩
    rcases hf id _ ht with h1 | ⟨-, w, h1⟩ <;> simp [h1]
  · rw [if_neg hji]
    exact hf j t hj

end Fills

/-- Between `m` and `m'` values were looked at, and nothing else happened. -/
structure Machine.Looks (m m' : Machine) : Prop where
  /-- All else is as it was. -/
  same : m' = { m with
    heap := m'.heap
    evaluations := m'.evaluations
    lists := { m.lists with next := m'.lists.next } }
  /-- The heap did not grow. -/
  heapSize : m'.heap.size = m.heap.size
  /-- Thunks may have got values. -/
  fills : Fills m.heap m'.heap
  /-- Evaluations were counted. -/
  evaluations : m.evaluations ≤ m'.evaluations
  /-- Numbers of lists were used up. -/
  next : m.lists.next ≤ m'.lists.next

namespace Machine.Looks

variable {m m' : Machine}

theorem bindings (h : m.Looks m') : m'.bindings = m.bindings := by rw [h.same]

/-- Names are bound as they were. -/
theorem lookup (h : m.Looks m') (name : Name) : m'.lookup name = m.lookup name := by
  rw [Machine.lookup, Machine.lookup, h.bindings]

theorem history (h : m.Looks m') : m'.history = m.history := by rw [h.same]

theorem profile (h : m.Looks m') : m'.profile = m.profile := by rw [h.same]

theorem clock (h : m.Looks m') : m'.clock = m.clock := by rw [h.same]

theorem pieces (h : m.Looks m') : m'.pieces = m.pieces := by rw [h.same]

/-- No list was extended. -/
theorem added (h : m.Looks m') : m'.lists.added = m.lists.added := by
  rw [h.same]

/-- A thunk that waits has waited before. -/
theorem waiting (h : m.Looks m') {id : Nat} {e : Tree} (ht : m'.heap[id]? = some ⟨e, none⟩) :
    m.heap[id]? = some ⟨e, none⟩ := by
  have hid : id < m.heap.size := by
    rw [← h.heapSize]
    exact (Array.getElem?_eq_some_iff.1 ht).1
  have hbefore := Array.getElem?_eq_getElem hid
  rcases h.fills id _ hbefore with hsame | ⟨-, v, hv⟩
  · rwa [hbefore, ← hsame]
  · rw [ht] at hv
    cases hv

end Machine.Looks

namespace Exec

open Machine (Looks)

/-! ## Operations on values

None of them asks a thunk; at most they use up a number for a list. -/

section Operations

variable {C : Fault → Prop} {R : Machine → Machine → Prop} (hR : Onward R)
include hR

theorem keepsOn_shown (v : Value) : KeepsOn C R (shown v) := by
  refine keepsOn_bind hR (keepsOn_of_apply (view_apply v) hR.refl) fun _ => ?_
  exact keepsOn_bind hR (keepsOn_ofExcept hR _) fun _ => keepsOn_pure hR _

theorem keepsOn_item (v position : Value) : KeepsOn C R (item v position) := by
  have notAList (v : Value) : KeepsOn C R (do fail (.notIndexable (← shown v)) : Exec Value) :=
    keepsOn_bind hR (keepsOn_shown hR v) fun _ => keepsOn_throw hR _
  cases v with
  | list id xs =>
    simp only [item]
    split
    · exact keepsOn_bind hR (keepsOn_get hR) fun _ => keepsOn_ofExcept hR _
    · exact keepsOn_throw hR _
  | _ => exact notAList _

theorem keepsOn_lengthOf (v : Value) : KeepsOn C R (lengthOf v) := by
  cases v with
  | list id xs => exact keepsOn_bind hR (keepsOn_get hR) fun _ => keepsOn_pure hR _
  | text s => exact keepsOn_pure hR _
  | _ => exact keepsOn_throw hR _

variable (hnew : KeepsOn C R newId)
include hnew

/-- A new list takes a number and leaves all else as it was. -/
theorem keepsOn_newList (items : List Value) : KeepsOn C R (newList items) :=
  keepsOn_bind hR hnew fun _ => keepsOn_pure hR _

/-- An operator takes a number at most, for a list that it may build. -/
theorem keepsOn_apply (op : Op) (u v : Value) : KeepsOn C R (apply op u v) := by
  unfold apply
  split
  · exact keepsOn_pure hR _
  · exact keepsOn_bind hR hnew fun _ =>
      keepsOn_bind hR (keepsOn_get hR) fun _ => keepsOn_ofExcept hR _

end Operations

/-! ## Looking -/

theorem onward_looks : Onward Looks where
  refl m := ⟨rfl, rfl, Fills.refl _, Nat.le_refl _, Nat.le_refl _⟩
  trans {a b c} hab hbc := {
    same := by rw [hbc.same, hab.same]
    heapSize := hbc.heapSize.trans hab.heapSize
    fills := hab.fills.trans hbc.fills
    evaluations := Nat.le_trans hab.evaluations hbc.evaluations
    next := Nat.le_trans hab.next hbc.next }

theorem looks_refl (m : Machine) : m.Looks m := onward_looks.refl m

theorem countEvaluation_looks : Keeps Looks countEvaluation :=
  keepsOn_of_apply countEvaluation_apply fun _ =>
    ⟨rfl, rfl, Fills.refl _, Nat.le_succ _, Nat.le_refl _⟩

theorem newId_looks : Keeps Looks newId :=
  keepsOn_of_apply newId_apply fun _ => ⟨rfl, rfl, Fills.refl _, Nat.le_refl _, Nat.le_succ _⟩

theorem newList_looks (items : List Value) : Keeps Looks (newList items) :=
  keepsOn_newList onward_looks newId_looks items

theorem view_looks (v : Value) : Keeps Looks (view v) :=
  keepsOn_of_apply (view_apply v) looks_refl

theorem isTruthy_looks (v : Value) : Keeps Looks (isTruthy v) :=
  keepsOn_of_apply (isTruthy_apply v) looks_refl

theorem shown_looks (v : Value) : Keeps Looks (shown v) :=
  keepsOn_shown onward_looks v

theorem fail_looks {α : Type} (cause : ExecFault) : Keeps Looks (fail cause : Exec α) :=
  keepsOn_throw onward_looks _

theorem item_looks (v position : Value) : Keeps Looks (item v position) :=
  keepsOn_item onward_looks v position

theorem lengthOf_looks (v : Value) : Keeps Looks (lengthOf v) :=
  keepsOn_lengthOf onward_looks v

theorem apply_looks (op : Op) (u v : Value) : Keeps Looks (apply op u v) :=
  keepsOn_apply onward_looks newId_looks op u v

/-! ## Expressions -/

section Force

variable {force : Nat → Exec Value} (hf : ∀ id, Keeps Looks (force id))
include hf

theorem resolve_looks (v : Value) : Keeps Looks (resolve force v) := by
  cases v with
  | thunk id => exact hf id
  | _ => exact keepsOn_pure onward_looks _

theorem resolve?_looks (v : Option Value) : Keeps Looks (resolve? force v) := by
  cases v with
  | none => exact keepsOn_pure onward_looks _
  | some v => exact resolve_looks hf v

/-- Operands that are thunks are worked out, which is looking as well. -/
theorem operate_looks (op : Tree) (u v : Value) : Keeps Looks (operate force op u v) := by
  refine keepsOn_bind onward_looks (resolve_looks hf u) fun u => ?_
  refine keepsOn_bind onward_looks (resolve_looks hf v) fun v => ?_
  split
  · exact apply_looks _ u v
  · exact fail_looks _

end Force

/-- The step counts an evaluation before it does anything else, and all else is looking. -/
def Counted {α : Type} (x : Exec α) : Prop :=
  ∃ f : Unit → Exec α, x = (countEvaluation >>= f) ∧ ∀ u, Keeps Looks (f u)

/-- A step that first counts an evaluation and then looks. -/
theorem counted {α : Type} {f : Unit → Exec α} (h : ∀ u, Keeps Looks (f u)) :
    Counted (countEvaluation >>= f) :=
  ⟨f, rfl, h⟩

theorem Counted.looks {α : Type} {x : Exec α} (h : Counted x) : Keeps Looks x := by
  obtain ⟨f, rfl, hf⟩ := h
  exact keepsOn_bind onward_looks countEvaluation_looks hf

/-- An evaluation is counted, even if it ends in a fault. -/
theorem Counted.counts {α : Type} {x : Exec α} (h : Counted x) :
    Keeps (fun m m' => m.evaluations < m'.evaluations) x := by
  obtain ⟨f, rfl, hf⟩ := h
  refine ⟨fun {m m' a} h => ?_, fun {m m' e} _ h => ?_⟩
  · rw [bind_of_ok (countEvaluation_apply m)] at h
    exact ((hf ()).ok h).evaluations
  · rw [bind_of_ok (countEvaluation_apply m)] at h
    exact ((hf ()).error trivial h).evaluations

mutual

/-- Every expression is counted before anything else is done. -/
theorem evaluateWith_counted {force : Nat → Exec Value} (hf : ∀ id, Keeps Looks (force id)) :
    ∀ e : Tree, Counted (evaluateWith force e)
  | .thunk _ => counted fun _ => keepsOn_throw onward_looks _
  | .list xs => counted fun _ =>
    keepsOn_bind onward_looks (evaluateItems_looks hf xs) fun vs => newList_looks vs
  | .tuple [left, op, right] => counted fun _ => by
    refine keepsOn_bind onward_looks (evaluateWith_counted hf left).looks fun u => ?_
    refine keepsOn_bind onward_looks (evaluateWith_counted hf right).looks fun v => ?_
    exact keepsOn_ite (item_looks u v) (operate_looks hf op u v)
  | .tuple [first, e] => counted fun _ =>
    keepsOn_ite (keepsOn_bind onward_looks (evaluateWith_counted hf e).looks fun v =>
      lengthOf_looks v) (fail_looks _)
  | .tuple [] => counted fun _ => fail_looks _
  | .tuple [_] => counted fun _ => fail_looks _
  | .tuple (_ :: _ :: _ :: _ :: _) => counted fun _ => fail_looks _
  | .int n => counted fun _ => keepsOn_pure onward_looks _
  | .bool b => counted fun _ => keepsOn_pure onward_looks _
  | .text s => counted fun _ =>
    keepsOn_ite (keepsOn_pure onward_looks _)
      (keepsOn_bind onward_looks (keepsOn_get onward_looks) fun _ => resolve?_looks hf _)
  | .none => counted fun _ => fail_looks _
  | .float _ => counted fun _ => fail_looks _

theorem evaluateItems_looks {force : Nat → Exec Value} (hf : ∀ id, Keeps Looks (force id)) :
    ∀ es : List Tree, Keeps Looks (evaluateItems force es)
  | [] => keepsOn_pure onward_looks _
  | e :: rest =>
    keepsOn_bind onward_looks (evaluateWith_counted hf e).looks fun _ =>
      keepsOn_bind onward_looks (evaluateItems_looks hf rest) fun _ => keepsOn_pure onward_looks _

end

/-- An expression only looks, if working out thunks does. -/
theorem evaluateWith_looks {force : Nat → Exec Value} (hf : ∀ id, Keeps Looks (force id))
    (e : Tree) : Keeps Looks (evaluateWith force e) :=
  (evaluateWith_counted hf e).looks

/-- A thunk that has no value yet is given the one that its expression has. -/
theorem forceWithin_succ {depth id : Nat} {m : Machine} {e : Tree}
    (ht : m.heap[id]? = some ⟨e, none⟩) :
    forceWithin (depth + 1) id m = (do
      let v ← evaluateWith (forceWithin depth) e
      settle id v
      return v : Exec Value) m := by
  rw [forceWithin, bind_of_ok (get_apply m), ht]

/-- A thunk that was worked out is not worked out again. -/
theorem forceWithin_of_value {depth id : Nat} {m : Machine} {e : Tree} {v : Value}
    (ht : m.heap[id]? = some ⟨e, some v⟩) : forceWithin (depth + 1) id m = .ok v m := by
  rw [forceWithin, bind_of_ok (get_apply m), ht]
  rfl

/-- Where there is no thunk, there is no value. -/
theorem forceWithin_of_none {depth id : Nat} {m : Machine} (ht : m.heap[id]? = none) :
    forceWithin (depth + 1) id m = .ok .none m := by
  rw [forceWithin, bind_of_ok (get_apply m), ht]
  rfl

/-- To work a thunk out is to look, at any depth: what a thunk gets is a value that it did not have,
even if it was asked for itself on the way. -/
theorem forceWithin_looks : ∀ depth id, Keeps Looks (forceWithin depth id)
  | 0, _ => keepsOn_throw onward_looks _
  | depth + 1, id => by
    have he (e : Tree) := evaluateWith_looks (forceWithin_looks depth) e
    constructor
    · intro m m' v h
      cases ht : m.heap[id]? with
      | none =>
        rw [forceWithin_of_none ht] at h
        cases h
        exact looks_refl m
      | some t =>
        obtain ⟨e, _ | w⟩ := t
        · rw [forceWithin_succ ht] at h
          obtain ⟨v', mid, h1, h2⟩ := bind_eq_ok.1 h
          have hm := (he e).ok h1
          cases h2
          exact {
            same := by rw [hm.same]
            heapSize := by simpa using hm.heapSize
            fills := hm.fills.settle ht v
            evaluations := hm.evaluations
            next := hm.next }
        · rw [forceWithin_of_value ht] at h
          cases h
          exact looks_refl m
    · intro m m' fault _ h
      cases ht : m.heap[id]? with
      | none =>
        rw [forceWithin_of_none ht] at h
        cases h
      | some t =>
        obtain ⟨e, _ | w⟩ := t
        · rw [forceWithin_succ ht, bind_apply] at h
          split at h
          · cases h
          · next h1 => cases h; exact (he e).error trivial h1
        · rw [forceWithin_of_value ht] at h
          cases h

theorem force_looks (id : Nat) : Keeps Looks (force id) :=
  keepsOn_get_bind (forceWithin_looks _ id).ok (forceWithin_looks _ id).error

theorem evaluate_looks (e : Tree) : Keeps Looks (evaluate e) :=
  keepsOn_get_bind (evaluateWith_looks (forceWithin_looks _) e).ok
    (evaluateWith_looks (forceWithin_looks _) e).error

theorem evaluate_counts (e : Tree) :
    Keeps (fun m m' => m.evaluations < m'.evaluations) (evaluate e) :=
  keepsOn_get_bind (evaluateWith_counted (forceWithin_looks _) e).counts.ok
    (evaluateWith_counted (forceWithin_looks _) e).counts.error

theorem valueOfName_looks (name : Name) : Keeps Looks (valueOfName name) :=
  keepsOn_bind onward_looks (keepsOn_get onward_looks) fun _ => resolve?_looks force_looks _

end Exec
end Retrace
