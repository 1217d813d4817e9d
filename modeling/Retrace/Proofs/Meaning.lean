import Retrace.Proofs.Conform
import Retrace.Proofs.Looking

/-!
# What expressions mean

Evaluating an expression changes the machine: thunks are worked out on the way, and get values.
Beside that stands the meaning of an expression, which is a function: of the expression and of what
its names mean (`Tree.meaning`).  A name means what it is bound to, and a thunk that waits means
what its expression means.

The meaning is what two runs have in common that evaluate at different times.  In one of them a
variable is bound to a number, in the other to a thunk, and no relation between the bindings alone
could say that the two are the same; but they mean the same.  To be of use for that, a meaning must
not depend on which thunks have been worked out, and so most of this module says that it does not.

Thunks may depend on each other, even in a circle, so a meaning need not exist, and there is a depth
again (`Machine.thunks`).  With more depth more is defined, but nothing changes (`thunks_mono`), and
thus a meaning is unique where it exists, whatever the depths are (`thunks_unique`, `means_unique`).
Meanings are shapes, since the numbers of lists are given out in the order of evaluation.

What an expression reads is a list of names (`Tree.reads`), and its meaning depends on the meanings
of these names only.  Other names may be bound to anything.

Three things may become of a machine without a change in what its thunks mean.

* A thunk is given the value that it means (`thunks_settle`, `thunks_of_settle`).  Less depth is
  needed afterwards, by as much as the thunk had needed itself.
* A new thunk comes up (`thunks_push`).  No thunk that was there refers to it.
* A name is bound which no waiting thunk reads (`thunks_insert`).
-/

set_option autoImplicit false

namespace Retrace

open Exec (isLiteral)

namespace Tree

mutual

/-- The names that are read when the expression is evaluated. -/
def reads : Tree → List Name
  | .text s => if isLiteral s then [] else [.ofText s]
  | .list es => readsOf es
  | .tuple [left, _, right] => reads left ++ reads right
  | .tuple [first, e] => if first.isText "len" then reads e else []
  | _ => []

/-- The names that are read when the expressions are evaluated. -/
def readsOf : List Tree → List Name
  | [] => []
  | e :: rest => reads e ++ readsOf rest

end

end Tree

/-! ## Meanings -/

/-- The item of a shape at a position. -/
def Value.itemAt? (v position : Value) : Option Value :=
  match v, position.whole? with
  | .list _ items, some n => (Sequence.item items n).toOption
  | _, _ => Option.none

/-- The length of a shape. -/
def Value.length? : Value → Option Value
  | .text s => some (.int s.length)
  | .list _ items => some (.int items.length)
  | _ => Option.none

/-- The result of an operator on two shapes. -/
def Op.result? (op : Op) (u v : Value) : Option Value :=
  match u.whole?, v.whole? with
  | some a, some b => some (.int (op.onWords a b))
  | _, _ => (op.onShapes u v).toOption

mutual

/-- What an expression means, given what names mean. -/
def Tree.meaning (names : Name → Option Value) : Tree → Option Value
  | .int n => some (.int n)
  | .bool b => some (.bool b)
  | .text s => if isLiteral s then some (.ofString s) else names (.ofText s)
  | .list es => (Tree.meanings names es).map (.list 0)
  | .tuple [left, op, right] => do
    let u ← Tree.meaning names left
    let v ← Tree.meaning names right
    if op.isText "index" then u.itemAt? v else (← Op.ofTree? op).result? u v
  | .tuple [first, e] =>
    if first.isText "len" then (Tree.meaning names e).bind Value.length? else Option.none
  | _ => Option.none

/-- What expressions mean, given what names mean. -/
def Tree.meanings (names : Name → Option Value) : List Tree → Option (List Value)
  | [] => some []
  | e :: rest => do
    let v ← Tree.meaning names e
    let vs ← Tree.meanings names rest
    return v :: vs

end

/-- What a value means, given what thunks mean. -/
def Value.meaning (thunks : Nat → Option Value) : Value → Option Value
  | .thunk id => thunks id
  | v => some v.shape

namespace Machine

/-- What names mean, given what thunks mean.  A name that is not bound means nothing. -/
def names (m : Machine) (thunks : Nat → Option Value) (name : Name) : Option Value :=
  match m.lookup name with
  | some v => v.meaning thunks
  | none => some .none

/-- What thunks mean, if not more than `depth` of them depend on each other. -/
def thunks (m : Machine) : Nat → Nat → Option Value
  | 0, _ => none
  | depth + 1, id =>
    match m.heap[id]? with
    | none => some .none
    | some thunk =>
      match thunk.value? with
      | some v => some v.shape
      | none => thunk.expression.meaning (m.names (thunks m depth))

/-- What an expression means in a machine. -/
def means (m : Machine) (depth : Nat) (e : Tree) : Option Value :=
  e.meaning (m.names (m.thunks depth))

/-- What a value means in a machine. -/
def worth (m : Machine) (depth : Nat) (v : Value) : Option Value :=
  v.meaning (m.thunks depth)

end Machine

/-! ## What meanings depend on -/

namespace Tree

variable {names names' : Name → Option Value}

mutual

/-- What has a meaning keeps it if the names that are read do. -/
theorem meaning_mono : ∀ {e : Tree} {w : Value},
    (∀ name ∈ e.reads, ∀ v, names name = some v → names' name = some v) →
    e.meaning names = some w → e.meaning names' = some w
  | .int _, _, _, h => h
  | .bool _, _, _, h => h
  | .text s, w, hn, h => by
    rw [meaning] at h ⊢
    rw [reads] at hn
    split
    · next hs => rwa [if_pos hs] at h
    · next hs =>
      rw [if_neg hs] at h hn
      exact hn (.ofText s) (List.mem_singleton_self _) w h
  | .list es, w, hn, h => by
    rw [meaning, Option.map_eq_some_iff] at h ⊢
    obtain ⟨ws, hws, rfl⟩ := h
    exact ⟨ws, meanings_mono hn hws, rfl⟩
  | .tuple [left, op, right], w, hn, h => by
    rw [meaning] at h ⊢
    obtain ⟨u, hu, h⟩ := Option.bind_eq_some_iff.1 h
    obtain ⟨v, hv, h⟩ := Option.bind_eq_some_iff.1 h
    rw [meaning_mono (fun name hr => hn name (List.mem_append_left _ hr)) hu,
      meaning_mono (fun name hr => hn name (List.mem_append_right _ hr)) hv]
    exact h
  | .tuple [first, e], w, hn, h => by
    rw [meaning] at h ⊢
    rw [reads] at hn
    split
    · next hlen =>
      rw [if_pos hlen] at h hn
      obtain ⟨v, hv, h⟩ := Option.bind_eq_some_iff.1 h
      rw [meaning_mono hn hv]
      exact h
    · next hlen =>
      rw [if_neg hlen] at h
      cases h

theorem meanings_mono : ∀ {es : List Tree} {ws : List Value},
    (∀ name ∈ readsOf es, ∀ v, names name = some v → names' name = some v) →
    meanings names es = some ws → meanings names' es = some ws
  | [], _, _, h => h
  | e :: rest, ws, hn, h => by
    rw [meanings] at h ⊢
    obtain ⟨v, hv, h⟩ := Option.bind_eq_some_iff.1 h
    obtain ⟨vs, hvs, h⟩ := Option.bind_eq_some_iff.1 h
    rw [meaning_mono (fun name hr => hn name (List.mem_append_left _ hr)) hv,
      meanings_mono (fun name hr => hn name (List.mem_append_right _ hr)) hvs]
    exact h

end

/-- An expression means the same if the names that are read do. -/
theorem meaning_congr {e : Tree} (h : ∀ name ∈ e.reads, names name = names' name) :
    e.meaning names = e.meaning names' := by
  refine Option.ext fun w => ⟨?_, ?_⟩
  · exact meaning_mono fun name hr v hv => by rwa [← h name hr]
  · exact meaning_mono fun name hr v hv => by rwa [h name hr]

/-- If names have no two meanings, expressions have no two meanings either. -/
theorem meaning_unique {e : Tree} {v w : Value}
    (h : ∀ name a b, names name = some a → names' name = some b → a = b)
    (hv : e.meaning names = some v) (hw : e.meaning names' = some w) : v = w := by
  -- both are the meaning of the expression if names mean what one or the other says
  let both := fun name => (names name).or (names' name)
  have hv' : e.meaning both = some v :=
    meaning_mono (fun name _ a ha => by simp [both, ha]) hv
  have hw' : e.meaning both = some w := by
    refine meaning_mono (fun name _ b hb => ?_) hw
    cases ha : names name with
    | none => simp [both, ha, hb]
    | some a => simp [both, ha, h name a b ha hb]
  exact Option.some.inj (hv'.symm.trans hw')

end Tree

/-- What a value means does not get lost if what thunks mean does not. -/
theorem Value.meaning_mono {f g : Nat → Option Value}
    (h : ∀ {id w}, f id = some w → g id = some w) {v w : Value} (hv : v.meaning f = some w) :
    v.meaning g = some w := by
  cases v with
  | thunk id => exact h hv
  | _ => exact hv

namespace Machine

variable {m m' : Machine}

theorem thunks_of_none {depth id : Nat} (h : m.heap[id]? = none) :
    m.thunks (depth + 1) id = some .none := by
  rw [thunks, h]

/-- A thunk that was worked out means its value. -/
theorem thunks_of_value {depth id : Nat} {e : Tree} {v : Value}
    (h : m.heap[id]? = some ⟨e, some v⟩) : m.thunks (depth + 1) id = some v.shape := by
  rw [thunks, h]

/-- A thunk that waits means what its expression means. -/
theorem thunks_of_waiting {depth id : Nat} {e : Tree} (h : m.heap[id]? = some ⟨e, none⟩) :
    m.thunks (depth + 1) id = m.means depth e := by
  rw [thunks, h]
  rfl

/-- What an expression means does not get lost if what thunks mean does not. -/
theorem means_mono {d d' : Nat} (hlookup : ∀ name, m'.lookup name = m.lookup name)
    (h : ∀ {id w}, m.thunks d id = some w → m'.thunks d' id = some w) {e : Tree} {w : Value}
    (hw : m.means d e = some w) : m'.means d' e = some w := by
  refine Tree.meaning_mono (fun name _ v hv => ?_) hw
  rw [names] at hv ⊢
  rw [hlookup]
  split
  · next u hu =>
    rw [hu] at hv
    exact Value.meaning_mono h hv
  · next hu => rwa [hu] at hv

/-- With more depth thunks mean what they meant. -/
theorem thunks_mono {d d' id : Nat} {w : Value} (hd : d ≤ d') (h : m.thunks d id = some w) :
    m.thunks d' id = some w := by
  induction d generalizing d' id w with
  | zero => cases h
  | succ d ih =>
    obtain ⟨d', rfl⟩ : ∃ k, d' = k + 1 := ⟨d' - 1, by omega⟩
    cases ht : m.heap[id]? with
    | none => rwa [thunks_of_none ht] at h ⊢
    | some t =>
      obtain ⟨e, _ | v⟩ := t
      · rw [thunks_of_waiting ht] at h ⊢
        exact means_mono (fun _ => rfl) (ih (by omega)) h
      · rwa [thunks_of_value ht] at h ⊢

/-- A thunk has one meaning at most. -/
theorem thunks_unique {d d' id : Nat} {v w : Value} (hv : m.thunks d id = some v)
    (hw : m.thunks d' id = some w) : v = w := by
  have hv' := thunks_mono (Nat.le_max_left d d') hv
  have hw' := thunks_mono (Nat.le_max_right d d') hw
  exact Option.some.inj (hv'.symm.trans hw')

theorem means_of_le {d d' : Nat} (hd : d ≤ d') {e : Tree} {w : Value} (h : m.means d e = some w) :
    m.means d' e = some w :=
  means_mono (fun _ => rfl) (thunks_mono hd) h

/-- An expression has one meaning at most. -/
theorem means_unique {d d' : Nat} {e : Tree} {v w : Value} (hv : m.means d e = some v)
    (hw : m.means d' e = some w) : v = w := by
  have hv' := means_of_le (Nat.le_max_left d d') hv
  have hw' := means_of_le (Nat.le_max_right d d') hw
  exact Option.some.inj (hv'.symm.trans hw')

/-! ## What leaves meanings as they are -/

section Settle

variable {k id : Nat} {u : Value}
variable (hheap : m'.heap = m.heap.modify id fun t => { t with value? := some u })
include hheap

private theorem getElem?_settled {j : Nat} (hj : id ≠ j) : m'.heap[j]? = m.heap[j]? := by
  rw [hheap, Array.getElem?_modify, if_neg hj]

variable (hid : id < m.heap.size)
include hid

private theorem thunks_settled (depth : Nat) : m'.thunks (depth + 1) id = some u.shape := by
  refine thunks_of_value (e := m.heap[id].expression) ?_
  rw [hheap, Array.getElem?_modify, if_pos rfl, Array.getElem?_eq_getElem hid]
  rfl

variable (hlookup : ∀ name, m'.lookup name = m.lookup name) (hu : m.thunks k id = some u.shape)
include hlookup hu

/-- If a thunk is given the value that it means, no meaning is lost. -/
theorem thunks_settle {d j : Nat} {w : Value} (h : m.thunks d j = some w) :
    m'.thunks d j = some w := by
  induction d generalizing j w with
  | zero => cases h
  | succ d ih =>
    by_cases hj : id = j
    · subst hj
      rw [thunks_settled hheap hid, thunks_unique h hu]
    · have hsame := getElem?_settled hheap hj
      cases ht : m.heap[j]? with
      | none => rwa [thunks_of_none ht, ← thunks_of_none (hsame.trans ht)] at h
      | some t =>
        obtain ⟨e, _ | v⟩ := t
        · rw [thunks_of_waiting ht] at h
          rw [thunks_of_waiting (hsame.trans ht)]
          exact means_mono hlookup ih h
        · rwa [thunks_of_value ht, ← thunks_of_value (hsame.trans ht)] at h

/-- If a thunk is given the value that it means, none gets a new meaning. -/
theorem thunks_of_settle {d j : Nat} {w : Value} (h : m'.thunks d j = some w) :
    m.thunks (d + k) j = some w := by
  induction d generalizing j w with
  | zero => cases h
  | succ d ih =>
    by_cases hj : id = j
    · subst hj
      rw [thunks_settled hheap hid] at h
      rw [← h]
      exact thunks_mono (by omega) hu
    · have hsame := getElem?_settled hheap hj
      rw [Nat.succ_add]
      cases ht : m.heap[j]? with
      | none => rwa [thunks_of_none (hsame.trans ht), ← thunks_of_none ht] at h
      | some t =>
        obtain ⟨e, _ | v⟩ := t
        · rw [thunks_of_waiting (hsame.trans ht)] at h
          rw [thunks_of_waiting ht]
          exact means_mono (fun name => (hlookup name).symm) ih h
        · rwa [thunks_of_value (hsame.trans ht), ← thunks_of_value ht] at h

end Settle

/-- What names mean depends on the thunks that names are bound to. -/
theorem names_congr {f f' : Nat → Option Value} (hlookup : ∀ name, m'.lookup name = m.lookup name)
    (h : ∀ name id, m.lookup name = some (.thunk id) → f' id = f id) :
    m'.names f' = m.names f := by
  funext name
  rw [names, names, hlookup]
  cases hv : m.lookup name with
  | none => rfl
  | some v =>
    cases v with
    | thunk id => exact h name id hv
    | _ => rfl

/-- Meanings depend on nothing but the bindings and the heap. -/
theorem thunks_congr (hlookup : ∀ name, m'.lookup name = m.lookup name) (hheap : m'.heap = m.heap)
    (d id : Nat) : m'.thunks d id = m.thunks d id := by
  induction d generalizing id with
  | zero => rfl
  | succ d ih => rw [thunks, thunks, hheap, names_congr hlookup fun _ id _ => ih id]

section Push

variable {e : Tree} (hlookup : ∀ name, m'.lookup name = m.lookup name)
variable (hheap : m'.heap = m.heap.push { expression := e })
variable (hbound : ∀ name id, m.lookup name = some (.thunk id) → id < m.heap.size)
include hlookup hheap hbound

/-- A new thunk changes no meaning of another one. -/
theorem thunks_push {d id : Nat} (hid : id < m.heap.size) : m'.thunks d id = m.thunks d id := by
  induction d generalizing id with
  | zero => rfl
  | succ d ih =>
    rw [thunks, thunks, hheap, names_congr hlookup fun name id hv => ih (hbound name id hv),
      Array.getElem?_push, if_neg (by omega)]

/-- A new thunk is read by no name. -/
theorem means_push (d : Nat) (e : Tree) : m'.means d e = m.means d e := by
  rw [means, means, names_congr hlookup fun name id hv =>
    thunks_push hlookup hheap hbound (hbound name id hv)]

end Push

/-- Binding a name that no waiting thunk reads changes no meaning of a thunk. -/
theorem thunks_insert {name : Name}
    (hlookup : ∀ other, (name == other) = false → m'.lookup other = m.lookup other)
    (hheap : m'.heap = m.heap)
    (hreads : ∀ (id : Nat) (e : Tree), m.heap[id]? = some ⟨e, none⟩ →
      ∀ other ∈ e.reads, (name == other) = false) (d id : Nat) :
    m'.thunks d id = m.thunks d id := by
  induction d generalizing id with
  | zero => rfl
  | succ d ih =>
    cases ht : m.heap[id]? with
    | none => rw [thunks_of_none ht, thunks_of_none (hheap ▸ ht)]
    | some t =>
      obtain ⟨e, _ | v⟩ := t
      · rw [thunks_of_waiting ht, thunks_of_waiting (hheap ▸ ht)]
        refine Tree.meaning_congr fun other hother => ?_
        rw [names, names, hlookup other (hreads id e ht other hother), funext ih]
      · rw [thunks_of_value ht, thunks_of_value (hheap ▸ ht)]

end Machine
end Retrace
