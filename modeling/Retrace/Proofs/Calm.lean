import Retrace.Proofs.Guard
import Retrace.Proofs.Library
import Retrace.Proofs.Pairing

/-!
# Which programs do not depend on what is eager

A thunk is worked out with the bindings of the moment at which it is asked for.  If one of the names
that it reads was bound anew in between, it gives another value than an eager assignment would have
given, and the program prints other lines (`stale_line_of_rebinding`).

A run is calm if no name is bound that a waiting thunk reads.  Two more things must not happen.  A
name that is bound to nothing must not be bound anew: nothing is not put back by a reversal, but a
thunk that means nothing is.  And no list must be extended in its place, since thunks may share it.
Any two calm runs of a program that come to their ends print the same lines, whatever names are
eager.

Other than for programs that bind each name once there is no side that leads: on both sides names
may be bound to thunks, and one side may have worked out what the other one has not.  So two
bindings are compared by what they mean, as far as they mean anything (`Pair.Alike`).  A thunk that
cannot be worked out means nothing, and is alike to everything.  That is no gap: as soon as it is
asked for, its run stops, and only runs that come to their ends are compared.  It also saves the
proof from having to know in advance which thunks will ever be asked for.  The entries of the
histories come back by reversals, and so are compared in the same way.

What a side does is of two sorts.  It may look at values, count, charge and put off a computation
without touching any binding, in a different way than the other side does (`Machine.Goes`).  Or both
sides bind a name, record something or take it back, and do so together.  In both cases the meaning
of all that is held must be the same as before on each side, and `Machine.Steady` says just this:
whatever means something afterwards has meant the same before.  The other direction is not needed,
as only what means something on both sides is compared.  Here the guard is used: a binding of a name
that no waiting thunk reads is steady (`Binds.steady`).

* `calm`: what may happen in a run.
* `Machine.Steady`, `Machine.Goes`: what one side may do without the other one.
* `Pair.Alike`, `Pair.SameChange`: bindings and entries that mean the same.
* `Agrees`: the invariant.
* `pairing_agrees`: statements keep it.
* `same_lines_of_calm`: the result.
-/

set_option autoImplicit false

namespace Retrace

/-- A name is bound only if no waiting thunk reads it and it is not bound to nothing, and no list is
extended in its place. -/
def calm : Exec.Event → Machine → Bool
  | .evaluation _, _ => true
  | .binding name _, m => ((m.lookup name).all fun v => !v.isNone) &&
      m.heap.toList.all fun thunk =>
        thunk.value?.isSome || thunk.expression.reads.all fun other => !(name == other)
  | .extension _, _ => false

namespace Machine

/-- No waiting thunk reads a name, and the name is not bound to nothing. -/
structure Frees (m : Machine) (name : Name) : Prop where
  something : ∀ {v}, m.lookup name = some v → v.isNone = false
  unread : ∀ (id : Nat) (e : Tree), m.heap[id]? = some ⟨e, none⟩ →
    ∀ other ∈ e.reads, (name == other) = false

/-- A name that may be bound is read by no waiting thunk. -/
theorem frees_of_calm {m mid : Machine} {name : Name} {v : Value}
    (h : calm (.binding name v) mid = true) (hbindings : mid.bindings = m.bindings)
    (hheap : mid.heap = m.heap) : m.Frees name := by
  rw [calm, lookup, hbindings, hheap, Bool.and_eq_true, List.all_eq_true] at h
  constructor
  · intro u hu
    have hsome := h.1
    rw [lookup] at hu
    rw [hu] at hsome
    simpa using hsome
  · intro id e ht other hother
    have hthunk := h.2 ⟨e, none⟩ (Array.mem_of_getElem? ht).val
    simp only [Option.isSome_none, Bool.false_or, List.all_eq_true] at hthunk
    simpa using hthunk other hother

/-- Between `m` and `m'` nothing that may stand in the machine has got a new meaning. -/
structure Steady (m : Machine) (reg reg' : Nat → List Value) (m' : Machine) : Prop where
  registry : ∀ i < m.lists.next, reg' i = reg i
  next : m.lists.next ≤ m'.lists.next
  heap : m.heap.size ≤ m'.heap.size
  worth : ∀ {v d w}, m.Holds reg v → m'.worth d v = some w → ∃ k, m.worth k v = some w

variable {m m' : Machine} {reg reg' : Nat → List Value}

/-- What a machine holds it goes on to hold. -/
theorem Steady.holds (h : m.Steady reg reg' m') {v : Value} (hv : m.Holds reg v) :
    m'.Holds reg' v :=
  hv.mono h.registry h.next h.heap

theorem Steady.conforms (h : m.Steady reg reg' m') {v : Value}
    (hv : v.Conforms reg m.lists.next) : v.Conforms reg' m'.lists.next :=
  hv.mono h.registry h.next

theorem Later.steady (h : m.Later reg reg' m') : m.Steady reg reg' m' where
  registry := h.registry
  next := h.looks.next
  heap := Nat.le_of_eq h.looks.heapSize.symm
  worth {v d w} _ hw := by
    obtain ⟨k, hk⟩ := h.adds
    exact ⟨d + k, Value.meaning_mono hk hw⟩

/-- Where thunks mean what they meant, all else does as well. -/
theorem steady_of_thunks (hheap : m'.heap = m.heap) (hlists : m'.lists = m.lists)
    (hthunks : ∀ d id, m'.thunks d id = m.thunks d id) : m.Steady reg reg m' where
  registry _ _ := rfl
  next := Nat.le_of_eq (by rw [hlists])
  heap := Nat.le_of_eq (by rw [hheap])
  worth {v d w} _ hw := by
    rw [worth, funext (hthunks d)] at hw
    exact ⟨d, hw⟩

theorem SameStore.steady (h : m.SameStore m') : m.Steady reg reg m' :=
  steady_of_thunks h.heap h.lists (thunks_congr h.lookup h.heap)

/-- Binding a name gives no meaning to a thunk if none that waits reads the name. -/
theorem Binds.steady {name : Name} {v : Value} (h : m.Binds name v m') (hfree : m.Frees name) :
    m.Steady reg reg m' := by
  refine steady_of_thunks h.heap h.lists ?_
  refine thunks_insert (fun other hother => ?_) h.heap hfree.unread
  rw [h.lookup, hother]
  rfl

/-- Between `m` and `m'` values were looked at, thunks were made, and something was counted or
charged. -/
structure Goes (m : Machine) (reg reg' : Nat → List Value) (m' : Machine) : Prop where
  steady : m.Steady reg reg' m'
  fit : m'.Fit reg'
  bindings : m'.bindings = m.bindings
  history : m'.history = m.history
  clock : m'.clock = m.clock
  pieces : m'.pieces = m.pieces

theorem Goes.lookup (h : m.Goes reg reg' m') (name : Name) : m'.lookup name = m.lookup name := by
  rw [Machine.lookup, h.bindings, Machine.lookup]

theorem Later.goes (h : m.Later reg reg' m') : m.Goes reg reg' m' where
  steady := h.steady
  fit := h.fit
  bindings := h.looks.bindings
  history := h.looks.history
  clock := h.looks.clock
  pieces := h.looks.pieces

/-- What is counted or charged. -/
theorem Fit.goes (h : m.Fit reg) (hs : m.SameStore m') (hhistory : m'.history = m.history)
    (hclock : m'.clock = m.clock) (hpieces : m'.pieces = m.pieces) : m.Goes reg reg m' where
  steady := hs.steady
  fit := h.sameStore hs fun hc => h.recorded (hhistory ▸ hc)
  bindings := hs.bindings
  history := hhistory
  clock := hclock
  pieces := hpieces

/-- A new thunk gives no meaning to others, and means what its expression means. -/
theorem Fit.suspend (h : m.Fit reg) {e : Tree} {v : Value} (hs : Exec.suspend e m = .ok v m') :
    m.Goes reg reg m' ∧ m'.Holds reg v ∧
      ∀ {d w}, m'.worth d v = some w → ∃ k, m.means k e = some w := by
  rw [Exec.suspend_apply] at hs
  obtain ⟨rfl, rfl⟩ := EStateM.Result.ok.inj hs
  have hids (name : Name) (id : Nat) (hv : m.lookup name = some (.thunk id)) :
      id < m.heap.size := h.thunk_lt hv
  let new : Machine := { m with heap := m.heap.push { expression := e } }
  have hlookup (name : Name) : new.lookup name = m.lookup name := rfl
  have hsize : new.heap.size = m.heap.size + 1 := Array.size_push ..
  refine ⟨⟨⟨fun _ _ => rfl, Nat.le_refl _, ?_, ?_⟩, h.push e, rfl, rfl, rfl, rfl⟩, ?_, ?_⟩
  · exact hsize ▸ Nat.le_succ _
  · -- no name leads to the new thunk, so no other one can ask for it
    intro v d w hv hw
    refine ⟨d, ?_⟩
    cases v with
    | thunk id =>
      obtain ⟨_, hid, heq⟩ := hv.resolve_left (fun hc => hc)
      cases heq
      exact (thunks_push hlookup rfl hids hid).symm.trans hw
    | _ => exact hw
  · exact .inr ⟨_, hsize ▸ Nat.lt_succ_self _, rfl⟩
  · intro d w hw
    cases d with
    | zero => cases hw
    | succ d =>
      have hnew : new.heap[m.heap.size]? = some ⟨e, none⟩ := Array.getElem?_push_size
      refine ⟨d, ?_⟩
      rw [← means_push hlookup rfl hids d e, ← thunks_of_waiting hnew]
      exact hw

end Machine

namespace Exec

variable {m m' : Machine} {reg : Nat → List Value}

/-- What means a value that conforms has its shape. -/
theorem shape_of_worth {v w : Value} {next d : Nat} (hv : v.Conforms reg next)
    (hw : m.worth d v = some w) : v.shape = w := by
  cases v with
  | thunk id => cases hv
  | _ => exact Option.some.inj hw

/-- What an assignment binds a name to means what the expression means, at once or later. -/
theorem valueFor_goes {allowed : Event → Machine → Bool} {name : Name} {e : Tree} {v : Value}
    (hm : m.Fit reg) (h : valueFor (guarded allowed) name e m = .ok v m') :
    ∃ reg', m.Goes reg reg' m' ∧ m'.Holds reg' v ∧
      ∀ {d w}, m'.worth d v = some w → ∃ k, m.means k e = some w := by
  rw [valueFor_apply] at h
  split at h
  · obtain ⟨-, he⟩ := evaluateWatched_guarded_eq_ok.1 h
    obtain ⟨reg', hl, hv, k, hk⟩ := (evaluate_finds e).found hm he
    refine ⟨reg', hl.goes, .inl hv, fun hw => ⟨k, ?_⟩⟩
    rw [hk, shape_of_worth hv hw]
  · exact ⟨reg, hm.suspend h⟩

theorem wordFor_goes {name : Name} {n : Int} {v : Value} (hm : m.Fit reg)
    (h : wordFor name n m = .ok v m') :
    m.Goes reg reg m' ∧ m'.Holds reg v ∧ ∀ {d w}, m'.worth d v = some w → w = .int n := by
  change (if m.isEager name then pure (.int n) else suspend (.int n)) m = .ok v m' at h
  split at h
  · cases h
    refine ⟨hm.refl.goes, .inl trivial, fun hw => ?_⟩
    cases hw
    rfl
  · obtain ⟨hgoes, hholds, hworth⟩ := hm.suspend h
    refine ⟨hgoes, hholds, fun hw => ?_⟩
    obtain ⟨k, hk⟩ := hworth hw
    cases hk
    rfl

theorem shown_eq_ok {v : Value} {s : String} (h : shown v m = .ok s m') : m' = m := by
  rw [shown, bind_of_ok (view_apply v m)] at h
  obtain ⟨_, _, hs, hm⟩ := bind_eq_ok.1 h
  obtain ⟨-, rfl⟩ := ofExcept_eq_ok.1 hs
  cases hm
  rfl

/-- After it has found its position, a `revtrace` does nothing but write. -/
theorem revtrace_writes {watch : Watch} {t : Tree} (h : revtrace watch t m = .ok () m') :
    ∃ tag target e v mid s, t.unpack3 = .ok (tag, target, e) ∧
      evaluateWatched watch e m = .ok v mid ∧
      m' = { mid with pieces := ⟨.revtrace, s⟩ :: mid.pieces } := by
  obtain ⟨⟨tag, target, e⟩, _, hparts, hrest⟩ := bind_eq_ok.1 h
  obtain ⟨ht, rfl⟩ := ofExcept_eq_ok.1 hparts
  obtain ⟨v, mid, he, hnamed⟩ := bind_eq_ok.1 hrest
  obtain ⟨name, _, hn, hlooked⟩ := bind_eq_ok.1 hnamed
  obtain ⟨-, rfl⟩ := ofExcept_eq_ok.1 hn
  rw [bind_of_ok (get_apply _), bind_of_ok (view_apply ..)] at hlooked
  obtain ⟨old, _, ho, htold⟩ := bind_eq_ok.1 hlooked
  obtain ⟨-, rfl⟩ := ofExcept_eq_ok.1 ho
  cases hold : old.filter fun v => !v.isNone with
  | some former =>
    rw [hold] at htold
    obtain ⟨_, _, hs, hformer⟩ := bind_eq_ok.1 htold
    obtain rfl := shown_eq_ok hs
    obtain ⟨_, _, hs', hput⟩ := bind_eq_ok.1 hformer
    obtain rfl := shown_eq_ok hs'
    cases hput
    exact ⟨tag, target, e, v, _, _, ht, he, rfl⟩
  | none =>
    rw [hold] at htold
    obtain ⟨_, _, hs, hput⟩ := bind_eq_ok.1 htold
    obtain rfl := shown_eq_ok hs
    cases hput
    exact ⟨tag, target, e, v, _, _, ht, he, rfl⟩

/-- A calm counting loop extends no list, so it goes on with a sum. -/
theorem advance_calm {u step w : Value} (h : advance (guarded calm) u step m = .ok w m') :
    m' = m ∧ (∀ i us, u ≠ .list i us) ∧ u.add m.lists m.lists.next step = .ok w := by
  have hlist : ∀ i us, u ≠ .list i us := by
    rintro i us rfl
    obtain ⟨_, _, hwatch, -⟩ := bind_eq_ok.1 h
    exact absurd (guarded_eq_ok.1 hwatch).1 Bool.false_ne_true
  have hwatch : watchExtension (guarded calm) u m = .ok () m := by
    cases u with
    | list i us => exact absurd rfl (hlist i us)
    | _ => rfl
  rw [advance, bind_of_ok hwatch, bind_of_ok (get_apply m)] at h
  obtain ⟨⟨v, l⟩, _, ha, h⟩ := bind_eq_ok.1 h
  obtain ⟨ha, rfl⟩ := ofExcept_eq_ok.1 ha
  obtain ⟨rfl, hadd⟩ := Value.add_of_advance hlist ha
  cases h
  exact ⟨rfl, hlist, hadd⟩

end Exec

/-! ## Two machines that agree -/

namespace Pair

/-- What stands in the two machines does not mean two different things. -/
structure Alike (W : Pair) (u v : Value) : Prop where
  left : W.left.Holds W.leftReg u
  right : W.right.Holds W.rightReg v
  worth : ∀ {d d' a b}, W.left.worth d u = some a → W.right.worth d' v = some b → a = b

/-- Two changes at one time.  By both of them something is put back or by none. -/
structure SameChange (W : Pair) (a b : Change Value) : Prop where
  time : a.time = b.time
  isNone : a.old.isNone = b.old.isNone
  old : W.Alike a.old b.old

variable {W : Pair} {m m' : Machine} {reg reg' : Nat → List Value}

/-- Values of the same shape mean the same. -/
theorem Twin.alike {u v : Value} (h : W.Twin u v) : W.Alike u v where
  left := .inl h.left
  right := .inl h.right
  worth ha hb := by
    rw [← Exec.shape_of_worth h.left ha, ← Exec.shape_of_worth h.right hb, h.shape]

section

variable (hl : W.left.Steady W.leftReg reg m) (hr : W.right.Steady W.rightReg reg' m')
include hl hr

theorem le_of_steady : W.Le ⟨m, m', reg, reg'⟩ :=
  ⟨hl.conforms, hr.conforms⟩

/-- Values that are alike go on to be alike. -/
theorem Alike.steady {u v : Value} (h : W.Alike u v) : Alike ⟨m, m', reg, reg'⟩ u v where
  left := hl.holds h.left
  right := hr.holds h.right
  worth ha hb := by
    obtain ⟨_, ha'⟩ := hl.worth h.left ha
    obtain ⟨_, hb'⟩ := hr.worth h.right hb
    exact h.worth ha' hb'

theorem rel_steady {u v : Option Value} (h : Option.Rel W.Alike u v) :
    Option.Rel (Alike ⟨m, m', reg, reg'⟩) u v := by
  cases h with
  | some huv => exact .some (huv.steady hl hr)
  | none => exact .none

theorem SameChange.steady {a b : Change Value} (h : W.SameChange a b) :
    SameChange ⟨m, m', reg, reg'⟩ a b :=
  ⟨h.time, h.isNone, h.old.steady hl hr⟩

end

end Pair

/-- The machines have bindings and histories that do not mean different things, and the same lines
are printed. -/
structure Agrees (W : Pair) : Prop where
  fit : W.Fit
  bound : ∀ name, Option.Rel W.Alike (W.left.lookup name) (W.right.lookup name)
  recorded : ∀ name,
    List.Forall₂ W.SameChange (W.left.history.of name) (W.right.history.of name)
  clock : W.left.clock = W.right.clock
  pruned : W.left.history.lastPruned = W.right.history.lastPruned
  printed : W.left.printed = W.right.printed

open Exec

namespace Agrees

variable {W : Pair} {m m' : Machine} {reg reg' : Nat → List Value} {α β : Type}

/-- What is alike stays alike where both sides are steady. -/
theorem of_steady (hfit : Pair.Fit ⟨m, m', reg, reg'⟩)
    (hl : W.left.Steady W.leftReg reg m) (hr : W.right.Steady W.rightReg reg' m')
    (hbound : ∀ name, Option.Rel W.Alike (m.lookup name) (m'.lookup name))
    (hrecorded : ∀ name, List.Forall₂ W.SameChange (m.history.of name) (m'.history.of name))
    (hclock : m.clock = m'.clock) (hpruned : m.history.lastPruned = m'.history.lastPruned)
    (hprinted : m.printed = m'.printed) : Agrees ⟨m, m', reg, reg'⟩ where
  fit := hfit
  bound name := Pair.rel_steady hl hr (hbound name)
  recorded name := (hrecorded name).imp fun _ _ hc => hc.steady hl hr
  clock := hclock
  pruned := hpruned
  printed := hprinted

variable (h : Agrees W)
include h

/-- Names do not mean different things on the two sides. -/
theorem names {name : Name} {d d' : Nat} {a b : Value}
    (ha : W.left.names (W.left.thunks d) name = some a)
    (hb : W.right.names (W.right.thunks d') name = some b) : a = b := by
  rw [Machine.names] at ha hb
  have hbound := h.bound name
  generalize W.left.lookup name = u at ha hbound
  generalize W.right.lookup name = v at hb hbound
  cases hbound with
  | some huv => exact huv.worth ha hb
  | none =>
    cases ha
    cases hb
    rfl

/-- Expressions do not mean different things on the two sides. -/
theorem means {e : Tree} {d d' : Nat} {a b : Value} (ha : W.left.means d e = some a)
    (hb : W.right.means d' e = some b) : a = b :=
  Tree.meaning_unique (fun _ _ _ ha hb => h.names ha hb) ha hb

/-- Steps of the two sides that are of no account for each other. -/
theorem goes (hl : W.left.Goes W.leftReg reg m) (hr : W.right.Goes W.rightReg reg' m') :
    Agrees ⟨m, m', reg, reg'⟩ := by
  refine of_steady ⟨hl.fit, hr.fit⟩ hl.steady hr.steady ?_ ?_ ?_ ?_ ?_
  · intro name
    rw [hl.lookup, hr.lookup]
    exact h.bound name
  · rw [hl.history, hr.history]
    exact h.recorded
  · rw [hl.clock, hr.clock, h.clock]
  · rw [hl.history, hr.history, h.pruned]
  · rw [Machine.printed, Machine.printed, hl.pieces, hr.pieces]
    exact h.printed

theorem follows_of_goes {x : Exec α} {y : Exec β} {Q : Pair → α → β → Prop}
    (hboth : ∀ a m b m', x W.left = .ok a m → y W.right = .ok b m' →
      ∃ reg reg', W.left.Goes W.leftReg reg m ∧ W.right.Goes W.rightReg reg' m' ∧
        Q ⟨m, m', reg, reg'⟩ a b) : Follows (fun _ => True) Agrees W x y Q := by
  refine follows_of_both fun a m b m' hx hy => ?_
  obtain ⟨reg, reg', hl, hr, hQ⟩ := hboth a m b m' hx hy
  exact ⟨reg, reg', Pair.le_of_steady hl.steady hr.steady, h.goes hl hr, hQ⟩

/-- Two values are found on the two sides; if they are meanings of one thing, they are twins. -/
theorem finds {x y : Exec Value} {f g : Machine → Nat → Option Value}
    (hx : Finds x f) (hy : Finds y g)
    (hunique : ∀ {d d' a b}, f W.left d = some a → g W.right d' = some b → a = b) :
    Follows (fun _ => True) Agrees W x y Pair.Twin := by
  refine h.follows_of_goes fun a m b m' ha hb => ?_
  obtain ⟨reg, hl, hconforms, k, hk⟩ := hx.found h.fit.left ha
  obtain ⟨reg', hr, hconforms', k', hk'⟩ := hy.found h.fit.right hb
  exact ⟨reg, reg', hl.goes, hr.goes, hconforms, hconforms', hunique hk hk'⟩

theorem valueOfName (name : Name) : Follows (fun _ => True) Agrees W
    (valueOfName name) (valueOfName name) Pair.Twin :=
  h.finds (valueOfName_finds name) (valueOfName_finds name) fun ha hb => h.names ha hb

theorem evaluate (e : Tree) : Follows (fun _ => True) Agrees W
    (evaluateWatched (guarded calm) e) (evaluateWatched (guarded calm) e) Pair.Twin := by
  have hfinds : Finds (evaluateWatched (guarded calm) e) fun m k => m.means k e :=
    ⟨fun hm he => (evaluate_finds e).found hm (evaluateWatched_guarded_eq_ok.1 he).2⟩
  exact h.finds hfinds hfinds fun ha hb => h.means ha hb

/-! ## Bindings -/

/-- A name may be bound to what is alike, if no thunk waits for it. -/
theorem binds {name : Name} {u v : Value} (hl : W.left.Binds name u m)
    (hr : W.right.Binds name v m') (hfree : W.left.Frees name) (hfree' : W.right.Frees name)
    (huv : W.Alike u v) (hfit : Pair.Fit ⟨m, m', W.leftReg, W.rightReg⟩)
    (hrecorded : ∀ other, List.Forall₂ W.SameChange (m.history.of other) (m'.history.of other))
    (hclock : m.clock = m'.clock) (hpruned : m.history.lastPruned = m'.history.lastPruned) :
    Agrees ⟨m, m', W.leftReg, W.rightReg⟩ := by
  refine of_steady hfit (hl.steady hfree) (hr.steady hfree') ?_ hrecorded hclock hpruned ?_
  · intro other
    rw [hl.lookup, hr.lookup]
    split
    · exact .some huv
    · exact h.bound other
  · rw [Machine.printed, Machine.printed, hl.pieces, hr.pieces]
    exact h.printed

theorem bindWatched {name : Name} {u v : Value} (huv : W.Alike u v) :
    Follows (fun _ => True) Agrees W (bindWatched (guarded calm) name u)
      (bindWatched (guarded calm) name v) fun _ _ _ => True := by
  refine follows_of_both fun _ m _ m' hm hm' => ?_
  obtain ⟨hwatch, rfl⟩ := bindWatched_binds (silent_guarded _) hm
  obtain ⟨hwatch', rfl⟩ := bindWatched_binds (silent_guarded _) hm'
  have hfree := Machine.frees_of_calm (guarded_eq_ok.1 hwatch).1 rfl rfl
  have hfree' := Machine.frees_of_calm (guarded_eq_ok.1 hwatch').1 rfl rfl
  have hl : W.left.Binds name u { W.left with bindings := W.left.bindings.insert name u } :=
    ⟨rfl, rfl, rfl, rfl, rfl⟩
  have hr : W.right.Binds name v { W.right with bindings := W.right.bindings.insert name v } :=
    ⟨rfl, rfl, rfl, rfl, rfl⟩
  have hle := Pair.le_of_steady (hl.steady hfree) (hr.steady hfree')
  refine ⟨W.leftReg, W.rightReg, hle, ?_, trivial⟩
  refine h.binds hl hr hfree hfree' huv ⟨?_, ?_⟩ h.recorded h.clock h.pruned
  · exact h.fit.left.binds hl huv.left h.fit.left.recorded
  · exact h.fit.right.binds hr huv.right h.fit.right.recorded

/-- What a name is bound to may be recorded before it is bound anew. -/
theorem sameChange_old {name : Name} {time time' : Int} (htime : time = time')
    (hfree : W.left.Frees name) (hfree' : W.right.Frees name) :
    W.SameChange ⟨(W.left.lookup name).getD .none, time⟩
      ⟨(W.right.lookup name).getD .none, time'⟩ := by
  have hbound := h.bound name
  have hsome := @hfree.something
  have hsome' := @hfree'.something
  generalize W.left.lookup name = u at hbound hsome
  generalize W.right.lookup name = v at hbound hsome'
  cases hbound with
  | some huv => exact ⟨htime, (hsome rfl).trans (hsome' rfl).symm, huv⟩
  | none => exact ⟨htime, rfl, Pair.Twin.alike ⟨trivial, trivial, rfl⟩⟩

theorem recorded_push {name : Name} {old old' : Value} {time time' : Int}
    (hchange : W.SameChange ⟨old, time⟩ ⟨old', time'⟩) (other : Name) :
    List.Forall₂ W.SameChange ((W.left.history.push name old time).of other)
      ((W.right.history.push name old' time').of other) := by
  rw [History.of_push, History.of_push]
  split
  · exact .cons hchange (h.recorded other)
  · exact h.recorded other

/-- Both sides record what they had, and bind. -/
theorem replace {name : Name} {u v : Value} (huv : W.Alike u v) :
    Follows (fun _ => True) Agrees W (replace (guarded calm) name u)
      (replace (guarded calm) name v) fun _ _ _ => True := by
  refine follows_of_both fun _ m _ m' hm hm' => ?_
  obtain ⟨hl, hclock, hhistory, mid, hb, hh, hwatch⟩ := replace_binds (silent_guarded _) hm
  obtain ⟨hr, hclock', hhistory', mid', hb', hh', hwatch'⟩ := replace_binds (silent_guarded _) hm'
  have hfree := Machine.frees_of_calm (guarded_eq_ok.1 hwatch).1 hb hh
  have hfree' := Machine.frees_of_calm (guarded_eq_ok.1 hwatch').1 hb' hh'
  have hle := Pair.le_of_steady (hl.steady hfree) (hr.steady hfree')
  refine ⟨W.leftReg, W.rightReg, hle, ?_, trivial⟩
  refine h.binds hl hr hfree hfree' huv ⟨?_, ?_⟩ ?_ ?_ ?_
  · refine h.fit.left.binds hl huv.left fun hc => ?_
    exact h.fit.left.recorded_push (h.fit.left.lookup_getD name) (hhistory ▸ hc)
  · refine h.fit.right.binds hr huv.right fun hc => ?_
    exact h.fit.right.recorded_push (h.fit.right.lookup_getD name) (hhistory' ▸ hc)
  · rw [hhistory, hhistory']
    exact h.recorded_push (h.sameChange_old (by rw [h.clock]) hfree hfree')
  · rw [hclock, hclock', h.clock]
  · rw [hhistory, hhistory']
    exact h.pruned

/-! ## What is counted, charged, recorded and written -/

/-- A step that counts or charges something. -/
theorem idle {x y : Exec Unit}
    (hx : ∀ {m}, x W.left = .ok () m → W.left.SameStore m ∧ m.history = W.left.history ∧
      m.clock = W.left.clock ∧ m.pieces = W.left.pieces)
    (hy : ∀ {m}, y W.right = .ok () m → W.right.SameStore m ∧ m.history = W.right.history ∧
      m.clock = W.right.clock ∧ m.pieces = W.right.pieces) :
    Follows (fun _ => True) Agrees W x y fun _ _ _ => True := by
  refine h.follows_of_goes fun _ m _ m' hm hm' => ?_
  obtain ⟨hl, hhistory, hclock, hpieces⟩ := hx hm
  obtain ⟨hr, hhistory', hclock', hpieces'⟩ := hy hm'
  exact ⟨W.leftReg, W.rightReg, h.fit.left.goes hl hhistory hclock hpieces,
    h.fit.right.goes hr hhistory' hclock' hpieces', trivial⟩

/-- Something was recorded or written, and the two sides agree on it. -/
theorem sameStore (hl : W.left.SameStore m) (hr : W.right.SameStore m')
    (hfit : Pair.Fit ⟨m, m', W.leftReg, W.rightReg⟩)
    (hrecorded : ∀ name, List.Forall₂ W.SameChange (m.history.of name) (m'.history.of name))
    (hclock : m.clock = m'.clock) (hpruned : m.history.lastPruned = m'.history.lastPruned)
    (hprinted : m.printed = m'.printed) : Agrees ⟨m, m', W.leftReg, W.rightReg⟩ := by
  refine of_steady hfit hl.steady hr.steady (fun name => ?_) hrecorded hclock hpruned hprinted
  rw [hl.lookup, hr.lookup]
  exact h.bound name

theorem write {piece piece' : Piece}
    (hprinted : Machine.printed { W.left with pieces := piece :: W.left.pieces } =
      Machine.printed { W.right with pieces := piece' :: W.right.pieces }) :
    Agrees ⟨{ W.left with pieces := piece :: W.left.pieces },
      { W.right with pieces := piece' :: W.right.pieces }, W.leftReg, W.rightReg⟩ := by
  have hl : W.left.SameStore { W.left with pieces := piece :: W.left.pieces } :=
    ⟨rfl, rfl, rfl, rfl⟩
  have hr : W.right.SameStore { W.right with pieces := piece' :: W.right.pieces } :=
    ⟨rfl, rfl, rfl, rfl⟩
  refine h.sameStore hl hr ⟨?_, ?_⟩ h.recorded h.clock h.pruned hprinted
  · exact h.fit.left.sameStore hl h.fit.left.recorded
  · exact h.fit.right.sameStore hr h.fit.right.recorded

theorem put (writer : Writer) (s : String) : Follows (fun _ => True) Agrees W
    (put writer s) (put writer s) fun _ _ _ => True := by
  refine follows_of_both fun _ m _ m' hm hm' => ?_
  cases hm
  cases hm'
  have hprinted := Machine.printed_cons h.printed ⟨writer, s⟩
  exact ⟨W.leftReg, W.rightReg, ⟨fun hv => hv, fun hv => hv⟩, h.write hprinted, trivial⟩

theorem prune : Follows (fun _ => True) Agrees W prune prune fun _ _ _ => True := by
  refine follows_of_both fun _ m _ m' hm hm' => ?_
  obtain ⟨_, hm1, hl, hclock, hhistory, hprinted⟩ := prune_ok W.left
  cases hm1.symm.trans hm
  obtain ⟨_, hm1', hr, hclock', hhistory', hprinted'⟩ := prune_ok W.right
  cases hm1'.symm.trans hm'
  refine ⟨W.leftReg, W.rightReg, Pair.le_of_steady hl.steady hr.steady, ?_, trivial⟩
  refine h.sameStore hl hr ⟨?_, ?_⟩ (fun name => ?_) ?_ ?_ ?_
  · exact h.fit.left.sameStore hl fun hc => h.fit.left.recorded_prune (hhistory ▸ hc)
  · exact h.fit.right.sameStore hr fun hc => h.fit.right.recorded_prune (hhistory' ▸ hc)
  · rw [hhistory, hhistory', History.of_prune, History.of_prune, h.clock, h.pruned]
    split
    · refine List.rel_filter (fun a b hab => ?_) (h.recorded name)
      simp only [hab.time]
    · exact h.recorded name
  · rw [hclock, hclock', h.clock]
  · rw [hhistory, hhistory', History.lastPruned_prune, History.lastPruned_prune, h.clock, h.pruned]
  · rw [hprinted, hprinted', h.printed]

theorem remember {name : Name} {u v : Value} (huv : W.Twin u v) :
    Follows (fun _ => True) Agrees W (remember name u) (remember name v) fun _ _ _ => True := by
  refine follows_of_both fun _ m _ m' hm hm' => ?_
  cases hm
  cases hm'
  have hl : W.left.SameStore { W.left with
      clock := W.left.clock.read.2
      history := W.left.history.push name u W.left.clock.read.1 } := ⟨rfl, rfl, rfl, rfl⟩
  have hr : W.right.SameStore { W.right with
      clock := W.right.clock.read.2
      history := W.right.history.push name v W.right.clock.read.1 } := ⟨rfl, rfl, rfl, rfl⟩
  have hisNone : u.isNone = v.isNone := by
    rw [← Value.isNone_shape u, ← Value.isNone_shape v, huv.shape]
  refine ⟨W.leftReg, W.rightReg, Pair.le_of_steady hl.steady hr.steady, ?_, trivial⟩
  refine h.sameStore hl hr ⟨?_, ?_⟩ ?_ (congrArg (·.read.2) h.clock) h.pruned h.printed
  · exact h.fit.left.sameStore hl fun hc => h.fit.left.recorded_push (.inl huv.left) hc
  · exact h.fit.right.sameStore hr fun hc => h.fit.right.recorded_push (.inl huv.right) hc
  · exact h.recorded_push ⟨congrArg (·.read.1) h.clock, hisNone, huv.alike⟩

/-! ## Statements without blocks -/

theorem assign (t : Tree) : Follows (fun _ => True) Agrees W (assign (guarded calm) t)
    (assign (guarded calm) t) fun _ _ _ => True := by
  have hcount : Follows (fun _ => True) Agrees W countAssignment countAssignment
      fun _ _ _ => True := by
    refine h.idle (fun hm => ?_) fun hm => ?_
    · cases hm
      exact ⟨⟨rfl, rfl, rfl, rfl⟩, rfl, rfl, rfl⟩
    · cases hm
      exact ⟨⟨rfl, rfl, rfl, rfl⟩, rfl, rfl, rfl⟩
  refine follows_bind hcount fun W1 _ h1 _ _ _ => ?_
  refine follows_ofExcept_bind fun (tag, target, e) _ => ?_
  refine follows_ofExcept_bind fun name _ => ?_
  refine follows_bind (Q := Pair.Alike) ?_ fun W2 _ h2 u v huv => h2.replace huv
  refine h1.follows_of_goes fun u m v m' hu hv => ?_
  obtain ⟨reg, hl, hholds, hworth⟩ := valueFor_goes h1.fit.left hu
  obtain ⟨reg', hr, hholds', hworth'⟩ := valueFor_goes h1.fit.right hv
  refine ⟨reg, reg', hl, hr, hholds, hholds', fun ha hb => ?_⟩
  obtain ⟨k, hk⟩ := hworth ha
  obtain ⟨k', hk'⟩ := hworth' hb
  exact h1.means hk hk'

/-- A value that conforms is no thunk. -/
theorem resolve_twin {u v : Value} (huv : W.Twin u v) : Follows (fun _ => True) Agrees W
    (resolve force u) (resolve force v) Pair.Twin := by
  have hpure {reg : Nat → List Value} {next : Nat} {w : Value} (hw : w.Conforms reg next) :
      resolve force w = pure w := by
    cases w with
    | thunk id => cases hw
    | _ => rfl
  rw [hpure huv.left, hpure huv.right]
  exact follows_pure h huv

theorem compound (op : Compound) (t : Tree) : Follows (fun _ => True) Agrees W
    (compound (guarded calm) op t) (compound (guarded calm) op t) fun _ _ _ => True := by
  refine follows_ofExcept_bind fun (tag, target, e) _ => ?_
  refine follows_ofExcept_bind fun name _ => ?_
  refine follows_bind (h.valueOfName name) fun W1 _ h1 current current' hcurrent => ?_
  refine follows_bind (h1.evaluate e) fun W2 hle2 h2 found found' hfound => ?_
  refine follows_bind (h2.resolve_twin hfound) fun W3 hle3 h3 operand operand' hoperand => ?_
  have hcurrent3 := (hcurrent.mono hle2).mono hle3
  refine follows_bind (h3.remember hcurrent3) fun W4 _ h4 _ _ _ => ?_
  have hwhole {W : Pair} {u v : Value} (huv : W.Twin u v) : u.whole? = v.whole? := by
    rw [← Value.whole?_shape u, ← Value.whole?_shape v, huv.shape]
  rw [hwhole hcurrent, hwhole hoperand]
  cases current'.whole? with
  | none => exact follows_throw
  | some a =>
    cases operand'.whole? with
    | none => exact follows_throw
    | some b =>
      refine follows_bind (Q := Pair.Alike) ?_ fun W5 _ h5 u v huv => h5.bindWatched huv
      refine h4.follows_of_goes fun u m v m' hu hv => ?_
      obtain ⟨hl, hholds, hworth⟩ := wordFor_goes h4.fit.left hu
      obtain ⟨hr, hholds', hworth'⟩ := wordFor_goes h4.fit.right hv
      refine ⟨_, _, hl, hr, hholds, hholds', fun ha hb => ?_⟩
      rw [hworth ha, hworth' hb]

theorem recorded_pop (name other : Name) : List.Forall₂ W.SameChange
    ((W.left.history.pop name).2.of other) ((W.right.history.pop name).2.of other) := by
  have htail {xs ys : List (Change Value)} (hxy : List.Forall₂ W.SameChange xs ys) :
      List.Forall₂ W.SameChange xs.tail ys.tail := by
    cases hxy with
    | nil => exact .nil
    | cons _ hrest => exact hrest
  rw [History.of_pop, History.of_pop]
  split
  · exact htail (h.recorded other)
  · exact h.recorded other

/-- The latest changes are taken back on both sides, or there are none. -/
theorem takeBack (name : Name) : Follows (fun _ => True) Agrees W (takeBack name) (takeBack name)
    fun W => Option.Rel fun u v => u.isNone = v.isNone ∧ W.Alike u v := by
  refine follows_of_both fun a m b m' hm hm' => ?_
  rw [takeBack_apply] at hm hm'
  obtain ⟨rfl, rfl⟩ := EStateM.Result.ok.inj hm
  obtain ⟨rfl, rfl⟩ := EStateM.Result.ok.inj hm'
  have hl : W.left.SameStore { W.left with history := (W.left.history.pop name).2 } :=
    ⟨rfl, rfl, rfl, rfl⟩
  have hr : W.right.SameStore { W.right with history := (W.right.history.pop name).2 } :=
    ⟨rfl, rfl, rfl, rfl⟩
  refine ⟨W.leftReg, W.rightReg, Pair.le_of_steady hl.steady hr.steady, ?_, ?_⟩
  · refine h.sameStore hl hr ⟨?_, ?_⟩ (h.recorded_pop name) h.clock ?_ h.printed
    · exact h.fit.left.sameStore hl h.fit.left.recorded_pop
    · exact h.fit.right.sameStore hr h.fit.right.recorded_pop
    · exact (History.lastPruned_pop ..).trans (h.pruned.trans (History.lastPruned_pop ..).symm)
  · rw [History.pop_fst, History.pop_fst]
    have hrecorded := h.recorded name
    generalize W.left.history.of name = xs at hrecorded
    generalize W.right.history.of name = ys at hrecorded
    cases hrecorded with
    | nil => exact .none
    | cons hchange _ => exact .some ⟨hchange.isNone, hchange.old.steady hl.steady hr.steady⟩

/-- A charge changes nothing but the account. -/
theorem recharge (u v : Value) : Follows (fun _ => True) Agrees W
    (do credit u; charge u : Exec Unit) (do credit v; charge v : Exec Unit) fun _ _ _ => True := by
  have hidle {w : Value} {m m' : Machine} (hm : (do credit w; charge w : Exec Unit) m = .ok () m') :
      m.SameStore m' ∧ m'.history = m.history ∧ m'.clock = m.clock ∧ m'.pieces = m.pieces := by
    rcases recharge_ok w m with ⟨memory, hr⟩ | ⟨_, hr⟩
    · cases hr.symm.trans hm
      exact ⟨⟨rfl, rfl, rfl, rfl⟩, rfl, rfl, rfl⟩
    · cases hr.symm.trans hm
  exact h.idle hidle hidle

/-- Nothing is put back on both sides or on neither. -/
theorem putBack {name : Name} {u v : Value} (hisNone : u.isNone = v.isNone) (huv : W.Alike u v) :
    Follows (fun _ => True) Agrees W (putBack (guarded calm) name u)
      (putBack (guarded calm) name v) fun _ _ _ => True := by
  rw [Exec.putBack, Exec.putBack, hisNone]
  refine follows_ite (fun _ => ?_) fun _ => follows_pure h trivial
  exact follows_bind (h.bindWatched huv) fun W1 _ h1 _ _ _ => h1.recharge u v

theorem reverse (t : Tree) : Follows (fun _ => True) Agrees W (reverse (guarded calm) t)
    (reverse (guarded calm) t) fun _ _ _ => True := by
  have hcount : Follows (fun _ => True) Agrees W countReversal countReversal
      fun _ _ _ => True := by
    refine h.idle (fun hm => ?_) fun hm => ?_
    · cases hm
      exact ⟨⟨rfl, rfl, rfl, rfl⟩, rfl, rfl, rfl⟩
    · cases hm
      exact ⟨⟨rfl, rfl, rfl, rfl⟩, rfl, rfl, rfl⟩
  refine follows_bind hcount fun W1 _ h1 _ _ _ => ?_
  refine follows_ofExcept_bind fun (tag, target) _ => ?_
  refine follows_ofExcept_bind fun name _ => ?_
  refine follows_bind (h1.takeBack name) fun W2 _ h2 old old' hold => ?_
  cases hold with
  | none => exact follows_pure h2 trivial
  | some huv => exact h2.putBack huv.1 huv.2

/-- What a `revtrace` writes may differ, since it shows thunks that wait as they are; but it is not
printed. -/
theorem revtrace (t : Tree) : Follows (fun _ => True) Agrees W (revtrace (guarded calm) t)
    (revtrace (guarded calm) t) fun _ _ _ => True := by
  refine follows_of_both fun _ m _ m' hm hm' => ?_
  obtain ⟨tag, target, e, v, mid, s, ht, he, rfl⟩ := revtrace_writes hm
  obtain ⟨_, _, _, v', mid', s', ht', he', rfl⟩ := revtrace_writes hm'
  cases ht.symm.trans ht'
  rcases h.evaluate e v mid he with ⟨_, _, reg, reg', hright, hle, h1, -⟩ | ⟨_, _, -, hright⟩
  · cases hright.symm.trans he'
    exact ⟨reg, reg', ⟨hle.left, hle.right⟩, h1.write h1.printed, trivial⟩
  · cases hright.symm.trans he'

/-! ## Loops -/

/-- The sums of twins are twins, if no list comes about. -/
theorem add_twin {u u' v v' w w' : Value} {new new' : Nat} (huv : W.Twin u v)
    (huv' : W.Twin u' v') (hlists : ∀ i us j vs, u = .list i us → u' ≠ .list j vs)
    (hlists' : ∀ i us j vs, v = .list i us → v' ≠ .list j vs)
    (hw : u.add W.left.lists new u' = .ok w) (hw' : v.add W.right.lists new' v' = .ok w') :
    W.Twin w w' where
  left := Value.add_conforms huv.left huv'.left hlists hw
  right := Value.add_conforms huv.right huv'.right hlists' hw'
  shape := by
    have hl := Value.add_shape h.fit.left.fresh new u u'
    have hr := Value.add_shape h.fit.right.fresh new' v v'
    rw [hw, huv.shape, huv'.shape] at hl
    rw [hw'] at hr
    exact Except.ok.inj (hl.trans hr.symm)

theorem advance {u u' v v' : Value} (huv : W.Twin u v) (huv' : W.Twin u' v') :
    Follows (fun _ => True) Agrees W (advance (guarded calm) u u') (advance (guarded calm) v v')
      Pair.Twin := by
  refine h.follows_of_goes fun w m w' m' hm hm' => ?_
  obtain ⟨rfl, hlist, hadd⟩ := advance_calm hm
  obtain ⟨rfl, hlist', hadd'⟩ := advance_calm hm'
  refine ⟨W.leftReg, W.rightReg, h.fit.left.refl.goes, h.fit.right.refl.goes, ?_⟩
  exact h.add_twin huv huv' (fun i us _ _ hu => absurd hu (hlist i us))
    (fun i us _ _ hv => absurd hv (hlist' i us)) hadd hadd'

/-- A counter is evaluated as a piece of program.  That is the same piece on both sides, unless one
of them has a thunk there, which is not a piece of program. -/
theorem evaluate_binding (name : Name) : Follows (fun _ => True) Agrees W
    (evaluateWatched (guarded calm)
      (W.left.lists.view ((W.left.lookup name).getD .none)).toTree)
    (evaluateWatched (guarded calm)
      (W.right.lists.view ((W.right.lookup name).getD .none)).toTree) Pair.Twin := by
  have halike : W.Alike ((W.left.lookup name).getD .none) ((W.right.lookup name).getD .none) := by
    have hbound := h.bound name
    generalize W.left.lookup name = u at hbound ⊢
    generalize W.right.lookup name = v at hbound ⊢
    cases hbound with
    | some huv => exact huv
    | none => exact Pair.Twin.alike ⟨trivial, trivial, rfl⟩
  generalize (W.left.lookup name).getD .none = u at halike ⊢
  generalize (W.right.lookup name).getD .none = v at halike ⊢
  have hthunk {w : Machine} {reg : Nat → List Value} (hw : w.Fit reg) {id : Nat} {a : Value}
      {m : Machine} (ha : evaluateWatched (guarded calm) (.thunk id) w = .ok a m) : False := by
    obtain ⟨_, _, _, _, hk⟩ :=
      (evaluate_finds (.thunk id)).found hw (evaluateWatched_guarded_eq_ok.1 ha).2
    cases hk
  rcases halike.left with hu | ⟨id, -, rfl⟩
  · rcases halike.right with hv | ⟨id, -, rfl⟩
    · -- values that mean the same have the same shape, and with it the same tree
      have hshape : u.shape = v.shape := by
        have hworth {w : Machine} {reg : Nat → List Value} {next : Nat} {a : Value}
            (ha : a.Conforms reg next) : w.worth 0 a = some a.shape := by
          cases a with
          | thunk id => cases ha
          | _ => rfl
        exact halike.worth (hworth hu) (hworth hv)
      rw [Value.toTree_view h.fit.left.fresh hu, Value.toTree_view h.fit.right.fresh hv, hshape]
      exact h.evaluate _
    · exact follows_of_both fun _ _ _ _ _ hb => (hthunk h.fit.right hb).elim
  · exact follows_of_both fun _ _ _ _ ha _ => (hthunk h.fit.left ha).elim

theorem increment (counter : Tree) : Follows (fun _ => True) Agrees W
    (increment (guarded calm) counter) (increment (guarded calm) counter) fun _ _ _ => True := by
  refine follows_ofExcept_bind fun name _ => ?_
  refine follows_get_bind (follows_view_bind ?_)
  refine follows_bind (h.evaluate_binding name) fun W1 _ h1 u v huv => ?_
  refine follows_get_bind ?_
  refine follows_bind (Q := Pair.Twin) ?_ fun W2 _ h2 u v huv => h2.bindWatched huv.alike
  refine h1.follows_of_goes fun w m w' m' hm hm' => ?_
  obtain ⟨hadd, rfl⟩ := ofExcept_eq_ok.1 hm
  obtain ⟨hadd', rfl⟩ := ofExcept_eq_ok.1 hm'
  refine ⟨W1.leftReg, W1.rightReg, h1.fit.left.refl.goes, h1.fit.right.refl.goes, ?_⟩
  have hone : W1.Twin (.int 1) (.int 1) := ⟨trivial, trivial, rfl⟩
  exact h1.add_twin huv hone (fun _ _ _ _ _ => nofun) (fun _ _ _ _ _ => nofun) hadd hadd'

end Agrees

/-- Statements of every form are followed. -/
theorem pairing_agrees : Pairing (guarded calm) (guarded calm) (fun _ => True) (fun _ => True)
    Agrees where
  inside _ _ _ := trivial
  fit h := h.fit
  put writer s h := h.put writer s
  prune h := h.prune
  evaluate e h := h.evaluate e
  assign t _ _ h := h.assign t
  compound op t _ _ h := h.compound op t
  reverse t _ _ h := h.reverse t
  revtrace t _ _ h := h.revtrace t
  drive _ _ _ _ _ _ _ _ h huv := h.bindWatched huv.alike
  increment _ counter _ _ h := h.increment counter
  advance _ _ _ _ _ _ _ h huv huv' := h.advance huv huv'

/-- New machines agree, whatever is eager. -/
theorem agrees_withEager (clock : Clock) (eager eager' : List String) :
    Agrees ⟨.withEager clock eager, .withEager clock eager', fun _ => [], fun _ => []⟩ :=
  ⟨⟨Machine.fit_withEager clock eager, Machine.fit_withEager clock eager'⟩, fun _ => .none,
    fun _ => .nil, rfl, rfl, rfl⟩

/-- **Calm runs of a program print the same lines, whatever names are eager.**  Both runs come to
their ends, and in both of them no name is bound that a waiting thunk reads or that is bound to
nothing, and no list is extended in its place. -/
theorem same_lines_of_calm {n : Nat} {program : List Tree} {clock : Clock}
    {eager eager' : List String} {steps steps' : List Machine} {m m' : Machine}
    (hrun : Run.statements n program (.withEager clock eager) = (steps, none, m))
    (hrun' : Run.statements n program (.withEager clock eager') = (steps', none, m'))
    (hcalm : Run.Throughout calm n program (.withEager clock eager))
    (hcalm' : Run.Throughout calm n program (.withEager clock eager')) :
    m.printed = m'.printed := by
  have hstart := agrees_withEager clock eager eager'
  rcases pairing_agrees.statementsWatched n (fun _ _ => trivial) hstart (hcalm.trans hrun) with
    ⟨_, _, reg, reg', hright, hend⟩ | ⟨_, e, _, -, hright⟩
  · cases hright.symm.trans (hcalm'.trans hrun')
    exact hend.printed
  · cases hright.symm.trans (hcalm'.trans hrun')

namespace Calm

/-- `x = "a"`, `y = x`, `print(y)`, `x = "b"`, `print(x)`, `rev x`, `n = 2`, `n += 3` and
`if n > 4:` `print(x)` -/
def program : List Tree :=
  [.assign (.text "x") (.text "\"a\""), .assign (.text "y") (.text "x"), .print [.text "y"],
    .assign (.text "x") (.text "\"b\""), .print [.text "x"], .reverse (.text "x"),
    .assign (.text "n") (.int 2), .compound .plus (.text "n") (.int 3),
    .branch (.binary (.text "n") "gt" (.int 4)) [.print [.text "x"]] [] []]

-- a run and its guarded run are evaluated each on its own, and have the same end
theorem run_lazy : ∃ steps m,
    Run.statements 2 program (.withEager {} []) = (steps, none, m) ∧
    Run.statementsWatched (guarded calm) 2 program (.withEager {} []) = (steps, none, m) ∧
    m.printed = ["a\n", "b\n", "a\n"] :=
  ⟨_, _, by cbv, by cbv, by cbv⟩

theorem run_eager : ∃ steps m,
    Run.statements 2 program (.withEager {} ["x", "y"]) = (steps, none, m) ∧
    Run.statementsWatched (guarded calm) 2 program (.withEager {} ["x", "y"]) =
      (steps, none, m) :=
  ⟨_, _, by cbv, by cbv⟩

/-- `x = "a"`, `y = x`, `x = "b"` and `print(y)` -/
def stale : List Tree :=
  [.assign (.text "x") (.text "\"a\""), .assign (.text "y") (.text "x"),
    .assign (.text "x") (.text "\"b\""), .print [.text "y"]]

end Calm

theorem same_lines_of_calm_reversed : ∃ steps m steps' m',
    Run.statements 2 Calm.program (.withEager {} []) = (steps, none, m) ∧
    Run.statements 2 Calm.program (.withEager {} ["x", "y"]) = (steps', none, m') ∧
    Run.Throughout calm 2 Calm.program (.withEager {} []) ∧
    Run.Throughout calm 2 Calm.program (.withEager {} ["x", "y"]) ∧
    m.printed = ["a\n", "b\n", "a\n"] ∧ m.printed = m'.printed := by
  obtain ⟨steps, m, hrun, hwatched, hlines⟩ := Calm.run_lazy
  obtain ⟨steps', m', hrun', hwatched'⟩ := Calm.run_eager
  have hcalm : Run.Throughout calm 2 Calm.program (.withEager {} []) :=
    hwatched.trans hrun.symm
  have hcalm' : Run.Throughout calm 2 Calm.program (.withEager {} ["x", "y"]) :=
    hwatched'.trans hrun'.symm
  exact ⟨steps, m, steps', m', hrun, hrun', hcalm, hcalm', hlines,
    same_lines_of_calm hrun hrun' hcalm hcalm'⟩

/-- A name is bound that a waiting thunk reads: the thunk gives the new value, and an eager name has
the old one. -/
theorem stale_line_of_rebinding : ∃ steps m steps' m',
    Run.statements 1 Calm.stale (.withEager {} []) = (steps, none, m) ∧
    Run.statements 1 Calm.stale (.withEager {} ["x", "y"]) = (steps', none, m') ∧
    m.printed = ["b\n"] ∧ m'.printed = ["a\n"] :=
  ⟨_, _, _, _, by cbv, by cbv, by cbv, by cbv⟩

end Retrace
