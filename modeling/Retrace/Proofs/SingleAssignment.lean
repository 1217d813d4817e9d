import Retrace.Proofs.Guard
import Retrace.Proofs.Library
import Retrace.Proofs.Pairing

/-!
# Programs that bind each name once

A program of plain assignments, prints and branches is run with all its variables eager.  If no name
is bound twice, and none is read before it is bound, then any other choice of eager names gives the
same lines: it makes no difference whether an expression is evaluated when it is assigned or later,
since nothing that it reads changes in between.

On the left runs the program with all variables eager, and on the right with any of them.  The names
are bound on both sides or on none, and on the right each means the value that it has on the left
(`Shadows`).  A thunk on the right that waits reads names that are bound.  A name that is not bound
yet is therefore read by no thunk, and binding it changes no meaning.

The left side leads: all conditions are on the run of the left side alone.  They are put on it by a
guard (`orderly`), which stops a binding of a name that is bound and an evaluation that reads one
that is not.  Of the right side nothing is assumed, not even that it comes to its end.  Loops are
left out, since what is bound in a pass is bound again in the next one.

The other half is that nothing new goes wrong on the right.  What a name means there it means within
the size of the heap: a new thunk depends on older ones only.  So everything that the left side can
evaluate is evaluated on the right side as well, and only the limit of the memory is left as a
fault.  What is charged for a thunk need not be what is charged for its value, so the right side may
exceed a limit that the left side keeps.

* `orderly`: what may happen on the left side.
* `Pair.Stands`: a value, and on the other side what means it within the size of the heap.
* `Shadows`: the invariant.
* `pairing_shadows`: statements keep it.
* `same_lines_of_single_assignment`: the result.
-/

set_option autoImplicit false

namespace Retrace

/-- An assignment to one of the given names, a print or a branch. -/
def Tree.isPlain (names : List String) (t : Tree) : Bool :=
  match t.form? with
  | some .assign =>
    match t.unpack3 with
    | .ok (_, .text s, _) => names.contains s
    | _ => false
  | some .print => true
  | some .branch => true
  | _ => false

/-- Only names that are bound are read, and only names that are not bound are bound. -/
def orderly : Exec.Event → Machine → Bool
  | .evaluation e, m => e.reads.all fun name => (m.lookup name).isSome
  | .binding name _, m => (m.lookup name).isNone
  | .extension _, _ => true

/-- On the right stands what means the value on the left, within the size of the heap. -/
structure Pair.Stands (W : Pair) (u v : Value) : Prop where
  conforms : u.Conforms W.leftReg W.left.lists.next
  holds : W.right.Holds W.rightReg v
  worth : W.right.worth W.right.heap.size v = some u.shape

/-- The machine on the right has what the one on the left has, worked out or not. -/
structure Shadows (names : List String) (W : Pair) : Prop where
  fit : W.Fit
  /-- On the left all names are eager. -/
  eager : W.left.profile.eager = names
  unbound : ∀ {name}, W.left.lookup name = none → W.right.lookup name = none
  /-- On the left there are values, and on the right what means them. -/
  bound : ∀ {name u}, W.left.lookup name = some u →
    ∃ v, W.right.lookup name = some v ∧ W.Stands u v
  texts : ∀ {name}, name ∈ W.right.bindings.keys → name.text?.isSome = true
  /-- What waits on the right reads names that are bound. -/
  waiting : ∀ {id : Nat} {e : Tree}, W.right.heap[id]? = some ⟨e, none⟩ →
    ∀ name ∈ e.reads, (W.right.lookup name).isSome = true
  printed : W.left.printed = W.right.printed

open Exec

namespace Pair

variable {W : Pair} {m m' : Machine} {reg reg' : Nat → List Value} {u v : Value}

/-- What stands for a value goes on to do so while values are looked at. -/
theorem Stands.later (h : W.Stands u v) (hl : W.left.Later W.leftReg reg m)
    (hr : W.right.Later W.rightReg reg' m') : Stands ⟨m, m', reg, reg'⟩ u v where
  conforms := hl.conforms h.conforms
  holds := h.holds.mono hr.registry hr.looks.next (Nat.le_of_eq hr.looks.heapSize.symm)
  worth := by
    show m'.worth m'.heap.size v = _
    rw [hr.looks.heapSize]
    exact Value.meaning_mono hr.keeps h.worth

theorem Twin.stands (h : W.Twin u v) : W.Stands u v where
  conforms := h.left
  holds := .inl h.right
  worth := by
    have hright := h.right
    cases v with
    | thunk id => cases hright
    | _ => exact congrArg some h.shape.symm

end Pair

namespace Shadows

variable {names : List String} {W : Pair} (h : Shadows names W)
include h

theorem isSome {name : Name} (hb : (W.left.lookup name).isSome = true) :
    (W.right.lookup name).isSome = true := by
  obtain ⟨u, hu⟩ := Option.isSome_iff_exists.1 hb
  obtain ⟨v, hv, -⟩ := h.bound hu
  rw [hv]
  rfl

/-- What means something on the left means the same on the right, if only names that are bound are
read. -/
theorem means {e : Tree} {k : Nat} {w : Value}
    (hbound : ∀ name ∈ e.reads, (W.left.lookup name).isSome = true)
    (hw : W.left.means k e = some w) : W.right.means W.right.heap.size e = some w := by
  refine Tree.meaning_mono (fun name hname a ha => ?_) hw
  obtain ⟨u, hu⟩ := Option.isSome_iff_exists.1 (hbound name hname)
  obtain ⟨v, hv, hstands⟩ := h.bound hu
  rw [Machine.names, hu] at ha
  rw [Machine.names, hv]
  refine hstands.worth.trans ?_
  have hconforms := hstands.conforms
  cases u with
  | thunk id => cases hconforms
  | _ => exact ha

/-- Looking at values on both sides changes nothing. -/
theorem later {m m' : Machine} {reg reg' : Nat → List Value}
    (hl : W.left.Later W.leftReg reg m) (hr : W.right.Later W.rightReg reg' m') :
    Shadows names ⟨m, m', reg, reg'⟩ where
  fit := ⟨hl.fit, hr.fit⟩
  eager := hl.looks.profile ▸ h.eager
  unbound {name} hn := by
    rw [hl.looks.lookup] at hn
    rw [hr.looks.lookup]
    exact h.unbound hn
  bound {name u} hu := by
    rw [hl.looks.lookup] at hu
    obtain ⟨v, hv, hstands⟩ := h.bound hu
    exact ⟨v, (hr.looks.lookup name).trans hv, hstands.later hl hr⟩
  texts {name} hname := by
    rw [hr.looks.bindings] at hname
    exact h.texts hname
  waiting {id e} ht name hname := by
    rw [hr.looks.lookup]
    exact h.waiting (hr.looks.waiting ht) name hname
  printed := by
    rw [Machine.printed, Machine.printed, hl.looks.pieces, hr.looks.pieces]
    exact h.printed

/-- What is evaluated on the left is evaluated on the right. -/
theorem evaluate (e : Tree) : Follows (· = .memoryExceeded) (Shadows names) W
    (evaluateWatched (guarded orderly) e) (evaluateWatched unwatched e) Pair.Twin := by
  intro a m ha
  obtain ⟨hallowed, ha⟩ := evaluateWatched_guarded_eq_ok.1 ha
  obtain ⟨reg, hl, hconforms, k, hk⟩ := (evaluate_finds e).found h.fit.left ha
  have hmeans := h.means (List.all_eq_true.1 hallowed) hk
  obtain ⟨b, m', hb⟩ := (evaluate_reaches e).reached h.fit.right hmeans
  obtain ⟨reg', hr, hconforms', k', hk'⟩ := (evaluate_finds e).found h.fit.right hb
  refine .inl ⟨b, m', reg, reg', hb, ⟨hl.conforms, hr.conforms⟩, h.later hl hr, ?_⟩
  exact ⟨hconforms, hconforms', Machine.means_unique hmeans hk'⟩

/-- A thunk on the right may stand for what was evaluated on the left. -/
theorem suspend {e : Tree} {k : Nat} {a v : Value} {m m' : Machine} {reg : Nat → List Value}
    (hbound : ∀ name ∈ e.reads, (W.left.lookup name).isSome = true)
    (hk : W.left.means k e = some a.shape) (ha : a.Conforms reg m.lists.next)
    (hl : W.left.Later W.leftReg reg m) (hs : suspend e W.right = .ok v m') :
    Shadows names ⟨m, m', reg, W.rightReg⟩ ∧ Pair.Stands ⟨m, m', reg, W.rightReg⟩ a v := by
  rw [suspend_apply] at hs
  obtain ⟨rfl, hm'⟩ := EStateM.Result.ok.inj hs
  have hlookup (name : Name) : m'.lookup name = W.right.lookup name := by rw [← hm']; rfl
  have hheap : m'.heap = W.right.heap.push { expression := e } := by rw [← hm']
  have hsize : m'.heap.size = W.right.heap.size + 1 := by rw [hheap, Array.size_push]
  have hids (name : Name) (id : Nat) (hv : W.right.lookup name = some (.thunk id)) :
      id < W.right.heap.size := h.fit.right.thunk_lt hv
  -- no name leads to the new thunk yet, so the others stand for what they stood for
  have hstands {u v : Value} (huv : W.Stands u v) :
      Pair.Stands ⟨m, m', reg, W.rightReg⟩ u v := by
    refine ⟨hl.conforms huv.conforms, ?_, ?_⟩
    · exact huv.holds.mono (fun _ _ => rfl) (Nat.le_of_eq (by rw [← hm']))
        (show W.right.heap.size ≤ m'.heap.size by omega)
    · show m'.worth m'.heap.size v = _
      have hworth := huv.worth
      cases v with
      | thunk id =>
        obtain ⟨_, hid, heq⟩ := huv.holds.resolve_left (fun hc => hc)
        cases heq
        show m'.thunks m'.heap.size id = _
        rw [Machine.thunks_push hlookup hheap hids hid]
        exact Machine.thunks_mono (by omega) hworth
      | _ => exact hworth
  refine ⟨⟨⟨hl.fit, hm' ▸ h.fit.right.push e⟩, hl.looks.profile ▸ h.eager, ?_, ?_, ?_, ?_, ?_⟩,
    ha, .inr ⟨_, show W.right.heap.size < m'.heap.size by omega, rfl⟩, ?_⟩
  · intro name hn
    rw [hl.looks.lookup] at hn
    exact (hlookup name).trans (h.unbound hn)
  · intro name u hu
    rw [hl.looks.lookup] at hu
    obtain ⟨v, hv, huv⟩ := h.bound hu
    exact ⟨v, (hlookup name).trans hv, hstands huv⟩
  · rw [← hm']
    exact h.texts
  · intro id e' ht name hname
    rw [hlookup]
    rw [hheap, Array.getElem?_push] at ht
    split at ht
    · cases ht
      exact h.isSome (hbound name hname)
    · exact h.waiting ht name hname
  · rw [Machine.printed, hl.looks.pieces, ← hm']
    exact h.printed
  · have hnew : m'.heap[W.right.heap.size]? = some ⟨e, none⟩ := by
      rw [hheap, Array.getElem?_push_size]
    show m'.thunks m'.heap.size W.right.heap.size = _
    rw [hsize, Machine.thunks_of_waiting hnew, Machine.means_push hlookup hheap hids]
    exact h.means hbound hk

/-- What a name is bound to on the right means what it is bound to on the left. -/
theorem valueFor {name : Name} {e : Tree} (hname : W.left.isEager name = true) :
    Follows (· = .memoryExceeded) (Shadows names) W (valueFor (guarded orderly) name e)
      (valueFor unwatched name e) Pair.Stands := by
  intro a m ha
  rw [valueFor_apply, if_pos hname] at ha
  rw [valueFor_apply]
  split
  · exact (h.evaluate e).imp (fun _ _ _ htwin => htwin.stands) a m ha
  · obtain ⟨hallowed, ha⟩ := evaluateWatched_guarded_eq_ok.1 ha
    obtain ⟨reg, hl, hconforms, k, hk⟩ := (evaluate_finds e).found h.fit.left ha
    have hs := suspend_apply e W.right
    obtain ⟨hS, hstands⟩ := h.suspend (List.all_eq_true.1 hallowed) hk hconforms hl hs
    exact .inl ⟨_, _, reg, W.rightReg, hs, ⟨hl.conforms, fun hv => hv⟩, hS, hstands⟩

/-- What is counted, charged, recorded and written makes no difference. -/
theorem sameStore {m m' : Machine} (hl : W.left.SameStore m) (hr : W.right.SameStore m')
    (hfit : Pair.Fit ⟨m, m', W.leftReg, W.rightReg⟩) (hprinted : m.printed = m'.printed) :
    Shadows names ⟨m, m', W.leftReg, W.rightReg⟩ where
  fit := hfit
  eager := hl.profile ▸ h.eager
  unbound {name} hn := (hr.lookup name).trans (h.unbound ((hl.lookup name).symm.trans hn))
  bound {name u} hu := by
    obtain ⟨v, hv, huv⟩ := h.bound ((hl.lookup name).symm.trans hu)
    refine ⟨v, (hr.lookup name).trans hv, hl.lists ▸ huv.conforms, ?_, ?_⟩
    · rw [Machine.Holds, hr.lists, hr.heap]
      exact huv.holds
    · show m'.worth m'.heap.size v = _
      rw [Machine.worth, funext (Machine.thunks_congr hr.lookup hr.heap _), hr.heap]
      exact huv.worth
  texts {name} hname := h.texts (hr.bindings ▸ hname)
  waiting {id e} ht name hname := by
    rw [hr.lookup]
    exact h.waiting (hr.heap ▸ ht) name hname
  printed := hprinted

/-- A name that is not bound yet may be bound, since no thunk reads it. -/
theorem binds {m m' : Machine} {name : Name} {u v : Value} (hname : W.left.lookup name = none)
    (htext : name.text?.isSome = true) (huv : W.Stands u v) (hl : W.left.Binds name u m)
    (hr : W.right.Binds name v m') (hfit : Pair.Fit ⟨m, m', W.leftReg, W.rightReg⟩) :
    Shadows names ⟨m, m', W.leftReg, W.rightReg⟩ := by
  have hreads (id : Nat) (e : Tree) (ht : W.right.heap[id]? = some ⟨e, none⟩) :
      ∀ other ∈ e.reads, (name == other) = false := by
    intro other hother
    refine Bool.eq_false_iff.2 fun heq => ?_
    have hsome := h.waiting ht other hother
    rw [← W.right.lookup_congr heq, h.unbound hname] at hsome
    cases hsome
  have hthunks : m'.thunks = W.right.thunks := by
    funext d id
    refine Machine.thunks_insert (fun other hother => ?_) hr.heap hreads d id
    rw [hr.lookup, hother]
    rfl
  have hstands {u v : Value} (huv : W.Stands u v) :
      Pair.Stands ⟨m, m', W.leftReg, W.rightReg⟩ u v := by
    refine ⟨hl.lists ▸ huv.conforms, ?_, ?_⟩
    · rw [Machine.Holds, hr.lists, hr.heap]
      exact huv.holds
    · show m'.worth m'.heap.size v = _
      rw [Machine.worth, hthunks, hr.heap]
      exact huv.worth
  constructor
  case fit => exact hfit
  case eager => exact hl.profile ▸ h.eager
  case unbound =>
    intro other hn
    rw [hl.lookup] at hn
    rw [hr.lookup]
    split at hn
    · cases hn
    · next hother => rw [if_neg hother, h.unbound hn]
  case bound =>
    intro other w hw
    rw [hl.lookup] at hw
    rw [hr.lookup]
    split at hw
    · next hother =>
      cases hw
      exact ⟨v, if_pos hother, hstands huv⟩
    · next hother =>
      obtain ⟨v', hv', huv'⟩ := h.bound hw
      exact ⟨v', (if_neg hother).trans hv', hstands huv'⟩
  case texts =>
    intro other hother
    rw [hr.bindings] at hother
    rcases Table.keys_insert hother with rfl | hother
    · exact htext
    · exact h.texts hother
  case waiting =>
    intro id e ht other hother
    rw [hr.lookup]
    split
    · rfl
    · exact h.waiting (hr.heap ▸ ht) other hother
  case printed =>
    rw [Machine.printed, Machine.printed, hl.pieces, hr.pieces]
    exact h.printed

/-- Texts find a place among texts. -/
theorem findPlace {name : Name} (htext : name.text?.isSome = true) :
    Name.findPlace W.right.bindings name = .ok () := by
  rw [Name.findPlace]
  split
  · rfl
  · next first _ _ hentries =>
    have hfirst : first ∈ W.right.bindings.keys := by
      rw [Table.keys, hentries]
      exact List.mem_cons_self ..
    rw [if_pos (by rw [h.texts hfirst, htext]; rfl)]

/-- A name is bound on both sides, if there is memory enough on the right. -/
theorem replace {name : Name} {u v : Value} (htext : name.text?.isSome = true)
    (huv : W.Stands u v) : Follows (· = .memoryExceeded) (Shadows names) W
      (replace (guarded orderly) name u) (replace unwatched name v) fun _ _ _ => True := by
  intro _ m hm
  obtain ⟨hl, -, hhistory, mid, hbindings, -, hwatch⟩ := replace_binds (silent_guarded _) hm
  have hname : W.left.lookup name = none := by
    have hallowed := (guarded_eq_ok.1 hwatch).1
    rw [orderly, Machine.lookup, hbindings, Option.isNone_iff_eq_none] at hallowed
    exact hallowed
  rcases replace_ok v (h.findPlace htext) with ⟨m', hm'⟩ | ⟨m', hm'⟩
  · obtain ⟨hr, -, hhistory', -⟩ := replace_binds silent_unwatched hm'
    have hfit : Pair.Fit ⟨m, m', W.leftReg, W.rightReg⟩ := by
      constructor
      · refine h.fit.left.binds hl (.inl huv.conforms) fun hc => ?_
        rw [hhistory] at hc
        exact h.fit.left.recorded_push (h.fit.left.lookup_getD name) hc
      · refine h.fit.right.binds hr huv.holds fun hc => ?_
        rw [hhistory'] at hc
        exact h.fit.right.recorded_push (h.fit.right.lookup_getD name) hc
    have hbinds := h.binds hname htext huv hl hr hfit
    refine .inl ⟨(), m', W.leftReg, W.rightReg, hm', ?_, hbinds, trivial⟩
    exact ⟨fun hv => hl.lists ▸ hv, fun hv => hr.lists ▸ hv⟩
  · exact .inr ⟨_, m', rfl, hm'⟩

theorem countAssignment : Follows (· = .memoryExceeded) (Shadows names) W
    countAssignment countAssignment fun _ _ _ => True := by
  intro _ m hm
  cases hm
  refine .inl ⟨(), _, W.leftReg, W.rightReg, rfl, ⟨fun hv => hv, fun hv => hv⟩, ?_, trivial⟩
  have hl : W.left.SameStore { W.left with assignments := W.left.assignments + 1 } :=
    ⟨rfl, rfl, rfl, rfl⟩
  have hr : W.right.SameStore { W.right with assignments := W.right.assignments + 1 } :=
    ⟨rfl, rfl, rfl, rfl⟩
  refine h.sameStore hl hr ⟨?_, ?_⟩ h.printed
  · exact h.fit.left.sameStore hl h.fit.left.recorded
  · exact h.fit.right.sameStore hr h.fit.right.recorded

theorem assign {t : Tree} (ht : t.isPlain names = true) (hform : t.form? = some .assign) :
    Follows (· = .memoryExceeded) (Shadows names) W (assign (guarded orderly) t)
      (assign unwatched t) fun _ _ _ => True := by
  refine follows_bind h.countAssignment fun W1 _ h1 _ _ _ => ?_
  refine follows_ofExcept_bind fun (tag, target, e) hparts => ?_
  rw [Tree.isPlain, hform, hparts] at ht
  cases target with
  | text s =>
    have heager : W1.left.isEager (.ofText s) = true := by
      rw [Machine.isEager, h1.eager]
      exact ht
    refine follows_ofExcept_bind fun name hname => ?_
    cases hname
    refine follows_bind (h1.valueFor heager) fun W2 _ h2 u v huv => ?_
    exact h2.replace rfl huv
  | _ => cases ht

theorem put (writer : Writer) (s : String) : Follows (· = .memoryExceeded) (Shadows names) W
    (put writer s) (put writer s) fun _ _ _ => True := by
  intro _ m hm
  cases hm
  refine .inl ⟨(), _, W.leftReg, W.rightReg, rfl, ⟨fun hv => hv, fun hv => hv⟩, ?_, trivial⟩
  have hl : W.left.SameStore { W.left with pieces := ⟨writer, s⟩ :: W.left.pieces } :=
    ⟨rfl, rfl, rfl, rfl⟩
  have hr : W.right.SameStore { W.right with pieces := ⟨writer, s⟩ :: W.right.pieces } :=
    ⟨rfl, rfl, rfl, rfl⟩
  refine h.sameStore hl hr ⟨?_, ?_⟩ ?_
  · exact h.fit.left.sameStore hl h.fit.left.recorded
  · exact h.fit.right.sameStore hr h.fit.right.recorded
  · exact Machine.printed_cons h.printed ⟨writer, s⟩

theorem prune : Follows (· = .memoryExceeded) (Shadows names) W prune prune fun _ _ _ => True := by
  intro _ m hm
  obtain ⟨_, hm1, hl, -, hhistory, hprinted⟩ := prune_ok W.left
  cases hm1.symm.trans hm
  obtain ⟨m', hm', hr, -, hhistory', hprinted'⟩ := prune_ok W.right
  refine .inl ⟨(), m', W.leftReg, W.rightReg, hm', ?_, ?_, trivial⟩
  · exact ⟨fun hv => hl.lists ▸ hv, fun hv => hr.lists ▸ hv⟩
  refine h.sameStore hl hr ⟨?_, ?_⟩ (hprinted.trans (h.printed.trans hprinted'.symm))
  · exact h.fit.left.sameStore hl fun hc => h.fit.left.recorded_prune (hhistory ▸ hc)
  · exact h.fit.right.sameStore hr fun hc => h.fit.right.recorded_prune (hhistory' ▸ hc)

end Shadows

/-- Assignments, prints and branches are followed; there is nothing else in such a program. -/
theorem pairing_shadows (names : List String) : Pairing (guarded orderly) unwatched
    (· = .memoryExceeded) (fun t => t.Every fun s => s.isPlain names = true) (Shadows names) where
  inside ht := ht.inside
  fit h := h.fit
  put writer s h := h.put writer s
  prune h := h.prune
  evaluate e h := h.evaluate e
  assign t ht hform h := h.assign ht.here hform
  compound op t ht hform := by simpa [Tree.isPlain, hform] using ht.here
  reverse t ht hform := by simpa [Tree.isPlain, hform] using ht.here
  revtrace t ht hform := by simpa [Tree.isPlain, hform] using ht.here
  drive t target name u v ht hd := by
    rw [Tree.driven?] at hd
    split at hd
    · next hform => simpa [Tree.isPlain, hform] using ht.here
    · next hform => simpa [Tree.isPlain, hform] using ht.here
    · cases hd
  increment t counter ht hform := by simpa [Tree.isPlain, hform] using ht.here
  advance t u u' v v' ht hform := by simpa [Tree.isPlain, hform] using ht.here

/-- New machines, with nothing bound. -/
theorem shadows_withEager (clock : Clock) (names eager : List String) :
    Shadows names ⟨.withEager clock names, .withEager clock eager, fun _ => [], fun _ => []⟩ :=
  ⟨⟨Machine.fit_withEager clock names, Machine.fit_withEager clock eager⟩, rfl, fun _ => rfl, nofun,
    nofun, nofun, rfl⟩

/-- **A program that binds each name once prints the same lines whatever names are eager.**  Its
statements are assignments, prints and branches; it is run with all variables eager, and in this run
only names that are bound are read and only names that are not bound are bound.  If it comes to its
end, so does the run with any other choice of eager names, unless the limit of the memory is
reached, and the same lines are printed. -/
theorem same_lines_of_single_assignment {n : Nat} {program : List Tree} {clock : Clock}
    {names : List String} {steps : List Machine} {m : Machine}
    (hplain : ∀ t ∈ program, t.Every fun s => s.isPlain names = true)
    (hrun : Run.statements n program (.withEager clock names) = (steps, none, m))
    (horder : Run.Throughout orderly n program (.withEager clock names)) (eager : List String)
    (hlimit : (Run.statements n program (.withEager clock eager)).2.1 ≠ some .memoryExceeded) :
    ∃ steps' m', Run.statements n program (.withEager clock eager) = (steps', none, m') ∧
      m'.printed = m.printed := by
  have hstart := shadows_withEager clock names eager
  rcases (pairing_shadows names).statementsWatched n hplain hstart (horder.trans hrun) with
    ⟨steps', m', reg, reg', hrun', hend⟩ | ⟨steps', e, m', rfl, hrun'⟩
  · exact ⟨steps', m', hrun', hend.printed.symm⟩
  · exact absurd (congrArg (·.2.1) hrun') hlimit

namespace SingleAssignment

/-- `x = 2`, `y = x + 3`, and `if y > x:` `w = "grown"` and `print(w)`, `else:` `print(y)` -/
def program : List Tree :=
  [.assign (.text "x") (.int 2),
    .assign (.text "y") (.binary (.text "x") "plus" (.int 3)),
    .branch (.binary (.text "y") "gt" (.text "x"))
      [.assign (.text "w") (.text "\"grown\""), .print [.text "w"]] [] [.print [.text "y"]]]

/-- All statements of the program are assignments, prints and branches. -/
theorem every_isPlain : ∀ t ∈ program, t.Every fun s => s.isPlain ["x", "y", "w"] = true := by
  have simple {t : Tree} (ht : t.isPlain ["x", "y", "w"] = true) (hinner : t.inner = []) :
      t.Every fun s => s.isPlain ["x", "y", "w"] = true := by
    refine .mk ht fun s hs => ?_
    rw [hinner] at hs
    cases hs
  intro t ht
  rw [program] at ht
  simp only [List.mem_cons, List.not_mem_nil, or_false] at ht
  rcases ht with rfl | rfl | rfl
  · exact simple (by decide) (by cbv)
  · exact simple (by decide) (by cbv)
  · refine .mk (by decide) fun s hs => ?_
    have hinner : s ∈ [.assign (.text "w") (.text "\"grown\""), .print [.text "w"],
        .print [.text "y"]] := hs
    simp only [List.mem_cons, List.not_mem_nil, or_false] at hinner
    rcases hinner with rfl | rfl | rfl
    · exact simple (by decide) (by cbv)
    · exact simple (by decide) (by cbv)
    · exact simple (by decide) (by cbv)

end SingleAssignment

/-- With `x` alone eager, the condition works out a thunk that reads a number and `x`. -/
theorem same_lines_of_single_assignment_grown : ∃ steps m steps' m',
    Run.statements 2 SingleAssignment.program (.withEager {} ["x", "y", "w"]) = (steps, none, m) ∧
    Run.statements 2 SingleAssignment.program (.withEager {} ["x"]) = (steps', none, m') ∧
    m.printed = ["grown\n"] ∧ m'.printed = m.printed := by
  have hrun : ∃ steps m, Run.statements 2 SingleAssignment.program
      (.withEager {} ["x", "y", "w"]) = (steps, none, m) ∧
      Run.statementsWatched (guarded orderly) 2 SingleAssignment.program
        (.withEager {} ["x", "y", "w"]) = (steps, none, m) ∧ m.printed = ["grown\n"] :=
    ⟨_, _, by cbv, by cbv, by cbv⟩
  obtain ⟨steps, m, hrun, hwatched, hgrown⟩ := hrun
  have horder : Run.Throughout orderly 2 SingleAssignment.program
      (.withEager {} ["x", "y", "w"]) := hwatched.trans hrun.symm
  have hend : (Run.statements 2 SingleAssignment.program (.withEager {} ["x"])).2.1 = none := by
    cbv
  obtain ⟨steps', m', hrun', hprinted⟩ := same_lines_of_single_assignment
    SingleAssignment.every_isPlain hrun horder ["x"] (by rw [hend]; simp)
  exact ⟨steps, m, steps', m', hrun, hrun', hgrown, hprinted⟩

end Retrace
