import Retrace.Proofs.Library
import Retrace.Proofs.Record

/-!
# Undoing a block of assignments

A block of assignments, plain and compound ones in any order and on any variables, is undone by
reversing their targets from the last to the first.  After that every history is what it was, the
variables that were no targets are bound as they were, and so are the targets that were bound to
something: to the very same value or thunk if the first assignment to them was a plain one, and to
the value of what they were bound to if it was a compound one, since that is what those remember.

A target that was not bound stays bound, to whatever the block left there: there is nothing to put
back, and no statement takes a binding away.  The law says nothing of those.

The law is an induction on the block.  Between the first assignment and its reversal the rest of the
block is carried out and undone, which by induction leaves the histories as they were; so what the
reversal takes back is what the first assignment has remembered, whatever became of the variable in
between.  Several assignments to one variable need no case of their own: the reversals of the later
ones come first, and what counts in the end is what the first one has remembered.

What was remembered is said in terms of the machine at that time (`Remembers`), and what is restored
in terms of the machine at the end (`Restores`).  For plain assignments both are the same value.
For compound ones they are not: the thunk that the variable was bound to may have been worked out
only on the way, so that before the block there is a thunk without a value, and afterwards the
value.  The two are tied by `Machine.Resolves` in the machine at the end, which the heaps in between
lead up to (`Fills`).

Only the limit of the memory can stand in the way of the reversals.  Since each of them credits a
value and charges it again, whether it is reached depends on what the account shows and not on the
block; that it is not reached is therefore a hypothesis.

* `Assignment`, `undo`: the assignments of a block, and the reversals that undo it.
* `Assignment.Remembers`, `Assignment.Restores`: what an assignment keeps, and what comes back of
  it.
* `Undone`: what has become of a machine after a block was carried out and undone.
* `Undone.cons`: one assignment more, in front of a block.
* `undone_of_block`: the law.
-/

set_option autoImplicit false

namespace Retrace

/-- An assignment to a variable. -/
inductive Assignment where
  | plain (target e : Tree)
  | compound (op : Compound) (target e : Tree)

namespace Assignment

/-- The variable that is assigned to. -/
def target : Assignment → Tree
  | .plain target _ => target
  | .compound _ target _ => target

/-- The assignment as a statement. -/
def tree : Assignment → Tree
  | .plain target e => .assign target e
  | .compound op target e => .compound op target e

/-- Does the assignment bind the name? -/
def binds (s : Assignment) (name : Name) : Bool :=
  match Name.ofTree s.target with
  | .ok n => n == name
  | .error _ => false

/-- The reversals that undo a block. -/
def undo (block : List Assignment) : List Tree :=
  block.reverse.map fun s => .reverse s.target

/-- The first assignment is reversed last. -/
theorem undo_cons (s : Assignment) (rest : List Assignment) :
    undo (s :: rest) = undo rest ++ [.reverse s.target] := by
  simp [undo]

/-- An assignment binds the names that are equal to its target. -/
theorem binds_eq {s : Assignment} {name other : Name} (h : Name.ofTree s.target = .ok name) :
    s.binds other = (name == other) := by
  rw [binds, h]

/-- What an assignment remembers: the binding, or the value of the binding. -/
def Remembers (s : Assignment) (m : Machine) (name : Name) (old : Value) (m' : Machine) : Prop :=
  match s with
  | .plain _ _ => old = (m.lookup name).getD .none
  | .compound _ _ _ => old ≠ .none ∧ ∃ v, m.lookup name = some v ∧ m'.Resolves v old

/-- What a variable that was bound to `v` is bound to after a block was undone, by the first
assignment to it. -/
def Restores (s : Assignment) (v : Value) (name : Name) (m' : Machine) : Prop :=
  match s with
  | .plain _ _ => m'.lookup name = some v
  | .compound _ _ _ => ∃ w, m'.lookup name = some w ∧ m'.Resolves v w

end Assignment

open Exec Assignment

/-- What has become of `m` after a block was carried out and undone. -/
structure Undone (block : List Assignment) (m m' : Machine) : Prop where
  /-- Every history is as it was. -/
  history : ∀ name, m'.history.of name = m.history.of name
  /-- Variables that were no targets are bound as they were. -/
  untouched : ∀ name, (∀ s ∈ block, s.binds name = false) → m'.lookup name = m.lookup name
  /-- Targets that were bound to something are bound to it again. -/
  restored : ∀ name v s, m.lookup name = some v → v ≠ .none →
    block.find? (·.binds name) = some s → s.Restores v name m'
  /-- No variable has become unbound. -/
  bound : ∀ name, (m.lookup name).isSome = true → (m'.lookup name).isSome = true
  /-- No thunk is lost, and those that had a value have kept it. -/
  fills : Fills m.heap m'.heap

namespace Exec

/-- An assignment that comes to its end records what it remembers. -/
theorem carryOut_assignment {n : Nat} {s : Assignment} {m m' : Machine}
    (h : carryOut n s.tree m = .ok () m') :
    ∃ name old new, Name.ofTree s.target = .ok name ∧ m.Records name old new m' ∧
      s.Remembers m name old m' := by
  cases n with
  | zero => cases h
  | succ n =>
    cases s with
    | plain target e =>
      rw [carryOut_of_simply (x := assign unwatched (.assign target e)) rfl] at h
      obtain ⟨_, _, _, name, new, ht, hn, hr⟩ := assign_records h
      cases ht
      exact ⟨name, _, new, hn, hr, rfl⟩
    | compound op target e =>
      rw [carryOut_of_simply (x := compound unwatched op (.compound op target e))
        (by cases op <;> rfl)] at h
      obtain ⟨_, _, _, name, v, w, new, ht, hn, hv, hres, hw, hr⟩ := compound_records h
      cases ht
      exact ⟨name, w, new, hn, hr, hw, v, hv, hres⟩

end Exec

/-- What was remembered for a name that was bound to something is what has to be put back. -/
theorem Assignment.Remembers.restores {s : Assignment} {m m' m'' : Machine} {name other : Name}
    {v old : Value} (h : s.Remembers m name old m') (hv : m.lookup name = some v)
    (hnone : v ≠ .none) (hf : Fills m'.heap m''.heap)
    (hlookup : old ≠ .none → m''.lookup other = some old) : s.Restores v other m'' := by
  cases s with
  | plain target e =>
    rw [Remembers, hv, Option.getD_some] at h
    subst h
    exact hlookup hnone
  | compound op target e =>
    obtain ⟨hold, v', hv', hres⟩ := h
    cases hv.symm.trans hv'
    exact ⟨old, hlookup hold, hres.mono hf⟩

/-- What is restored depends on the binding and on the heap only. -/
theorem Assignment.Restores.of_lookup {s : Assignment} {m m' : Machine} {name : Name} {v : Value}
    (h : s.Restores v name m) (hl : m'.lookup name = m.lookup name) (hheap : m'.heap = m.heap) :
    s.Restores v name m' := by
  cases s with
  | plain target e => exact hl.trans h
  | compound op target e =>
    obtain ⟨w, hw, hres⟩ := h
    exact ⟨w, hl.trans hw, hres.mono (by rw [hheap]; exact Fills.refl _)⟩

/-- The step of the law: the first assignment is reversed after the rest of the block was carried
out and undone. -/
theorem Undone.cons {s : Assignment} {rest : List Assignment} {m m1 m2 m3 : Machine} {name : Name}
    {old new : Value} (hn : Name.ofTree s.target = .ok name) (hr : m.Records name old new m1)
    (hs : s.Remembers m name old m1) (hu : Undone rest m1 m2) (ht : m2.TakesBack name m3) :
    Undone (s :: rest) m m3 := by
  have hbinds (other : Name) : s.binds other = (name == other) := binds_eq hn
  obtain ⟨now, hpush⟩ := hr.history
  have hheap : Fills m1.heap m3.heap := by
    rw [ht.heap]
    exact hu.fills
  constructor
  case history =>
    intro other
    rw [ht.history, hu.history, hpush]
    split <;> rfl
  case untouched =>
    intro other h
    have hother : ¬(name == other) = true := by
      rw [← hbinds, h s (List.mem_cons_self ..)]
      exact Bool.false_ne_true
    rw [ht.lookup, if_neg hother,
      hu.untouched other fun s' hs' => h s' (List.mem_cons_of_mem _ hs'), hr.lookup, if_neg hother]
  case restored =>
    intro other v first hv hnone hfirst
    rw [List.find?_cons, hbinds] at hfirst
    by_cases h : (name == other) = true
    · -- this is the first assignment to `other`, and its entry is on top again
      rw [h] at hfirst
      cases hfirst
      rw [← m.lookup_congr h] at hv
      refine hs.restores hv hnone hheap fun hold => ?_
      rw [ht.lookup, if_pos h, hu.history, hpush, if_pos h, Change.putBack,
        isNone_eq_false hold]
      rfl
    · rw [Bool.not_eq_true] at h
      rw [h] at hfirst
      have hv1 : m1.lookup other = some v := by
        rw [hr.lookup, h]
        exact hv
      refine (hu.restored other v first hv1 hnone hfirst).of_lookup ?_ ht.heap
      rw [ht.lookup, h]
      rfl
  case bound =>
    intro other hb
    apply ht.bound
    apply hu.bound
    rw [hr.lookup]
    split
    · rfl
    · exact hb
  case fills => exact hr.fills.trans hheap

/-- **A block of assignments can be undone.**  If all of them are carried out, and the limit of the
memory is not reached on the way back, reversing their targets from the last to the first comes to
its end, and the machine is `Undone`. -/
theorem undone_of_block {n : Nat} {block : List Assignment} {m m' : Machine}
    (hrun : (block.map Assignment.tree).forM (carryOut n) m = .ok () m')
    (hlimit : ∀ m'', (undo block).forM (carryOut n) m' ≠ .error .memoryExceeded m'') :
    ∃ m'', (undo block).forM (carryOut n) m' = .ok () m'' ∧ Undone block m m'' := by
  induction block generalizing m with
  | nil =>
    cases hrun
    exact ⟨m', rfl, fun _ => rfl, fun _ _ => rfl, nofun, fun _ h => h, Fills.refl _⟩
  | cons s rest ih =>
    obtain ⟨_, m1, hfirst, hrest⟩ := bind_eq_ok.1 hrun
    obtain ⟨name, old, new, hn, hr, hs⟩ := carryOut_assignment hfirst
    rw [undo_cons] at hlimit ⊢
    have hlimit' : ∀ m'', (undo rest).forM (carryOut n) m' ≠ .error .memoryExceeded m'' := by
      intro m'' h
      apply hlimit m''
      rw [forM_append_apply]
      exact bind_of_error h
    obtain ⟨m2, hundo, hu⟩ := ih hrest hlimit'
    have hbound : (m2.lookup name).isSome = true := by
      apply hu.bound
      rw [hr.lookup, if_pos BEq.rfl]
      rfl
    -- the first assignment was carried out, so there is room for a reversal in `n`
    obtain ⟨n, rfl⟩ : ∃ k, n = k + 1 := by
      cases n with
      | zero => cases hfirst
      | succ k => exact ⟨k, rfl⟩
    have hlast : (undo rest ++ [Tree.reverse s.target]).forM (carryOut (n + 1)) m' =
        (Exec.reverse unwatched (.reverse s.target) >>= fun _ => pure ()) m2 := by
      rw [forM_append_apply, bind_of_ok hundo,
        ← carryOut_of_simply (n := n) (t := .reverse s.target) rfl]
      rfl
    rcases reverse_ok hn hbound with ⟨m3, hrev, ht⟩ | ⟨m3, hrev⟩
    · refine ⟨m3, ?_, .cons hn hr hs hu ht⟩
      rw [hlast, bind_of_ok hrev]
      rfl
    · refine absurd ?_ (hlimit m3)
      rw [hlast, bind_of_error hrev]

/-- A machine with an eager variable and another one, which is bound to a thunk. -/
def Undone.start : Machine :=
  { bindings := ⟨[(.ofText "x", .int 5), (.ofText "y", .thunk 0)]⟩
    heap := #[⟨.int 7, none⟩]
    profile := { eager := ["x"] } }

/-- `y *= 0`, `x = y + 1`, `y = x`, `x += 3` -/
def Undone.block : List Assignment :=
  [.compound .times (.text "y") (.int 0),
    .plain (.text "x") (.binary (.text "y") "plus" (.int 1)),
    .plain (.text "y") (.text "x"),
    .compound .plus (.text "x") (.int 3)]

theorem undone_of_block_mixed :
    ∃ m' m'', (Undone.block.map Assignment.tree).forM (carryOut 1) Undone.start = .ok () m' ∧
      (undo Undone.block).forM (carryOut 1) m' = .ok () m'' ∧
      Undone Undone.block Undone.start m'' := by
  have hend : ∃ m'', ((Undone.block.map Assignment.tree).forM (carryOut 1) >>= fun _ =>
      (undo Undone.block).forM (carryOut 1)) Undone.start = .ok () m'' :=
    ⟨_, by cbv⟩
  obtain ⟨m'', hend⟩ := hend
  obtain ⟨_, m', hrun, hback⟩ := bind_eq_ok.1 hend
  obtain ⟨m'', hback, hu⟩ := undone_of_block hrun (by simp [hback])
  exact ⟨m', m'', hrun, hback, hu⟩

end Retrace
