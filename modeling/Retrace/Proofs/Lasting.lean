import Retrace.Proofs.Moments
import Retrace.Proofs.Once

/-!
# How long a value lasts

A thunk is given one value and keeps it for the rest of the run.  A value that holds lists need not
keep its looks, though: a loop over a range that starts with a list extends this list in its place,
and every thunk that has it for its value shows the new items (`value_changes_of_extension`).

So there are two things to be told apart, the value of a thunk and what can be seen of it.  The
value is the same from any moment of a run to any later one.  What can be seen of it is the same
exactly if none of the lists that can be seen in it has been extended in between.

For the second part it has to be known what a view depends on.  A view follows the items of a list
and what it was extended by, through all lists that are met on the way, and it stops where a list is
met inside of itself.  Where it stops is found out with a depth that is large enough for all lists
that have grown, and two views of one value at two moments have two such depths.  `Lists.Tells`
states what is needed to compare them: a relation between the extensions at both moments, relative
to the lists that one is inside of already.  The depth comes in only by the lists that have grown
and are not among those (`grownOutside`), of which there are fewer inside of each list that has.

A run has many moments, of which those between two statements are only a few.  A moment is the end
of a guarded run, and `Run.Moments` says of two machines that they are moments of one run in their
order: the later one belongs to a guard that allows more, or to a longer piece of the program.

* `Lists.view_eq_iff`: a value looks as it did exactly if none of the lists in it has grown.
* `Run.Moments`: two moments of a run, in their order.
* `worked_thunk_keeps_value`: what of a value lasts, from any moment of a run to any later one.
-/

set_option autoImplicit false

namespace Retrace

theorem Table.mem_of_find {κ α : Type} [BEq κ] [LawfulBEq κ] {key : κ} {a : α}
    {entries : List (κ × α)} (h : Table.find key entries = some a) : (key, a) ∈ entries := by
  induction entries with
  | nil => cases h
  | cons p rest ih =>
    obtain ⟨k, b⟩ := p
    rw [Table.find] at h
    split at h
    · next hk =>
      cases h
      cases eq_of_beq hk
      exact List.mem_cons_self ..
    · exact List.mem_cons_of_mem _ (ih h)

/-! ## The lists in a view -/

namespace View

mutual

/-- The numbers of the lists that stand in a view. -/
def lists : View → List Nat
  | .list id items => id :: listsOf items
  | .tuple items => listsOf items
  | _ => []

/-- The numbers of the lists that stand in views. -/
def listsOf : List View → List Nat
  | [] => []
  | v :: rest => v.lists ++ listsOf rest

end

@[simp] theorem listsOf_append (vs ws : List View) :
    listsOf (vs ++ ws) = listsOf vs ++ listsOf ws := by
  induction vs with
  | nil => rfl
  | cons v rest ih => simp [listsOf, ih]

end View

namespace Lists

/-! ## What a view depends on -/

@[simp] theorem length_viewsWith (added : List Nat → Nat → List View) (around : List Nat)
    (vs : List Value) : (viewsWith added around vs).length = vs.length := by
  induction vs with
  | nil => rfl
  | cons v rest ih => simp [viewsWith, ih]

/-- Two ways to see what was added to lists tell whether the lists are the `same`, as long as the
lists around are of the sort `P`. -/
structure Tells (same : Nat → Prop) (P : List Nat → Prop)
    (added added' : List Nat → Nat → List View) : Prop where
  deeper : ∀ id {around}, P around → P (id :: around)
  same_iff : ∀ {id around}, P around → id ∉ around →
    (added' (id :: around) id = added (id :: around) id ↔
      same id ∧ ∀ i ∈ View.listsOf (added (id :: around) id), same i)

section Tells

variable {added added' : List Nat → Nat → List View} {same : Nat → Prop} {P : List Nat → Prop}

mutual

/-- What tells of the lists that a value was extended by tells of all lists in the value. -/
theorem viewWith_eq_iff (ht : Tells same P added added') {around : List Nat} (haround : P around) :
    ∀ v : Value, viewWith added' around v = viewWith added around v ↔
      ∀ i ∈ (viewWith added around v).lists, same i
  | .none => by simp [viewWith, View.lists]
  | .bool _ => by simp [viewWith, View.lists]
  | .int _ => by simp [viewWith, View.lists]
  | .float _ => by simp [viewWith, View.lists]
  | .text _ => by simp [viewWith, View.lists]
  | .thunk _ => by simp [viewWith, View.lists]
  | .tuple items => by simp [viewWith, View.lists, viewsWith_eq_iff ht haround items]
  | .list id items => by
    by_cases hid : id ∈ around
    · simp [viewWith, View.lists, hid]
    · have hitems := viewsWith_eq_iff ht (ht.deeper id haround) items
      simp only [viewWith, List.contains_iff_mem, hid, if_false, View.list.injEq, true_and,
        View.lists, View.listsOf_append, List.mem_cons, List.mem_append, or_imp, forall_and,
        forall_eq]
      -- the items that the list was made with are as many in both views
      rw [List.append_eq_append_iff_of_size_eq_left (by simp), hitems, ht.same_iff haround hid]
      exact and_left_comm

/-- The same of several values. -/
theorem viewsWith_eq_iff (ht : Tells same P added added') {around : List Nat}
    (haround : P around) : ∀ vs : List Value,
    viewsWith added' around vs = viewsWith added around vs ↔
      ∀ i ∈ View.listsOf (viewsWith added around vs), same i
  | [] => by simp [viewsWith, View.listsOf]
  | v :: rest => by
    simp only [viewsWith, List.cons.injEq, viewWith_eq_iff ht haround v,
      viewsWith_eq_iff ht haround rest, View.listsOf, List.mem_append, or_imp, forall_and]

end
end Tells

/-- How many lists have grown, apart from those of the given numbers. -/
def grownOutside (l : Lists) (around : List Nat) : Nat :=
  (l.added.entries.filter fun p => !around.contains p.1).length

variable {l l' : Lists} {id n : Nat} {around : List Nat}

theorem grownOutside_cons : l.grownOutside (id :: around) =
    ((l.added.entries.filter fun p => !around.contains p.1).filter fun p => p.1 != id).length := by
  rw [grownOutside, List.filter_filter]
  congr 2
  funext p
  rw [List.contains_cons, Bool.not_or]
  rfl

theorem grownOutside_cons_le : l.grownOutside (id :: around) ≤ l.grownOutside around := by
  rw [grownOutside_cons]
  exact List.length_filter_le ..

/-- Inside of a list that has grown there is one such list less. -/
theorem grownOutside_cons_lt (hid : id ∉ around) (h : l.addedTo id ≠ []) :
    l.grownOutside (id :: around) < l.grownOutside around := by
  obtain ⟨items, hitems⟩ : ∃ items, (id, items) ∈ l.added.entries := by
    cases hget : l.added.get? id with
    | none => simp [addedTo, hget] at h
    | some items => exact ⟨items, Table.mem_of_find hget⟩
  rw [grownOutside_cons]
  refine List.length_filter_lt_length_iff_exists.2 ⟨(id, items), ?_, by simp⟩
  exact List.mem_filter.2 ⟨hitems, by simpa using hid⟩

theorem addedWithin_of_empty (h : l.addedTo id = []) : l.addedWithin n around id = [] := by
  cases n with
  | zero => rfl
  | succ n => rw [addedWithin, h, viewsWith]

/-- Where the depth allows for all lists that have grown, it allows for one more than are inside of
such a list. -/
theorem exists_depth (hid : id ∉ around) (hn : l.grownOutside around ≤ n)
    (h : l.addedTo id ≠ []) : ∃ k, n = k + 1 ∧ l.grownOutside (id :: around) ≤ k := by
  have hlt := grownOutside_cons_lt hid h
  exact ⟨n - 1, by omega, by omega⟩

/-- What was added to lists tells whether they have grown, at depths that allow for all lists that
have. -/
theorem tells_addedWithin (hgrows : ∀ id, l.addedTo id <+: l'.addedTo id) (n n' : Nat) :
    Tells (fun i => l'.addedTo i = l.addedTo i)
      (fun around => l.grownOutside around ≤ n ∧ l'.grownOutside around ≤ n')
      (l.addedWithin n) (l'.addedWithin n') := by
  induction n using Nat.strong_induction_on generalizing n' with
  | _ n ih =>
    refine ⟨fun id around h => ⟨grownOutside_cons_le.trans h.1, grownOutside_cons_le.trans h.2⟩, ?_⟩
    rintro id around ⟨hn, hn'⟩ hid
    by_cases hempty' : l'.addedTo id = []
    · have hempty : l.addedTo id = [] := List.prefix_nil.1 (hempty' ▸ hgrows id)
      simp [addedWithin_of_empty, hempty, hempty', View.listsOf]
    · obtain ⟨k', rfl, hk'⟩ := exists_depth hid hn' hempty'
      by_cases hempty : l.addedTo id = []
      · have hseen : l'.addedWithin (k' + 1) (id :: around) id ≠ [] := by
          rw [addedWithin, ← List.length_pos_iff, length_viewsWith, List.length_pos_iff]
          exact hempty'
        simp [addedWithin_of_empty hempty, hempty, hempty', hseen]
      · obtain ⟨k, rfl, hk⟩ := exists_depth hid hn hempty
        have hadded := viewsWith_eq_iff (ih k (Nat.lt_succ_self k) k') ⟨hk, hk'⟩ (l.addedTo id)
        rw [addedWithin, addedWithin]
        constructor
        · intro h
          have hlength : (l'.addedTo id).length = (l.addedTo id).length := by
            simpa using congrArg List.length h
          have hsame := ((hgrows id).eq_of_length hlength.symm).symm
          rw [hsame] at h
          exact ⟨hsame, hadded.1 h⟩
        · rintro ⟨hsame, hrest⟩
          rw [hsame]
          exact hadded.2 hrest

/-- **A value looks as it did if and only if none of the lists in it has grown.** -/
theorem view_eq_iff (hgrows : ∀ id, l.addedTo id <+: l'.addedTo id) (v : Value) :
    l'.view v = l.view v ↔ ∀ id ∈ (l.view v).lists, l'.addedTo id = l.addedTo id := by
  refine viewWith_eq_iff (tells_addedWithin hgrows _ _) ?_ v
  constructor
  · exact List.length_filter_le ..
  · exact List.length_filter_le ..

end Lists

/-! ## Reading -/

namespace Exec

variable {m : Machine} {s : String} {id : Nat} {e : Tree} {v : Value}

/-- To read a name is to count an evaluation and to ask the thunk, which answers with the value that
it has. -/
theorem evaluate_of_value (hs : isLiteral s = false)
    (hbound : m.lookup (.ofText s) = some (.thunk id)) (ht : m.heap[id]? = some ⟨e, some v⟩) :
    evaluate (.text s) m = .ok v { m with evaluations := m.evaluations + 1 } := by
  obtain ⟨depth, hdepth⟩ : ∃ depth, m.heap.size = depth + 1 := by
    have hid := (Array.getElem?_eq_some_iff.1 ht).1
    exact ⟨m.heap.size - 1, by omega⟩
  rw [evaluate, bind_of_ok (get_apply m), evaluateWith, bind_of_ok (countEvaluation_apply m), hs,
    if_neg Bool.false_ne_true, bind_of_ok (get_apply _), hdepth]
  show resolve? (forceWithin (depth + 1)) (m.lookup (.ofText s)) _ = _
  rw [hbound]
  exact forceWithin_of_value ht

end Exec

/-! ## The result -/

/-- The machines at two moments of a run, of which the first one does not come after the second one.
A moment is one at which some guard stops the run, or the end of some of its statements. -/
def Run.Moments (n : Nat) (program : List Tree) (m earlier later : Machine) : Prop :=
  ∃ (allowed allowed' : Exec.Event → Machine → Bool) (first second : List Tree),
    (∀ event m, allowed event m = true → allowed' event m = true) ∧
      first <+: second ∧ second <+: program ∧
      earlier = Run.machineAt allowed n first m ∧ later = Run.machineAt allowed' n second m

/-- Between two moments thunks keep their values and lists only grow. -/
theorem Run.Moments.precedes {n : Nat} {program : List Tree} {m earlier later : Machine}
    (h : Run.Moments n program m earlier later) : earlier.Precedes later := by
  obtain ⟨allowed, allowed', first, second, hallowed, hfirst, -, rfl, rfl⟩ := h
  exact Run.machineAt_precedes hallowed n hfirst m

/-- No thunk is ever given a second value, in whatever evaluation.  A thunk that has a value has it
at all later moments, whatever was bound, recorded or put back in between, and the value looks as it
did exactly if none of the lists in it was extended.  Whoever reads a name that is bound to the
thunk gets the value, for one evaluation. -/
theorem worked_thunk_keeps_value (clock : Clock) (eager : List String) (n : Nat)
    (program : List Tree) :
    Run.statementsOnce n program (.withEager clock eager) =
        Run.statements n program (.withEager clock eager) ∧
      (Run.statements n program (.withEager clock eager)).2.1 ≠ some Exec.secondValue ∧
      ∀ {earlier later : Machine}, Run.Moments n program (.withEager clock eager) earlier later →
        ∀ {id : Nat} {e : Tree} {v : Value}, earlier.heap[id]? = some ⟨e, some v⟩ →
          later.heap[id]? = some ⟨e, some v⟩ ∧
          (later.lists.view v = earlier.lists.view v ↔
            ∀ i ∈ (earlier.lists.view v).lists,
              later.lists.addedTo i = earlier.lists.addedTo i) ∧
          ∀ {s : String}, Exec.isLiteral s = false →
            later.lookup (.ofText s) = some (.thunk id) →
            Exec.evaluate (.text s) later =
              .ok v { later with evaluations := later.evaluations + 1 } := by
  refine ⟨Run.statementsOnce_eq n program (Machine.sound_withEager clock eager),
    Run.statements_ne_secondValue, ?_⟩
  intro earlier later hmoments id e v ht
  have hprecedes := hmoments.precedes
  have hlater := hprecedes.fills.value ht
  refine ⟨hlater, Lists.view_eq_iff hprecedes.grows v, ?_⟩
  intro s hs hbound
  exact Exec.evaluate_of_value hs hbound hlater

namespace Lasting

/-- `y = 1`, `x = y`, `if x:` `z = x`, and then `x = 7`, `y = 2` and `rev x` -/
def program : List Tree :=
  [.assign (.text "y") (.int 1), .assign (.text "x") (.text "y"),
    .branch (.text "x") [.assign (.text "z") (.text "x")] [] [],
    .assign (.text "x") (.int 7), .assign (.text "y") (.int 2), .reverse (.text "x")]

/-- Gives a run up at the first binding after something was evaluated. -/
def untilEvaluated : Exec.Event → Machine → Bool
  | .binding _ _, m => m.evaluations == 0
  | _, _ => true

theorem thunk_untilEvaluated :
    (Run.machineAt untilEvaluated 2 program (.withEager {} [])).heap[1]? =
      some ⟨.text "y", some (.int 1)⟩ := by cbv

theorem lookup_x : (Run.machineAt (fun _ _ => true) 2 program (.withEager {} [])).lookup
    (.ofText "x") = some (.thunk 1) := by cbv

/-- `x = [1]`, `for i in x:` `y = i`, and then `for i in range(x, [1, 2], [5]):` `y = i` -/
def extended : List Tree :=
  [.assign (.text "x") (.list [.int 1]),
    .forLoop (.text "i") (.text "x") [.assign (.text "y") (.text "i")],
    .forLoop (.text "i") (.range (.text "x") (.list [.int 1, .int 2]) (.list [.int 5]))
      [.assign (.text "y") (.text "i")]]

/-- The thunk of `x` has the same list for its value before and after the last loop, which has
extended it. -/
theorem run_extended : ∃ earlier later,
    Run.machineAt (fun _ _ => true) 2 (extended.take 2) (.withEager {} []) = earlier ∧
    Run.machineAt (fun _ _ => true) 2 extended (.withEager {} []) = later ∧
    earlier.heap[0]? = some ⟨.list [.int 1], some (.list 0 [.int 1])⟩ ∧
    later.heap[0]? = some ⟨.list [.int 1], some (.list 0 [.int 1])⟩ ∧
    earlier.lists.view (.list 0 [.int 1]) = .list 0 [.int 1] ∧
    later.lists.view (.list 0 [.int 1]) = .list 0 [.int 1, .int 5] :=
  ⟨_, _, by cbv, by cbv, by cbv, by cbv, by cbv, by cbv⟩

end Lasting

/-- The first moment lies in the midst of a block.  After it the thunk of `x` is recorded and put
back, and `y` is bound to something else. -/
theorem worked_thunk_keeps_value_reversed : ∃ earlier later,
    Run.Moments 2 Lasting.program (.withEager {} []) earlier later ∧
      earlier.heap[1]? = some ⟨.text "y", some (.int 1)⟩ ∧
      later.heap[1]? = some ⟨.text "y", some (.int 1)⟩ ∧
      later.lists.view (.int 1) = earlier.lists.view (.int 1) ∧
      Exec.evaluate (.text "x") later =
        .ok (.int 1) { later with evaluations := later.evaluations + 1 } := by
  have hmoments : Run.Moments 2 Lasting.program (.withEager {} [])
      (Run.machineAt Lasting.untilEvaluated 2 Lasting.program (.withEager {} []))
      (Run.machineAt (fun _ _ => true) 2 Lasting.program (.withEager {} [])) :=
    ⟨_, _, _, _, fun _ _ _ => rfl, List.prefix_refl _, List.prefix_refl _, rfl, rfl⟩
  obtain ⟨hlater, hview, hread⟩ :=
    (worked_thunk_keeps_value {} [] 2 Lasting.program).2.2 hmoments Lasting.thunk_untilEvaluated
  -- there are no lists in a number
  exact ⟨_, _, hmoments, Lasting.thunk_untilEvaluated, hlater,
    hview.2 fun i hi => absurd hi List.not_mem_nil, hread (by cbv) Lasting.lookup_x⟩

/-- A loop extends the list that a thunk has for its value: the thunk keeps the list, and the list
has other items than before. -/
theorem value_changes_of_extension : ∃ earlier later e v,
    Run.Moments 2 Lasting.extended (.withEager {} []) earlier later ∧
      earlier.heap[0]? = some ⟨e, some v⟩ ∧ later.heap[0]? = some ⟨e, some v⟩ ∧
      earlier.lists.view v = .list 0 [.int 1] ∧
      later.lists.view v = .list 0 [.int 1, .int 5] := by
  obtain ⟨earlier, later, rfl, rfl, hthunk, hthunk', hview, hview'⟩ := Lasting.run_extended
  refine ⟨_, _, _, _, ?_, hthunk, hthunk', hview, hview'⟩
  exact ⟨_, _, _, _, fun _ _ h => h, List.take_prefix .., List.prefix_refl _, rfl, rfl⟩

end Retrace
