import Retrace.Proofs.Data
import Retrace.Proofs.Invariant
import Retrace.Proofs.Library
import Retrace.Proofs.Phrase

/-!
# What variables can hold

A value finds its way through thunks, histories, the variables of loops and the items of lists, and
a counting loop even takes what a variable holds for a piece of program and evaluates it again.
Still a program that was read from a text stays among few sorts of values: expressions come to data,
and variables and histories hold data or thunks of expressions that stand in the program.

The one thing that has to be left out is a list of literals that stands as a statement.  It may be
read inside of a block, and a running program takes any list for a statement: `[assign, 1, x]` would
bind a variable that is named by a number.

That a machine holds nothing else is an invariant of runs, and it is an instance of `Invariant`,
which says what has to be shown for each single change.  What makes it more than a list of cases is
that the parts of it support each other.  Evaluating an expression comes to data because variables
hold nothing but data and thunks of the program, and variables hold nothing else because only the
results of evaluations are bound.  Thunks that were worked out have data for their value, as they
are worked out by evaluating.  So all parts are one predicate, `Machine.Closed`, and none is kept
without the others.

The statements that are carried out are given as trees, and the condition is about statements of the
text.  The two are brought together at one place: the tree of a statement that is not a list of
literals has the form, the target and the blocks of the statement (`form?_tree`, `target?_tree`,
`inner_tree`).  From then on it is enough to know of each tree that it is the tree of a statement
within the program.

* `Statement.Within`: the statements of a program, at any depth.
* `Statement.isProper`: no list stands as a statement.
* `Machine.Closed`: what a machine may hold.
* `closure`: that is an invariant.
* `closed_of_run`: it holds everywhere in the run of a proper program.
-/

set_option autoImplicit false

namespace Retrace

/-! ## The statements of a program -/

namespace Phrase

/-- The block of a further condition. -/
def Elif.body : Elif → List Statement
  | .mk _ body => body

namespace Statement

/-- The statements in the blocks of a statement. -/
def inner : Statement → List Statement
  | .branch _ yes elifs no => yes ++ no ++ elifs.flatMap Elif.body
  | .forLoop _ _ body => body
  | .whileLoop _ body => body
  | _ => []

/-- The statement stands in the program, at any depth. -/
inductive Within (program : List Statement) : Statement → Prop
  | top {s : Statement} : s ∈ program → Within program s
  | inner {s s' : Statement} : Within program s → s' ∈ s.inner → Within program s'

/-- The form of a statement. -/
def form? : Statement → Option Form
  | .assign _ _ => some .assign
  | .compound op _ _ => some (.compound op)
  | .reverse _ => some .reverse
  | .revtrace _ _ => some .revtrace
  | .branch _ _ _ _ => some .branch
  | .forLoop _ _ _ => some .forLoop
  | .whileLoop _ _ => some .whileLoop
  | .print _ _ => some .print
  | .breakLoop => some .breakLoop
  | .literals _ => none

/-- Is the statement a list of literals?  Of such a statement only its tree says what it does. -/
def isList : Statement → Bool
  | .literals _ => true
  | _ => false

/-- The variable that a statement binds. -/
def target? : Statement → Option String
  | .assign name _ => some name
  | .compound _ name _ => some name
  | .reverse name => some name
  | .forLoop name _ _ => some name
  | _ => none

end Statement

mutual

/-- Is no list of literals a statement, inside of the statement? -/
def Statement.isProper : Statement → Bool
  | .branch _ yes elifs no =>
    Statement.areProper yes && Elif.areProper elifs && Statement.areProper no
  | .forLoop _ _ body => Statement.areProper body
  | .whileLoop _ body => Statement.areProper body
  | .literals _ => false
  | _ => true

/-- Is no list of literals a statement, after a further condition? -/
def Elif.isProper : Elif → Bool
  | .mk _ body => Statement.areProper body

/-- Is no list of literals a statement, in a program? -/
def Statement.areProper : List Statement → Bool
  | [] => true
  | s :: rest => s.isProper && Statement.areProper rest

/-- Is no list of literals a statement, after further conditions? -/
def Elif.areProper : List Elif → Bool
  | [] => true
  | x :: rest => x.isProper && Elif.areProper rest

end

theorem Statement.areProper_iff {ss : List Statement} :
    areProper ss = true ↔ ∀ s ∈ ss, s.isProper = true := by
  induction ss with
  | nil => simp [areProper]
  | cons s rest ih => rw [areProper, Bool.and_eq_true, ih, List.forall_mem_cons]

theorem Elif.areProper_iff {xs : List Elif} :
    areProper xs = true ↔ ∀ x ∈ xs, Statement.areProper x.body = true := by
  induction xs with
  | nil => simp [areProper]
  | cons x rest ih =>
    cases x
    rw [areProper, Bool.and_eq_true, ih, List.forall_mem_cons]
    rfl

namespace Statement

/-- What stands in a proper statement is proper. -/
theorem isProper_inner {s : Statement} (h : s.isProper = true) :
    ∀ s' ∈ s.inner, s'.isProper = true := by
  intro s' hs'
  cases s with
  | branch condition yes elifs no =>
    rw [isProper, Bool.and_eq_true, Bool.and_eq_true] at h
    obtain ⟨⟨hyes, helifs⟩, hno⟩ := h
    rw [inner, List.mem_append, List.mem_append, List.mem_flatMap] at hs'
    rcases hs' with (hs' | hs') | ⟨x, hx, hs'⟩
    · exact areProper_iff.1 hyes s' hs'
    · exact areProper_iff.1 hno s' hs'
    · exact areProper_iff.1 (Elif.areProper_iff.1 helifs x hx) s' hs'
  | forLoop name source body => exact areProper_iff.1 h s' hs'
  | whileLoop condition body => exact areProper_iff.1 h s' hs'
  | _ => cases hs'

theorem isList_of_isProper {s : Statement} (h : s.isProper = true) : s.isList = false := by
  cases s with
  | literals => cases h
  | _ => rfl

/-- The tree of a statement has the form of the statement. -/
theorem form?_tree {s : Statement} (h : s.isList = false) : s.tree.form? = s.form? := by
  cases s with
  | compound op name e => cases op <;> rfl
  | literals => cases h
  | _ => rfl

theorem target?_tree {s : Statement} (h : s.isList = false) :
    s.tree.target? = s.target?.map .text := by
  cases s with
  | compound op name e => cases op <;> rfl
  | literals => cases h
  | _ => rfl

theorem filterMap_elifBlock? (xs : List Elif) :
    (Elif.trees xs).filterMap Tree.elifBlock? = xs.map fun x => .list (trees x.body) := by
  induction xs with
  | nil => rfl
  | cons x rest ih =>
    cases x
    rw [Elif.trees, List.map_cons, ← ih]
    rfl

/-- The statements in the blocks of a statement, as trees. -/
theorem inner_tree {s : Statement} (h : s.isList = false) : s.tree.inner = trees s.inner := by
  cases s with
  | branch condition yes elifs no =>
    have hblocks : (Statement.branch condition yes elifs no).tree.blocks =
        .list (trees yes) :: .list (trees no) ::
          (Elif.trees elifs).filterMap Tree.elifBlock? := rfl
    rw [Tree.inner, hblocks, filterMap_elifBlock?]
    simp [inner, trees_eq_map, Tree.items?, List.flatMap_map, List.map_flatMap]
  | forLoop name source body => exact List.append_nil _
  | whileLoop condition body => exact List.append_nil _
  | compound op name e => cases op <;> rfl
  | literals => cases h
  | _ => rfl

end Statement
end Phrase

open Phrase (Statement)

/-! ## What a machine may hold -/

/-- The expression may be put off in a run of the program: it is the right side of one of its
assignments, or the result of a compound assignment. -/
def Phrase.Statement.Suspends (program : List Statement) (e : Tree) : Prop :=
  (∃ name x, Within program (.assign name x) ∧ e = x.tree) ∨ ∃ n, e = .int n

/-- The name is that of a variable which a statement of the program binds. -/
def Phrase.Statement.Binds (program : List Statement) (name : Name) : Prop :=
  ∃ s x, Within program s ∧ s.target? = some x ∧ name = .ofText x

/-- The value is data, or a thunk of the heap whose expression may be put off. -/
def Value.Storable (program : List Statement) (heap : Array Thunk) (v : Value) : Prop :=
  v.isData = true ∨
    ∃ id t, v = .thunk id ∧ heap[id]? = some t ∧ Statement.Suspends program t.expression

/-- What may be held goes on to be so, as thunks keep their expressions. -/
theorem Value.Storable.mono {program : List Statement} {heap heap' : Array Thunk} {v : Value}
    (h : v.Storable program heap)
    (hheap : ∀ {id : Nat} {t : Thunk}, heap[id]? = some t →
      ∃ t', heap'[id]? = some t' ∧ t'.expression = t.expression) : v.Storable program heap' := by
  rcases h with h | ⟨id, t, rfl, ht, he⟩
  · exact .inl h
  · obtain ⟨t', ht', hsame⟩ := hheap ht
    exact .inr ⟨id, t', rfl, ht', hsame ▸ he⟩

/-- A machine that holds nothing but what a run of the program may bring about. -/
structure Machine.Closed (program : List Statement) (m : Machine) : Prop where
  /-- Variables are named by the program. -/
  keys : ∀ name ∈ m.bindings.keys, Statement.Binds program name
  bound : ∀ {name : Name} {v : Value}, m.lookup name = some v → v.Storable program m.heap
  recorded : ∀ {name : Name} {change : Change Value}, change ∈ m.history.of name →
    change.old.Storable program m.heap
  /-- A thunk that was worked out has data for its value. -/
  worked : ∀ {id : Nat} {e : Tree} {v : Value}, m.heap[id]? = some ⟨e, some v⟩ → v.isData = true
  grown : m.lists.Data

/-- Binding a name that is bound brings up no key. -/
theorem Table.keys_insert_of_isSome {κ α : Type} [BEq κ] {t : Table κ α} {key k : κ} {a : α}
    (hkey : (t.get? key).isSome = true) (h : k ∈ (t.insert key a).keys) : k ∈ t.keys := by
  obtain ⟨entries⟩ := t
  change (find key entries).isSome = true at hkey
  change k ∈ (put key a entries).map Prod.fst at h
  show k ∈ entries.map Prod.fst
  induction entries with
  | nil => cases hkey
  | cons p rest ih =>
    obtain ⟨k', b⟩ := p
    rw [find] at hkey
    rw [put] at h
    split at h
    · exact h
    · next hne =>
      rw [if_neg hne] at hkey
      rcases List.mem_cons.1 h with rfl | h
      · exact List.mem_cons_self ..
      · exact List.mem_cons_of_mem _ (ih hkey h)

namespace Machine.Closed

variable {program : List Statement} {m : Machine} (hm : m.Closed program)
include hm

/-- A variable that the program names is bound, or one that was bound before. -/
theorem bind {name : Name} {v : Value}
    (hname : Statement.Binds program name ∨ (m.lookup name).isSome = true)
    (hv : v.Storable program m.heap) :
    Closed program { m with bindings := m.bindings.insert name v } := by
  refine ⟨fun other hother => ?_, fun {other w} hw => ?_, hm.recorded, hm.worked, hm.grown⟩
  · rcases hname with hname | hname
    · rcases Table.keys_insert hother with rfl | hother
      · exact hname
      · exact hm.keys other hother
    · exact hm.keys other (Table.keys_insert_of_isSome hname hother)
  · rw [Machine.lookup, Table.get?_insert] at hw
    split at hw
    · cases hw
      exact hv
    · exact hm.bound hw

/-- Thunks may be made and worked out, as long as they keep their expressions. -/
theorem heap {heap : Array Thunk}
    (hheap : ∀ {id : Nat} {t : Thunk}, m.heap[id]? = some t →
      ∃ t', heap[id]? = some t' ∧ t'.expression = t.expression)
    (hworked : ∀ {id : Nat} {e : Tree} {v : Value}, heap[id]? = some ⟨e, some v⟩ →
      v.isData = true ∨ m.heap[id]? = some ⟨e, some v⟩) : Closed program { m with heap } where
  keys := hm.keys
  bound hv := (hm.bound hv).mono hheap
  recorded hc := (hm.recorded hc).mono hheap
  worked ht := (hworked ht).elim id hm.worked
  grown := hm.grown

/-- A new thunk changes nothing for those that are there. -/
theorem suspend {e : Tree} : Closed program { m with heap := m.heap.push { expression := e } } := by
  refine hm.heap (fun {id t} ht => ?_) fun {id e' v} ht => ?_
  · have hlt : id < m.heap.size := (Array.getElem?_eq_some_iff.1 ht).1
    rw [Array.getElem?_push, if_neg (by omega)]
    exact ⟨t, ht, rfl⟩
  · rw [Array.getElem?_push] at ht
    split at ht
    · cases ht
    · exact .inr ht

/-- A thunk is worked out. -/
theorem settle {id : Nat} {v : Value} (hv : v.isData = true) :
    Closed program { m with
      heap := m.heap.modify id fun t => { t with value? := some v } } := by
  refine hm.heap (fun {j t} ht => ?_) fun {j e w} ht => ?_
  · rw [Array.getElem?_modify]
    split
    · exact ⟨_, congrArg _ ht, rfl⟩
    · exact ⟨t, ht, rfl⟩
  · rw [Array.getElem?_modify] at ht
    split at ht
    · obtain ⟨t, -, hsame⟩ := Option.map_eq_some_iff.1 ht
      cases hsame
      exact .inl hv
    · exact .inr ht

/-- The counts, the memory account, the clock and the output do not matter. -/
theorem congr {m' : Machine} (hbindings : m'.bindings = m.bindings) (hheap : m'.heap = m.heap)
    (hadded : m'.lists.added = m.lists.added) (hhistory : m'.history = m.history) :
    m'.Closed program where
  keys := hbindings ▸ hm.keys
  bound hv := by
    rw [Machine.lookup, hbindings] at hv
    exact hheap ▸ hm.bound hv
  recorded hc := by
    rw [hhistory] at hc
    exact hheap ▸ hm.recorded hc
  worked ht := hm.worked (hheap ▸ ht)
  grown id v hv := by
    rw [Lists.addedTo, hadded] at hv
    exact hm.grown id v hv

end Machine.Closed

/-- A new machine holds nothing. -/
theorem Machine.closed_withEager (program : List Statement) (clock : Clock)
    (eager : List String) : (Machine.withEager clock eager).Closed program :=
  ⟨nofun, nofun, nofun, nofun, nofun⟩

/-! ## Programs -/

/-- **What a machine may hold is an invariant** of all runs of the program. -/
def closure (program : List Statement) : Invariant where
  holds := Machine.Closed program
  runs t := ∃ s, Statement.Within program s ∧ s.isProper = true ∧ s.tree = t
  source := Statement.Suspends program
  named := Statement.Binds program
  value v := v.isData = true
  stored _ heap v := v.Storable program heap
  runs_inner := by
    rintro _ ⟨s, hs, hproper, rfl⟩ t ht
    rw [Statement.inner_tree (Statement.isList_of_isProper hproper), Statement.trees_eq_map] at ht
    obtain ⟨s', hs', rfl⟩ := List.mem_map.1 ht
    exact ⟨s', hs.inner hs', Statement.isProper_inner hproper s' hs', rfl⟩
  source_int n := .inr ⟨n, rfl⟩
  source_assigned := by
    rintro _ tag target e ⟨s, hs, hproper, rfl⟩ hform hparts
    rw [Statement.form?_tree (Statement.isList_of_isProper hproper)] at hform
    cases s with
    | assign name x =>
      cases hparts
      exact .inl ⟨name, x, hs, rfl⟩
    | _ => cases hform
  named_target := by
    rintro _ target name ⟨s, hs, hproper, rfl⟩ htarget hname
    rw [Statement.target?_tree (Statement.isList_of_isProper hproper)] at htarget
    obtain ⟨x, hx, rfl⟩ := Option.map_eq_some_iff.1 htarget
    cases hname
    exact ⟨s, x, hs, hx, rfl⟩
  value_none := rfl
  value_bool _ := rfl
  value_int _ := rfl
  value_text _ := rfl
  value_list := Value.areData_iff
  value_added hm := hm.grown _
  value_worked hm := hm.worked
  value_result hm := Op.isData_onValues hm.grown
  value_successor hm hu := Value.isData_add hm.grown hu rfl
  value_of_stored := by
    rintro _ heap v (hv | ⟨id, t, rfl, -, -⟩)
    · exact .inr hv
    · exact .inl ⟨id, rfl⟩
  stored_value := .inl
  stored_congr _ h := h
  stored_thunk _ _ _ he := .inr ⟨_, _, rfl, Array.getElem?_push_size, he⟩
  stored_bound hm := hm.bound
  stored_recorded hm := hm.recorded
  holds_congr hm hb hh ha hl _ := hm.congr hb hh ha hl
  holds_bind hm := hm.bind
  holds_history hm hh := ⟨hm.keys, hm.bound, hh, hm.worked, hm.grown⟩
  holds_suspend hm _ := hm.suspend
  holds_settle hm := hm.settle
  value_advance hm hu hstep h := by
    obtain ⟨hw, hl⟩ := Value.isData_advance hm.grown hu hstep h
    exact ⟨hw, hm.keys, hm.bound, hm.recorded, hm.worked, hl⟩

/-- The statements of a proper program may be carried out. -/
theorem runs_of_proper {program : List Statement} (hproper : Statement.areProper program = true) :
    ∀ t ∈ Statement.trees program, (closure program).runs t := by
  intro t ht
  rw [Statement.trees_eq_map] at ht
  obtain ⟨s, hs, rfl⟩ := List.mem_map.1 ht
  exact ⟨s, .top hs, Statement.areProper_iff.1 hproper s hs, rfl⟩

/-- Any expression that has a value has data for its value, at any depth of thunks. -/
theorem Machine.Closed.evaluateWith {program : List Statement} {m : Machine}
    (hm : m.Closed program) (depth : Nat) (e : Tree) :
    match Exec.evaluateWith (Exec.forceWithin depth) e m with
    | .ok v m' => v.isData = true ∧ m'.Closed program
    | .error _ m' => m'.Closed program := by
  have hagrees := Invariant.evaluateWith ((closure program).forces_forceWithin True depth) e
    (.refl True hm)
  split
  · next v m' h =>
    obtain ⟨_, -, hm', hv⟩ := hagrees.ok h
    exact ⟨hv, hm'.holds⟩
  · next m' h =>
    obtain ⟨_, -, hm'⟩ := hagrees.error h
    exact hm'.holds

/-- **A proper program stays among data and thunks of its own expressions.**  A new machine is
closed, whatever names are eager.  A run on a closed machine is on a closed machine whenever
something happens, after each statement, and in the end.  On a closed machine every expression that
has a value has data for its value. -/
theorem closed_of_run (program : List Statement) (hproper : Statement.areProper program = true) :
    (∀ clock eager, (Machine.withEager clock eager).Closed program) ∧
    (∀ n m, m.Closed program →
      Run.Everywhere (Machine.Closed program) n (Statement.trees program) m ∧
      (∀ m' ∈ (Run.statements n (Statement.trees program) m).1, m'.Closed program) ∧
      (Run.statements n (Statement.trees program) m).2.2.Closed program) ∧
    ∀ depth e m, m.Closed program →
      match Exec.evaluateWith (Exec.forceWithin depth) e m with
      | .ok v m' => v.isData = true ∧ m'.Closed program
      | .error _ m' => m'.Closed program := by
  refine ⟨Machine.closed_withEager program, fun n m hm => ?_, fun depth e m hm =>
    hm.evaluateWith depth e⟩
  exact (closure program).everywhere n (runs_of_proper hproper) hm

/-- `x = 0`, and `while x < 1:` `for i in [x, "a"]:` `y = i` -/
def Phrase.Statement.mixed : List Statement :=
  [.assign "x" (.literal (.int 0)),
    .whileLoop (.binary (.literal (.name "x")) (.known .lt) (.literal (.int 1)))
      [.forLoop "i" (.items (.literal (.list [.name "x", .string "\"a\""])))
        [.assign "y" (.literal (.name "i"))]]]

/-- A program with loops in each other, a thunk and a list of both. -/
theorem closed_of_run_mixed : Statement.areProper Statement.mixed = true ∧
    (Run.statements 4 (Statement.trees Statement.mixed) (.withEager {} ["x"])).2.1 = none ∧
    (Run.statements 4 (Statement.trees Statement.mixed) (.withEager {} ["x"])).2.2.Closed
      Statement.mixed := by
  have hproper : Statement.areProper Statement.mixed = true := by decide
  obtain ⟨hnew, hclosed, -⟩ := closed_of_run Statement.mixed hproper
  obtain ⟨-, -, hfinal⟩ := hclosed 4 _ (hnew {} ["x"])
  exact ⟨hproper, by cbv, hfinal⟩

end Retrace
