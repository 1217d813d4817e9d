import Retrace.Proofs.Library
import Retrace.Proofs.Moments
import Retrace.Proofs.Phrase

/-!
# Ranges that are given by their end alone

A loop over `range(e)` is meant to be one over `range(0, e)`.  It is read as a range that starts
with an implicit zero, and the checker lets that pass, but no machine can evaluate it: the loop
stops with a fault as soon as it is reached.

So a program in which such ranges are written out is checked and profiled as before, and it goes
through the same steps up to the first loop over a range that was not written out.

Not all ranges of a program need be written out, and they may stand at any depth.  Writing out is
therefore a relation between programs: one range is written out at one place, and this is done any
number of times (`WritesOut`, `WrittenOut`).  What is shown of one place goes on to hold for any
number of them, since both ways in which two runs may be related, to be the same and to be cut
short, can be chained.

Checking and profiling go through a program in the same way, and differ in what they do at each
statement.  They are two instances of one structure (`Pass`), which has the equations that a way
through a program has to satisfy; that a range is written out makes no difference is shown of it.

For runs the relation between the two steps is that one of them is stopped short by the fault of
such a range, and that it has not gone further by then than the other one goes (`Exec.Forestalls`).
To have gone less far is to have written a part of what the other one writes, and to have made fewer
evaluations.  That there are really fewer tells the two runs apart: the one that is stopped
evaluates nothing of the range but its start, and the other one goes on to its end.

* `Statement.WritesOut`, `Statement.WrittenOut`: writing ranges out, at any place of a program.
* `Pass`: the ways to go through a program before it runs, `Check.pass` and `Profile.pass`;
  `Pass.statements_writtenOut`: writing ranges out makes no difference to them.
* `Exec.Forestalls`: steps that are stopped at a range; `Exec.perform_writesOut`.
* `Run.CutShort`, `short_range_stops`: whole runs.
-/

set_option autoImplicit false

namespace Retrace

open Phrase

/-- What a program stops with when it comes to a range that is given by its end alone. -/
def Fault.shortRange : Fault :=
  .exec (.badTuple Grammar.implicitStart)

/-! ## Writing ranges out -/

namespace Phrase

/-- Somewhere in a statement a range that is given by its end alone is written out. -/
inductive Statement.WritesOut : Statement → Statement → Prop
  | here (name : String) (stop : Expression) (body : List Statement) :
      WritesOut (.forLoop name (.upTo stop) body)
        (.forLoop name (.between (.literal (.int 0)) stop) body)
  | yes (condition : Expression) (before after : List Statement) (elifs : List Elif)
      (no : List Statement) {s s' : Statement} (h : WritesOut s s') :
      WritesOut (.branch condition (before ++ s :: after) elifs no)
        (.branch condition (before ++ s' :: after) elifs no)
  | elif (condition guard : Expression) (yes before after : List Statement)
      (first rest : List Elif) (no : List Statement) {s s' : Statement} (h : WritesOut s s') :
      WritesOut (.branch condition yes (first ++ .mk guard (before ++ s :: after) :: rest) no)
        (.branch condition yes (first ++ .mk guard (before ++ s' :: after) :: rest) no)
  | no (condition : Expression) (yes : List Statement) (elifs : List Elif)
      (before after : List Statement) {s s' : Statement} (h : WritesOut s s') :
      WritesOut (.branch condition yes elifs (before ++ s :: after))
        (.branch condition yes elifs (before ++ s' :: after))
  | forBody (name : String) (source : Source) (before after : List Statement) {s s' : Statement}
      (h : WritesOut s s') :
      WritesOut (.forLoop name source (before ++ s :: after))
        (.forLoop name source (before ++ s' :: after))
  | whileBody (condition : Expression) (before after : List Statement) {s s' : Statement}
      (h : WritesOut s s') :
      WritesOut (.whileLoop condition (before ++ s :: after))
        (.whileLoop condition (before ++ s' :: after))

/-- Some of the ranges of a program that are given by their ends alone are written out: none, one,
or one after the other. -/
def Statement.WrittenOut : List Statement → List Statement → Prop :=
  Relation.ReflTransGen fun program program' => ∃ before s s' after,
    Statement.WritesOut s s' ∧ program = before ++ s :: after ∧ program' = before ++ s' :: after

theorem Statement.trees_insert (before : List Statement) (s : Statement)
    (after : List Statement) :
    Statement.trees (before ++ s :: after) =
      Statement.trees before ++ s.tree :: Statement.trees after := by
  rw [Statement.trees_append, Statement.trees]

theorem Elif.trees_append (xs ys : List Elif) :
    Elif.trees (xs ++ ys) = Elif.trees xs ++ Elif.trees ys := by
  induction xs with
  | nil => rfl
  | cons x rest ih => rw [List.cons_append, Elif.trees, Elif.trees, ih, List.cons_append]

end Phrase

/-! ## Checking and profiling

Before a program runs, it is gone through twice: by the checker, which follows what is declared, and
by the profiler, which counts names.  Both put the step of a statement together from the steps of
its blocks, and neither has a step of its own for the start of a range.  That is all that is needed
to see that they take a range for the one that is written out. -/

/-- What goes through a list item by item does not tell apart the items that it treats alike. -/
theorem insert_congr {α β : Type} {f : List α → β} {g : α → β → β}
    (hf : ∀ x rest, f (x :: rest) = g x (f rest)) {x y : α} (h : g x = g y)
    (before after : List α) : f (before ++ x :: after) = f (before ++ y :: after) := by
  induction before with
  | nil => rw [List.nil_append, List.nil_append, hf, hf, h]
  | cons z rest ih => rw [List.cons_append, List.cons_append, hf, hf, ih]

/-- A way to go through programs: a step for each statement, and how it is made up of what is done
with conditions and with blocks.  Of a `for` loop it is only asked that its block counts by its
steps, if it counts at all. -/
structure Pass (σ : Type) where
  condition : Tree → EStateM Fault σ Unit
  node : Tree → EStateM Fault σ Unit
  statements : List Tree → EStateM Fault σ Unit
  elif : Tree → EStateM Fault σ Unit
  elifs : List Tree → EStateM Fault σ Unit
  statements_cons : ∀ t rest, statements (t :: rest) = node t >>= fun _ => statements rest
  elif_eq : ∀ e body, elif (.tuple [e, .list body]) = condition e >>= fun _ => statements body
  elifs_cons : ∀ x rest, elifs (x :: rest) = elif x >>= fun _ => elifs rest
  branch : ∀ e yes xs no, node (.branch e yes xs no) =
    condition e >>= fun _ => statements yes >>= fun _ => elifs xs >>= fun _ => statements no
  whileLoop : ∀ e body, node (.whileLoop e body) = condition e >>= fun _ => statements body
  forLoop : ∀ name source {body body'}, statements body = statements body' →
    node (.forLoop name source body) = node (.forLoop name source body')
  /-- A range is taken for the one that is written out. -/
  range : ∀ name stop body, node (Statement.forLoop name (.upTo stop) body).tree =
    node (Statement.forLoop name (.between (.literal (.int 0)) stop) body).tree

namespace Pass

variable {σ : Type} (p : Pass σ)

/-- A statement may be exchanged for one that is treated alike. -/
theorem statements_insert {s s' : Statement} (h : p.node s.tree = p.node s'.tree)
    (before after : List Statement) :
    p.statements (Statement.trees (before ++ s :: after)) =
      p.statements (Statement.trees (before ++ s' :: after)) := by
  rw [Statement.trees_insert, Statement.trees_insert]
  exact insert_congr (g := fun t rest => p.node t >>= fun _ => rest) p.statements_cons
    (by simp only [h]) _ _

/-- So may the block of a further condition. -/
theorem elifs_insert {guard : Expression} {body body' : List Statement}
    (h : p.statements (Statement.trees body) = p.statements (Statement.trees body'))
    (first rest : List Elif) :
    p.elifs (Elif.trees (first ++ .mk guard body :: rest)) =
      p.elifs (Elif.trees (first ++ .mk guard body' :: rest)) := by
  have helif : p.elif (Elif.mk guard body).tree = p.elif (Elif.mk guard body').tree := by
    rw [Elif.tree, Elif.tree, p.elif_eq, p.elif_eq, h]
  rw [Elif.trees_append, Elif.trees_append]
  exact insert_congr (g := fun x rest => p.elif x >>= fun _ => rest) p.elifs_cons
    (by simp only [helif]) _ _

/-- A pass does not tell a statement from the one in which a range is written out. -/
theorem node_writesOut {s s' : Statement} (h : s.WritesOut s') :
    p.node s.tree = p.node s'.tree := by
  induction h with
  | here name stop body => exact p.range name stop body
  | yes condition before after elifs no _ ih =>
    rw [Statement.tree, Statement.tree, p.branch, p.branch, p.statements_insert ih]
  | elif condition guard yes before after first rest no _ ih =>
    have hbody := p.statements_insert ih before after
    rw [Statement.tree, Statement.tree, p.branch, p.branch, p.elifs_insert hbody]
  | no condition yes elifs before after _ ih =>
    rw [Statement.tree, Statement.tree, p.branch, p.branch, p.statements_insert ih]
  | forBody name source before after _ ih =>
    exact p.forLoop _ _ (p.statements_insert ih before after)
  | whileBody condition before after _ ih =>
    rw [Statement.tree, Statement.tree, p.whileLoop, p.whileLoop, p.statements_insert ih]

/-- Writing ranges out makes no difference before a program runs. -/
theorem statements_writtenOut {program program' : List Statement}
    (h : Statement.WrittenOut program program') :
    p.statements (Statement.trees program) = p.statements (Statement.trees program') := by
  induction h with
  | refl => rfl
  | tail _ hstep ih =>
    obtain ⟨before, s, s', after, hs, rfl, rfl⟩ := hstep
    rw [ih, p.statements_insert (p.node_writesOut hs)]

end Pass

/-- The checker.  What it does about the variable of a loop does not depend on the block. -/
def Check.pass : Pass (Table Name Tree) where
  condition := expression
  node := node
  statements := statements
  elif := elifBranch
  elifs := elifBranchItems
  statements_cons _ _ := rfl
  elif_eq _ _ := rfl
  elifs_cons _ _ := rfl
  branch _ _ _ _ := rfl
  whileLoop _ _ := rfl
  forLoop name source body body' h := by
    show (iterable source >>= fun _ => ofExcept (Name.ofTree name) >>= fun x =>
      get >>= fun names => declare x .none >>= fun _ => statements body >>= fun _ =>
        if !names.contains x then modify fun names => names.erase x else pure ()) = _
    rw [h]
    rfl
  range _ _ _ := rfl

/-- The profiler.  What is in a `for` loop is not counted. -/
def Profile.pass : Pass Profile where
  condition := part
  node := node
  statements := nodes
  elif := elifBranch
  elifs := elifBranchItems
  statements_cons _ _ := rfl
  elif_eq _ _ := rfl
  elifs_cons _ _ := rfl
  branch _ _ _ _ := rfl
  whileLoop _ _ := rfl
  forLoop _ _ _ _ _ := rfl
  range _ _ _ := rfl

/-! ## Carrying out -/

/-- `m'` may come later in a run than `m`: what was written is kept, and evaluations are counted
up. -/
structure Machine.Behind (m m' : Machine) : Prop where
  written : m.pieces <:+ m'.pieces
  evaluations : m.evaluations ≤ m'.evaluations

/-- `m'` comes later in a run than `m`, and something was evaluated in between. -/
structure Machine.FallsBehind (m m' : Machine) : Prop where
  written : m.pieces <:+ m'.pieces
  evaluations : m.evaluations < m'.evaluations

theorem Machine.FallsBehind.behind {m m' : Machine} (h : m.FallsBehind m') : m.Behind m' :=
  ⟨h.written, Nat.le_of_lt h.evaluations⟩

namespace Exec

open Machine (Looks Behind FallsBehind)

/-- To have gone further adds up. -/
theorem onward_behind : Onward Behind where
  refl _ := ⟨List.suffix_refl _, Nat.le_refl _⟩
  trans h h' := ⟨h.written.trans h'.written, Nat.le_trans h.evaluations h'.evaluations⟩

theorem fallsBehind_trans {a b c : Machine} (h : a.FallsBehind b) (h' : b.Behind c) :
    a.FallsBehind c :=
  ⟨h.written.trans h'.written, Nat.lt_of_lt_of_le h.evaluations h'.evaluations⟩

theorem behind_of_looks {m m' : Machine} (h : m.Looks m') : m.Behind m' :=
  ⟨by rw [h.pieces], h.evaluations⟩

theorem behind_of_same {m m' : Machine} (hpieces : m'.pieces = m.pieces)
    (hevaluations : m'.evaluations = m.evaluations) : m.Behind m' :=
  ⟨by rw [hpieces], Nat.le_of_eq hevaluations.symm⟩

theorem modify_behind {f : Machine → Machine} (hpieces : ∀ m, (f m).pieces = m.pieces)
    (hevaluations : ∀ m, (f m).evaluations = m.evaluations) :
    Keeps Behind (modify f : Exec Unit) :=
  keepsOn_of_apply (modify_apply f) fun m => behind_of_same (hpieces m) (hevaluations m)

theorem put_behind (writer : Writer) (s : String) : Keeps Behind (put writer s) :=
  keepsOn_of_apply (put_apply writer s) fun _ => ⟨List.suffix_cons _ _, Nat.le_refl _⟩

theorem charge_behind (v : Value) : Keeps Behind (charge v) := by
  refine keepsOn_bind onward_behind (keepsOn_get onward_behind) fun m => ?_
  refine keepsOn_bind onward_behind (keepsOn_ofExcept onward_behind _) fun memory => ?_
  exact modify_behind (fun _ => rfl) fun _ => rfl

theorem bind_behind (name : Name) (v : Value) : Keeps Behind (bind name v) := by
  refine keepsOn_bind onward_behind (keepsOn_get onward_behind) fun m => ?_
  refine keepsOn_bind onward_behind (keepsOn_ofExcept onward_behind _) fun _ => ?_
  exact modify_behind (fun _ => rfl) fun _ => rfl

theorem advance_behind (v stride : Value) : Keeps Behind (advance unwatched v stride) := by
  have hwatch : Keeps Behind (watchExtension unwatched v) := by
    cases v <;> exact keepsOn_pure onward_behind ()
  refine keepsOn_bind onward_behind hwatch fun _ => ?_
  refine keepsOn_bind onward_behind (keepsOn_get onward_behind) fun m => ?_
  refine keepsOn_bind onward_behind (keepsOn_ofExcept onward_behind _) fun (_, _) => ?_
  refine keepsOn_bind onward_behind ?_ fun _ => keepsOn_pure onward_behind _
  exact modify_behind (fun _ => rfl) fun _ => rfl

theorem prune_behind : Keeps Behind prune := by
  have hclock : Keeps Behind readClock :=
    keepsOn_of_apply (f := fun m => m.clock.read.1)
      (g := fun m => { m with clock := m.clock.read.2 }) (fun _ => rfl)
      fun _ => behind_of_same rfl rfl
  refine keepsOn_bind onward_behind hclock fun now => ?_
  refine keepsOn_bind onward_behind (modify_behind (fun _ => rfl) fun _ => rfl) fun _ => ?_
  refine keepsOn_bind onward_behind (keepsOn_get onward_behind) fun m => ?_
  exact keepsOn_ite (put_behind _ _) (keepsOn_pure onward_behind _)

/-- A step is stopped at a range that is given by its end alone, or it is the other step. -/
abbrev Forestalls {α : Type} (x y : Exec α) : Prop :=
  StopsShort .shortRange Behind FallsBehind x y

/-- Being stopped short goes through all ways to put steps together. -/
theorem watching_forestalls : Watching Forestalls unwatched unwatched where
  bind := stopsShort_bind (S := FallsBehind) onward_behind fun _ _ _ => fallsBehind_trans
  watched _ := stopsShort_refl (keepsOn_pure onward_behind ())
  looking hx := stopsShort_refl (hx.mono (fun _ _ => trivial) fun _ _ => behind_of_looks)
  countAssignment := stopsShort_refl (modify_behind (fun _ => rfl) fun _ => rfl)
  countReversal := stopsShort_refl (modify_behind (fun _ => rfl) fun _ => rfl)
  put writer s := stopsShort_refl (put_behind writer s)
  suspend e := stopsShort_refl (keepsOn_of_apply (suspend_apply e) fun _ => behind_of_same rfl rfl)
  charge v := stopsShort_refl (charge_behind v)
  credit _ := stopsShort_refl (modify_behind (fun _ => rfl) fun _ => rfl)
  remember name old := stopsShort_refl
    (keepsOn_of_apply (remember_apply name old) fun _ => behind_of_same rfl rfl)
  takeBack name := stopsShort_refl
    (keepsOn_of_apply (takeBack_apply name) fun _ => behind_of_same rfl rfl)
  binding name v := stopsShort_refl (bind_behind name v)
  extending v stride := stopsShort_refl (advance_behind v stride)
  prune := stopsShort_refl prune_behind

/-- An evaluation is counted. -/
theorem evaluate_fallsBehind (e : Tree) : Keeps FallsBehind (evaluate e) where
  ok h := ⟨by rw [((evaluate_looks e).ok h).pieces], (evaluate_counts e).ok h⟩
  error hc h := ⟨by rw [((evaluate_looks e).error hc h).pieces], (evaluate_counts e).error hc h⟩

theorem fallsBehind_bind {α β : Type} {x : Exec α} {f : α → Exec β} (hx : Keeps FallsBehind x)
    (hf : ∀ a, Keeps Behind (f a)) (m : Machine) : m.FallsBehind (machineAfter ((x >>= f) m)) := by
  have hfirst := hx.machineAfter m
  rw [bind_apply]
  cases h : x m with
  | ok a m' =>
    rw [h] at hfirst
    exact fallsBehind_trans hfirst ((hf a).machineAfter m')
  | error e m' =>
    rw [h] at hfirst
    exact hfirst

/-- **A loop over a range that is given by its end alone stops at once.**  The start of the range is
counted as evaluated, and nothing else changes. -/
theorem perform_upTo (name : String) (stop : Expression) (body : List Statement) (n : Nat)
    (m : Machine) : perform unwatched (n + 1) (Statement.forLoop name (.upTo stop) body).tree m =
      .error .shortRange { m with evaluations := m.evaluations + 1 } := rfl

/-- The loop over a range that is not written out, and the one over the range that is. -/
theorem perform_here (name : String) (stop : Expression) (body : List Statement) (n : Nat) :
    Forestalls (perform unwatched n (Statement.forLoop name (.upTo stop) body).tree)
      (perform unwatched n
        (Statement.forLoop name (.between (.literal (.int 0)) stop) body).tree) := by
  have hw := watching_forestalls
  cases n with
  | zero => exact hw.throw _
  | succ n =>
    refine ⟨(hw.perform (n + 1) _).keeps, fun m => .inr ⟨_, perform_upTo name stop body n m, ?_⟩⟩
    -- The end of the range is still to be evaluated when the other loop stops.
    obtain ⟨rest, hrest, hkeeps⟩ : ∃ rest : Value → Exec Bool,
        perform unwatched (n + 1)
            (Statement.forLoop name (.between (.literal (.int 0)) stop) body).tree m =
          (evaluate stop.tree >>= rest) { m with evaluations := m.evaluations + 1 } ∧
        ∀ last, Forestalls (rest last) (rest last) := by
      refine ⟨_, rfl, fun last => hw.bind (hw.strideOf _) fun stride => ?_⟩
      refine hw.iterate (fun v => ?_) n _
      refine hw.bind (hw.looking (isLess_looks v last)) fun b => Watching.ite ?_ (hw.pure _)
      refine hw.bind (hw.forPass (hw.block (hw.perform n) _) _ v) fun b => ?_
      exact Watching.ite (hw.bind (hw.advance v stride) fun _ => hw.pure _) (hw.pure _)
    rw [hrest]
    exact fallsBehind_bind (evaluate_fallsBehind _) (fun last => (hkeeps last).keeps) _

/-- A block with a range written out. -/
theorem block_insert {n : Nat} {s s' : Statement}
    (h : Forestalls (perform unwatched n s.tree) (perform unwatched n s'.tree))
    (before after : List Statement) :
    Forestalls (block (perform unwatched n) (.list (Statement.trees (before ++ s :: after))))
      (block (perform unwatched n) (.list (Statement.trees (before ++ s' :: after)))) := by
  rw [Statement.trees_insert, Statement.trees_insert]
  exact watching_forestalls.inOrder_insert (watching_forestalls.perform n) h _ _

/-- Two further conditions of a choice are the same, and the block of one forestalls that of the
other. -/
abbrev SameChoice (n : Nat) (x x' : Tree) : Prop :=
  ∃ condition body body', x.unpack2 = .ok (condition, body) ∧ x'.unpack2 = .ok (condition, body') ∧
    Forestalls (block (perform unwatched n) body) (block (perform unwatched n) body')

theorem sameChoice_refl (n : Nat) (elifs : List Elif) :
    List.Forall₂ (SameChoice n) (Elif.trees elifs) (Elif.trees elifs) := by
  induction elifs with
  | nil => exact .nil
  | cons x rest ih =>
    obtain ⟨condition, body⟩ := x
    refine .cons ⟨_, _, _, rfl, rfl, ?_⟩ ih
    exact watching_forestalls.block (watching_forestalls.perform n) _

/-- A choice forestalls another one if its blocks do. -/
theorem perform_branch {n : Nat} (condition : Expression) {yes yes' no no' : List Tree}
    {elifs elifs' : List Tree}
    (hyes : Forestalls (block (perform unwatched n) (.list yes))
      (block (perform unwatched n) (.list yes')))
    (helifs : List.Forall₂ (SameChoice n) elifs elifs')
    (hno : Forestalls (block (perform unwatched n) (.list no))
      (block (perform unwatched n) (.list no'))) :
    Forestalls (perform unwatched (n + 1) (.branch condition.tree yes elifs no))
      (perform unwatched (n + 1) (.branch condition.tree yes' elifs' no')) := by
  have hw := watching_forestalls
  refine hw.bind (x := evaluateWatched unwatched condition.tree)
    (hw.evaluateWatched condition.tree) fun v => ?_
  refine hw.bind (hw.looking (isTruthy_looks v)) fun b => ?_
  exact Watching.ite hyes (hw.chooseElif_of helifs hno)

theorem perform_forLoop (n : Nat) (name source : Tree) (body : List Tree) :
    perform unwatched (n + 1) (.forLoop name source body) =
      forLoop unwatched (perform unwatched n) n (.forLoop name source body) := rfl

theorem perform_whileLoop (n : Nat) (condition : Tree) (body : List Tree) :
    perform unwatched (n + 1) (.whileLoop condition body) =
      whileLoop unwatched (perform unwatched n) n (.whileLoop condition body) := rfl

/-- A statement is forestalled by the one in which a range is not written out. -/
theorem perform_writesOut {s s' : Statement} (h : s.WritesOut s') (n : Nat) :
    Forestalls (perform unwatched n s.tree) (perform unwatched n s'.tree) := by
  have hw := watching_forestalls
  have hsame (n : Nat) (ss : List Statement) :
      Forestalls (block (perform unwatched n) (.list (Statement.trees ss)))
        (block (perform unwatched n) (.list (Statement.trees ss))) :=
    hw.block (hw.perform n) _
  induction h generalizing n with
  | here name stop body => exact perform_here name stop body n
  | yes condition before after elifs no _ ih =>
    cases n with
    | zero => exact hw.throw _
    | succ n =>
      exact perform_branch _ (block_insert (ih n) before after) (sameChoice_refl n elifs)
        (hsame n no)
  | elif condition guard yes before after first rest no _ ih =>
    cases n with
    | zero => exact hw.throw _
    | succ n =>
      refine perform_branch _ (hsame n yes) ?_ (hsame n no)
      rw [Elif.trees_append, Elif.trees_append]
      refine List.rel_append (sameChoice_refl n first) (.cons ?_ (sameChoice_refl n rest))
      exact ⟨_, _, _, rfl, rfl, block_insert (ih n) before after⟩
  | no condition yes elifs before after _ ih =>
    cases n with
    | zero => exact hw.throw _
    | succ n =>
      exact perform_branch _ (hsame n yes) (sameChoice_refl n elifs)
        (block_insert (ih n) before after)
  | forBody name source before after _ ih =>
    cases n with
    | zero => exact hw.throw _
    | succ n =>
      rw [Statement.tree, Statement.tree, perform_forLoop, perform_forLoop]
      exact hw.forLoop_of (block_insert (ih n) before after) n rfl rfl
  | whileBody condition before after _ ih =>
    cases n with
    | zero => exact hw.throw _
    | succ n =>
      rw [Statement.tree, Statement.tree, perform_whileLoop, perform_whileLoop]
      exact hw.whileLoop_of (block_insert (ih n) before after) n rfl rfl

end Exec

/-! ## Runs -/

namespace Run

open Exec

/-- What comes of some statements: it is the same, or a range that is given by its end alone stops
them before the other ones are done. -/
def Forestalled (x y : List Machine × Option Fault × Machine) : Prop :=
  x = y ∨ x.2.1 = some .shortRange ∧ x.1 <+: y.1 ∧ x.2.2.FallsBehind y.2.2

theorem Forestalled.refl (x : List Machine × Option Fault × Machine) : Forestalled x x :=
  .inl rfl

/-- Written out at one place after another. -/
theorem Forestalled.trans {x y z : List Machine × Option Fault × Machine}
    (hxy : Forestalled x y) (hyz : Forestalled y z) : Forestalled x z := by
  rcases hxy with rfl | ⟨hfault, hsteps, hfinal⟩
  · exact hyz
  · rcases hyz with rfl | ⟨-, hsteps', hfinal'⟩
    · exact .inr ⟨hfault, hsteps, hfinal⟩
    · exact .inr ⟨hfault, hsteps.trans hsteps', fallsBehind_trans hfinal hfinal'.behind⟩

theorem statements_behind (n : Nat) (program : List Tree) (m : Machine) :
    m.Behind (statements n program m).2.2 := by
  induction program generalizing m with
  | nil => exact onward_behind.refl m
  | cons t rest ih =>
    have hstep := (watching_forestalls.topLevel n t).keeps.machineAfter m
    rw [statements, statementsWatched]
    cases htop : topLevel unwatched n t m with
    | ok _ m' =>
      rw [htop] at hstep
      exact onward_behind.trans hstep (ih m')
    | error e m' =>
      rw [htop] at hstep
      exact hstep

theorem statements_insert {s s' : Statement} (h : s.WritesOut s') (n : Nat)
    (before after : List Tree) (m : Machine) :
    Forestalled (statements n (before ++ s.tree :: after) m)
      (statements n (before ++ s'.tree :: after) m) := by
  induction before generalizing m with
  | nil =>
    rw [List.nil_append, List.nil_append, statements, statements, statementsWatched,
      statementsWatched]
    rcases (watching_forestalls.topLevel_of (perform_writesOut h n)).stops m with
      hsame | ⟨mid, hstop, hmid⟩
    · rw [hsame]
      exact .refl _
    · rw [hstop]
      refine .inr ⟨rfl, List.nil_prefix, ?_⟩
      cases htop : topLevel unwatched n s'.tree m with
      | ok _ m' =>
        rw [htop] at hmid
        exact fallsBehind_trans hmid (statements_behind n after m')
      | error e m' =>
        rw [htop] at hmid
        exact hmid
  | cons x rest ih =>
    rw [List.cons_append, List.cons_append, statements, statements, statementsWatched,
      statementsWatched]
    cases topLevel unwatched n x m with
    | ok _ m' =>
      rcases ih m' with hsame | ⟨hfault, hsteps, hfinal⟩
      · rw [statements, statements] at hsame
        simp only [hsame]
        exact .refl _
      · exact .inr ⟨hfault, List.cons_prefix_cons.2 ⟨rfl, hsteps⟩, hfinal⟩
    | error e m' => exact .refl _

/-- The statements of a program are forestalled by those in which fewer ranges are written out. -/
theorem statements_writtenOut {program program' : List Statement}
    (h : Statement.WrittenOut program program') (n : Nat) (m : Machine) :
    Forestalled (statements n (Statement.trees program) m)
      (statements n (Statement.trees program') m) := by
  induction h with
  | refl => exact .refl _
  | tail _ hstep ih =>
    obtain ⟨before, s, s', after, hs, rfl, rfl⟩ := hstep
    refine ih.trans ?_
    rw [Statement.trees_insert, Statement.trees_insert]
    exact statements_insert hs n _ _ m

theorem profile_writtenOut {program program' : List Statement}
    (h : Statement.WrittenOut program program') :
    profile (Statement.trees program) = profile (Statement.trees program') := by
  have hnodes :
      Profile.nodes (Statement.trees program) = Profile.nodes (Statement.trees program') :=
    Profile.pass.statements_writtenOut h
  rw [profile, Profile.program, hnodes]
  rfl

theorem check_writtenOut {program program' : List Statement}
    (h : Statement.WrittenOut program program') :
    check (Statement.trees program) = check (Statement.trees program') := by
  have hstatements :
      Check.statements (Statement.trees program) = Check.statements (Statement.trees program') :=
    Check.pass.statements_writtenOut h
  rw [check, Check.run, Check.program, hstatements]
  rfl

/-- A run is cut short by a range that is given by its end alone.  The other run goes through the
same statements, writes the same and more, and evaluates more than this one does.  The last piece
that is written says what the run cost. -/
structure CutShort (r r' : Report) : Prop where
  fault : r.fault? = some .shortRange
  steps : r.steps <+: r'.steps
  written : r.final.pieces.tail <:+ r'.final.pieces
  evaluations : r.final.evaluations < r'.final.evaluations

theorem withCosts_pieces (fault? : Option Fault) (m : Machine) :
    m.pieces <:+ (withCosts fault? m).pieces := by
  unfold withCosts
  split
  · exact List.suffix_refl _
  · exact List.suffix_cons _ _

theorem withCosts_evaluations (fault? : Option Fault) (m : Machine) :
    (withCosts fault? m).evaluations = m.evaluations := by
  unfold withCosts
  split <;> rfl

/-- Whole runs are the same, or one is cut short. -/
theorem execute_writtenOut {program program' : List Statement}
    (h : Statement.WrittenOut program program') (n : Nat) (m : Machine) :
    execute n (Statement.trees program) m = execute n (Statement.trees program') m ∨
      CutShort (execute n (Statement.trees program) m)
        (execute n (Statement.trees program') m) := by
  rw [execute, execute, profile_writtenOut h]
  cases (do Exec.put .machine title; profile (Statement.trees program') : Exec Unit) m with
  | error e m' => exact .inl rfl
  | ok _ m' =>
    rcases statements_writtenOut h n m' with hsame | ⟨hfault, hsteps, hfinal⟩
    · left
      simp only [hsame]
    · refine .inr ⟨hfault, hsteps, ?_, ?_⟩
      · simp only [hfault]
        exact hfinal.written.trans (withCosts_pieces _ _)
      · simp only [withCosts_evaluations]
        exact hfinal.evaluations

theorem execute_fault? (n : Nat) (program : List Tree) (m : Machine) :
    (execute n program m).fault? =
      match (do Exec.put .machine title; profile program : Exec Unit) m with
      | .error e _ => some e
      | .ok _ m' => (statements n program m').2.1 := by
  rw [execute]
  cases (do Exec.put .machine title; profile program : Exec Unit) m <;> rfl

theorem source_of_read {text : String} {program : List Tree} (h : read text = .ok program) :
    source text = check program >>= fun _ => .ok (execute plenty program (Machine.new {})) := by
  rw [source, compile, h]
  show (check program >>= fun _ => _) >>= _ = _
  rw [bind_assoc]
  rfl

end Run

/-- **A loop over a range that is given by its end alone stops a program, and makes no other
difference.**  However many of these ranges are written out, in whatever blocks they stand: the
program runs as before, from any machine, or without that it is cut short.  The same goes for the
texts of such programs, and one of them passes the checks if the other one does.  To carry out such
a loop, on any machine, is to stop at once. -/
theorem short_range_stops {program program' : List Statement}
    (h : Statement.WrittenOut program program') :
    (∀ n m, Run.execute n (Statement.trees program) m = Run.execute n (Statement.trees program') m ∨
      Run.CutShort (Run.execute n (Statement.trees program) m)
        (Run.execute n (Statement.trees program') m)) ∧
    (∀ text text', Run.read text = .ok (Statement.trees program) →
      Run.read text' = .ok (Statement.trees program') →
      (∃ e, Run.source text = .error e ∧ Run.source text' = .error e) ∨
      ∃ r r', Run.source text = .ok r ∧ Run.source text' = .ok r' ∧ (r = r' ∨ Run.CutShort r r')) ∧
    ∀ name stop body n m,
      Exec.carryOut (n + 1) (Statement.forLoop name (.upTo stop) body).tree m =
        .error .shortRange { m with evaluations := m.evaluations + 1 } := by
  refine ⟨Run.execute_writtenOut h, fun text text' htext htext' => ?_, fun _ _ _ _ _ => rfl⟩
  rw [Run.source_of_read htext, Run.source_of_read htext', Run.check_writtenOut h]
  cases Run.check (Statement.trees program') with
  | error e => exact .inl ⟨e, rfl, rfl⟩
  | ok _ => exact .inr ⟨_, _, rfl, rfl, Run.execute_writtenOut h _ _⟩

/-- A loop inside of a branch, with a statement in front of both. -/
def guardedLoop (source : Source) : List Statement :=
  [.print (.literal (.string "\"a\"")) [],
   .branch (.literal (.int 1)) [.forLoop "i" source [.print (.literal (.string "\"b\"")) []]] [] []]

/-- The text of such a program. -/
def shortRangeText : String :=
  "print(\"a\")\nif 1:\n    for i in range(2):\n        print(\"b\")\n"

/-- The same text with the range written out. -/
def longRangeText : String :=
  "print(\"a\")\nif 1:\n    for i in range(0, 2):\n        print(\"b\")\n"

theorem read_guardedLoop_upTo :
    Run.read shortRangeText = .ok (Statement.trees (guardedLoop (.upTo (.literal (.int 2))))) := by
  cbv

theorem read_guardedLoop_between :
    Run.read longRangeText =
      .ok (Statement.trees (guardedLoop (.between (.literal (.int 0)) (.literal (.int 2))))) := by
  cbv

theorem writtenOut_guardedLoop (stop : Expression) :
    Statement.WrittenOut (guardedLoop (.upTo stop))
      (guardedLoop (.between (.literal (.int 0)) stop)) :=
  .single ⟨[_], _, _, [], .yes _ [] [] [] [] (.here "i" stop _), rfl, rfl⟩

/-- A program with such a loop inside of a choice, and the one in which its range is written out. -/
theorem short_range_stops_guardedLoop :
    (∃ e, Run.source shortRangeText = .error e ∧ Run.source longRangeText = .error e) ∨
    ∃ r r', Run.source shortRangeText = .ok r ∧ Run.source longRangeText = .ok r' ∧
      (r = r' ∨ Run.CutShort r r') :=
  (short_range_stops (writtenOut_guardedLoop _)).2.1 _ _ read_guardedLoop_upTo
    read_guardedLoop_between

/-- Written out, the loop comes to its end.  With the end of its range alone it is not even
begun. -/
theorem guardedLoop_differs :
    ∃ r r', Run.source shortRangeText = .ok r ∧ Run.source longRangeText = .ok r' ∧
      r.fault? = some .shortRange ∧ r'.fault? = none := by
  have hcheck : Run.check (Statement.trees (guardedLoop (.upTo (.literal (.int 2))))) = .ok () := by
    cbv
  rw [Run.source_of_read read_guardedLoop_upTo, Run.source_of_read read_guardedLoop_between,
    ← Run.check_writtenOut (writtenOut_guardedLoop _), hcheck]
  refine ⟨_, _, rfl, rfl, ?_, ?_⟩
  · rw [Run.execute_fault?]
    cbv
  · rw [Run.execute_fault?]
    cbv

end Retrace
