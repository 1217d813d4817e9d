import Mathlib.Data.List.Forall2
import Retrace.Proofs.Keeping
import Retrace.Run

/-!
# One statement under two watches

A statement may be carried out under two watches, and the two steps are made up of the same single
changes in the same order; they differ only where a watch is told of an event.  So any relation
between steps that goes through sequences of steps, and that holds between the two watches and
between each single change and itself, holds between the two statements.

`Watching` lists what has to be shown of a relation for that, and `Watching.perform` is the
induction.  It goes as the one for what a statement keeps does, but with two steps in the place of
one.

The relation is one between steps of any type of result, and nothing is said of what it means: it
may be that one step comes to the same end as the other wherever it comes to one, that one was
stopped before the other, or that the first one keeps something, whatever the other one is.  Thus a
framework that is about two watches serves for facts about one, and also for facts in which both
watches are the same and the two steps differ in something else.  For these the lemmas on loops and
choices are stated with two blocks, which need only be related as steps, and not be the same tree
(`whileLoop_of`, `forLoop_of`, `chooseElif_of`).

Looking at the machine needs no lemma for each way to look: all of these are covered by one entry of
the list, as looking is what both steps do alike.

* `Watching`: what has to be shown of a relation.
* `Watching.perform`: what follows for statements, and `Watching.topLevel` for those of a program.
* `inOrder_insert`: two blocks that differ in one statement.
-/

set_option autoImplicit false

namespace Retrace
namespace Exec

theorem ofExcept_ok_bind {α β : Type} (a : α) (f : α → Exec β) :
    (ofExcept (.ok a) >>= f) = f a := rfl

/-- A step of a counting loop tells the watch, and then it does what it does unwatched. -/
theorem advance_eq (watch : Watch) (v stride : Value) :
    advance watch v stride = watchExtension watch v >>= fun _ => advance unwatched v stride := by
  cases v <;> rfl

/-- What has to be shown of a relation between steps to see that it holds between one statement
under two watches. -/
structure Watching (rel : ∀ {α : Type}, Exec α → Exec α → Prop) (watch watch' : Watch) : Prop where
  bind : ∀ {α β : Type} {x y : Exec α} {f g : α → Exec β},
    rel x y → (∀ a, rel (f a) (g a)) → rel (x >>= f) (y >>= g)
  watched : ∀ event, rel (watch event) (watch' event)
  looking : ∀ {α : Type} {x : Exec α}, Keeps Machine.Looks x → rel x x
  countAssignment : rel countAssignment countAssignment
  countReversal : rel countReversal countReversal
  put : ∀ writer s, rel (put writer s) (put writer s)
  suspend : ∀ e, rel (suspend e) (suspend e)
  charge : ∀ v, rel (charge v) (charge v)
  credit : ∀ v, rel (credit v) (credit v)
  remember : ∀ name old, rel (remember name old) (remember name old)
  takeBack : ∀ name, rel (takeBack name) (takeBack name)
  binding : ∀ name v, rel (Exec.bind name v) (Exec.bind name v)
  extending : ∀ v stride, rel (advance unwatched v stride) (advance unwatched v stride)
  prune : rel prune prune

namespace Watching

variable {rel : ∀ {α : Type}, Exec α → Exec α → Prop} {watch watch' : Watch}
variable (hk : Watching rel watch watch')
include hk

/-! ## Ways to put steps together -/

variable {α β σ : Type}

theorem pure (a : α) : rel (pure a) (pure a) := hk.looking (keepsOn_pure onward_looks a)

theorem throw (e : Fault) : rel (throw e : Exec α) (throw e) :=
  hk.looking (keepsOn_throw onward_looks e)

theorem ofExcept (r : Except Fault α) : rel (ofExcept r) (ofExcept r) :=
  hk.looking (keepsOn_ofExcept onward_looks r)

/-- After a look at the machine steps may depend on what was seen. -/
theorem get_bind {f g : Machine → Exec α} (hf : ∀ m, rel (f m) (g m)) :
    rel (get >>= f) (get >>= g) :=
  hk.bind (hk.looking (keepsOn_get onward_looks)) hf

omit hk in
theorem ite {c : Prop} [Decidable c] {x y x' y' : Exec α} (hx : rel x x') (hy : rel y y') :
    rel (if c then x else y) (if c then x' else y') := by
  split
  · exact hx
  · exact hy

theorem mapM {xs : List β} {f g : β → Exec α} (hf : ∀ x, rel (f x) (g x)) :
    rel (xs.mapM f) (xs.mapM g) := by
  induction xs with
  | nil => exact hk.pure []
  | cons x rest ih =>
    rw [List.mapM_cons, List.mapM_cons]
    exact hk.bind (hf x) fun _ => hk.bind ih fun _ => hk.pure _

/-- A loop, pass by pass. -/
theorem iterate {pass pass' : σ → Exec (σ ⊕ Bool)} (hp : ∀ s, rel (pass s) (pass' s)) (n : Nat)
    (s : σ) : rel (iterate pass n s) (iterate pass' n s) := by
  induction n generalizing s with
  | zero => exact hk.throw _
  | succ n ih =>
    refine hk.bind (hp s) fun r => ?_
    cases r with
    | inl s' => exact ih s'
    | inr b => exact hk.pure b

/-- The statements of a block, in order. -/
theorem inOrder {run run' : Tree → Exec Bool} (hrun : ∀ t, rel (run t) (run' t))
    (ts : List Tree) : rel (inOrder run ts) (inOrder run' ts) := by
  induction ts with
  | nil => exact hk.pure true
  | cons t rest ih => exact hk.bind (hrun t) fun _ => ite ih (hk.pure false)

/-! ## Statements -/

/-- The watch is told of the expression, and then it is evaluated. -/
theorem evaluateWatched (e : Tree) :
    rel (evaluateWatched watch e) (evaluateWatched watch' e) :=
  hk.bind (hk.watched _) fun _ => hk.looking (evaluate_looks e)

/-- The watch is told of the binding, and then it is made. -/
theorem bindWatched (name : Name) (v : Value) :
    rel (bindWatched watch name v) (bindWatched watch' name v) :=
  hk.bind (hk.watched _) fun _ => hk.binding name v

theorem replace (name : Name) (new : Value) :
    rel (replace watch name new) (replace watch' name new) := by
  refine hk.get_bind fun m => ?_
  refine hk.bind (hk.charge new) fun _ => ?_
  have hrest := hk.bind (hk.remember name ((m.lookup name).getD .none))
    fun _ => hk.bindWatched name new
  exact ite (hk.bind (hk.credit _) fun _ => hrest) hrest

theorem assign (t : Tree) : rel (assign watch t) (assign watch' t) := by
  refine hk.bind hk.countAssignment fun _ => ?_
  refine hk.bind (hk.ofExcept _) fun (_, target, e) => ?_
  refine hk.bind (hk.ofExcept _) fun name => ?_
  have hvalue : rel (valueFor watch name e) (valueFor watch' name e) :=
    hk.get_bind fun m =>
      ite (hk.evaluateWatched e) (hk.suspend e)
  exact hk.bind hvalue fun new => hk.replace name new

theorem wordFor (name : Name) (result : Int) :
    rel (wordFor name result) (wordFor name result) :=
  hk.get_bind fun _ => ite (hk.pure _) (hk.suspend _)

/-- The variable and the operand are looked at, and what they come to is bound. -/
theorem compound (op : Compound) (t : Tree) :
    rel (compound watch op t) (compound watch' op t) := by
  refine hk.bind (hk.ofExcept _) fun (_, target, e) => ?_
  refine hk.bind (hk.ofExcept _) fun name => ?_
  refine hk.bind (hk.looking (valueOfName_looks name)) fun current => ?_
  refine hk.bind (hk.evaluateWatched e) fun v => ?_
  refine hk.bind (hk.looking (resolve_looks force_looks v)) fun operand => ?_
  refine hk.bind (hk.remember name current) fun _ => ?_
  split
  · exact hk.throw _
  · split
    · exact hk.throw _
    · refine hk.bind (hk.wordFor name _) fun new => ?_
      exact hk.bindWatched name new

theorem putBack (name : Name) (old : Value) :
    rel (putBack watch name old) (putBack watch' name old) := by
  refine ite ?_ (hk.pure ())
  refine hk.bind (hk.bindWatched name old) fun _ => ?_
  refine hk.bind (hk.credit old) fun _ => ?_
  exact hk.charge old

/-- The last entry is taken off and put back. -/
theorem reverse (t : Tree) : rel (reverse watch t) (reverse watch' t) := by
  refine hk.bind hk.countReversal fun _ => ?_
  refine hk.bind (hk.ofExcept _) fun (_, target) => ?_
  refine hk.bind (hk.ofExcept _) fun name => ?_
  refine hk.bind (hk.takeBack name) fun old => ?_
  cases old with
  | none => exact hk.pure ()
  | some v => exact hk.putBack name v

theorem revtrace (t : Tree) : rel (revtrace watch t) (revtrace watch' t) := by
  have hshown (v : Value) : rel (shown v) (shown v) := hk.looking (shown_looks v)
  refine hk.bind (hk.ofExcept _) fun (_, target, e) => ?_
  refine hk.bind (hk.evaluateWatched e) fun position => ?_
  refine hk.bind (hk.ofExcept _) fun name => ?_
  refine hk.get_bind fun m => ?_
  refine hk.bind (hk.looking (view_looks position)) fun seen => ?_
  refine hk.bind (hk.ofExcept _) fun old => ?_
  split
  · refine hk.bind (hshown position) fun _ => ?_
    exact hk.bind (hshown _) fun _ => hk.put _ _
  · exact hk.bind (hshown position) fun _ => hk.put _ _

theorem printedAll (es : List Tree) :
    rel (printedAll watch es) (printedAll watch' es) := by
  induction es with
  | nil => exact hk.pure []
  | cons e rest ih =>
    refine hk.bind (hk.evaluateWatched e) fun v => ?_
    refine hk.bind (hk.looking (printed_looks v)) fun _ => ?_
    exact hk.bind ih fun _ => hk.pure _

theorem print (t : Tree) : rel (print watch t) (print watch' t) := by
  refine hk.bind (hk.ofExcept _) fun (_, values) => ?_
  refine hk.bind (hk.ofExcept _) fun es => ?_
  exact hk.bind (hk.printedAll es) fun _ => hk.put _ _

theorem chooseElif (no : Tree) (elifs : List Tree) :
    rel (chooseElif watch no elifs) (chooseElif watch' no elifs) := by
  induction elifs with
  | nil => exact hk.pure no
  | cons x rest ih =>
    refine hk.bind (hk.ofExcept _) fun (condition, body) => ?_
    refine hk.bind (hk.evaluateWatched condition) fun v => ?_
    refine hk.bind (hk.looking (isTruthy_looks v)) fun b => ?_
    exact ite (hk.pure body) ih

theorem increment (counter : Tree) :
    rel (increment watch counter) (increment watch' counter) := by
  refine hk.bind (hk.ofExcept _) fun name => ?_
  refine hk.get_bind fun m => ?_
  refine hk.bind (hk.looking (view_looks _)) fun seen => ?_
  refine hk.bind (hk.evaluateWatched _) fun v => ?_
  refine hk.get_bind fun m' => ?_
  exact hk.bind (hk.ofExcept _) fun w => hk.bindWatched name w

theorem advance (v stride : Value) : rel (advance watch v stride) (advance watch' v stride) := by
  have hwatch : rel (watchExtension watch v) (watchExtension watch' v) := by
    cases v with
    | list id items => exact hk.watched _
    | _ => exact hk.pure ()
  rw [advance_eq, advance_eq watch']
  exact hk.bind hwatch fun _ => hk.extending v stride

theorem strideOf (step : Tree) : rel (strideOf watch step) (strideOf watch' step) :=
  ite (hk.evaluateWatched step) (hk.pure _)

section Loops

variable {run run' : Tree → Exec Bool} {body body' : Tree}
variable (hbody : rel (Exec.block run body) (Exec.block run' body'))
include hbody

/-- A loop with a condition, if the blocks are related. -/
theorem plainLoop (n : Nat) (condition : Tree) :
    rel (plainLoop watch run n condition body) (plainLoop watch' run' n condition body') := by
  refine hk.iterate (fun _ => ?_) n ()
  refine hk.bind (hk.evaluateWatched condition) fun v => ?_
  refine hk.bind (hk.looking (isTruthy_looks v)) fun b => ?_
  refine ite ?_ (hk.pure _)
  exact hk.bind hbody fun _ => hk.pure _

theorem countingLoop (n : Nat) (counter stop : Tree) :
    rel (countingLoop watch run n counter stop body)
      (countingLoop watch' run' n counter stop body') := by
  refine hk.bind (hk.evaluateWatched stop) fun last => ?_
  refine hk.iterate (fun _ => ?_) n ()
  refine hk.bind (hk.evaluateWatched counter) fun v => ?_
  refine hk.bind (hk.looking (isLess_looks v last)) fun b => ?_
  refine ite ?_ (hk.pure _)
  refine hk.bind hbody fun b => ?_
  refine ite ?_ (hk.pure _)
  exact hk.bind (hk.increment counter) fun _ => hk.pure _

/-- `while` loops with the same condition. -/
theorem whileLoop_of (n : Nat) {t t' tag tag' condition : Tree}
    (ht : t.unpack3 = .ok (tag, condition, body))
    (ht' : t'.unpack3 = .ok (tag', condition, body')) :
    rel (whileLoop watch run n t) (whileLoop watch' run' n t') := by
  rw [Exec.whileLoop, Exec.whileLoop, ht, ht', ofExcept_ok_bind, ofExcept_ok_bind]
  dsimp only
  split
  · exact ite (hk.countingLoop hbody n _ _) (hk.plainLoop hbody n _)
  · exact hk.plainLoop hbody n _

/-- The variable is bound, and the block carried out. -/
theorem forPass (target : Tree) (v : Value) :
    rel (forPass watch run target body v) (forPass watch' run' target body' v) := by
  refine hk.bind (hk.ofExcept _) fun name => ?_
  exact hk.bind (hk.bindWatched name v) fun _ => hbody

theorem rangeLoop (n : Nat) (target range : Tree) :
    rel (rangeLoop watch run n target range body)
      (rangeLoop watch' run' n target range body') := by
  refine hk.bind (hk.ofExcept _) fun (_, start, stop, step) => ?_
  refine hk.bind (hk.evaluateWatched start) fun first => ?_
  refine hk.bind (hk.evaluateWatched stop) fun last => ?_
  refine hk.bind (hk.strideOf step) fun stride => ?_
  refine hk.iterate (fun v => ?_) n first
  refine hk.bind (hk.looking (isLess_looks v last)) fun b => ?_
  refine ite ?_ (hk.pure _)
  refine hk.bind (hk.forPass hbody target v) fun b => ?_
  refine ite ?_ (hk.pure _)
  exact hk.bind (hk.advance v stride) fun _ => hk.pure _

/-- A pass for each value. -/
theorem eachLoop (target : Tree) (vs : List Value) :
    rel (eachLoop watch run target body vs) (eachLoop watch' run' target body' vs) := by
  induction vs with
  | nil => exact hk.pure true
  | cons v rest ih =>
    exact hk.bind (hk.forPass hbody target v) fun _ => ite ih (hk.pure false)

/-- Passes for what the list was extended by in the meantime. -/
theorem laterLoop (n : Nat) (target : Tree) (id : Nat) :
    rel (laterLoop watch run n target body id) (laterLoop watch' run' n target body' id) := by
  refine hk.iterate (fun k => hk.get_bind fun m => ?_) n 0
  split
  · next v _ => exact hk.bind (hk.forPass hbody target v) fun _ => hk.pure _
  · exact hk.pure _

theorem itemLoop (n : Nat) (target source : Tree) (v : Value) :
    rel (itemLoop watch run n target source body v)
      (itemLoop watch' run' n target source body' v) := by
  cases v with
  | list id items =>
    refine hk.bind (hk.eachLoop hbody target items) fun b => ?_
    exact ite (hk.laterLoop hbody n target id) (hk.pure true)
  | text s => exact hk.bind (hk.eachLoop hbody target _) fun _ => hk.pure true
  | _ => exact hk.throw _

/-- `for` loops with the same variable that go through the same. -/
theorem forLoop_of (n : Nat) {t t' tag tag' target source : Tree}
    (ht : t.unpack4 = .ok (tag, target, source, body))
    (ht' : t'.unpack4 = .ok (tag', target, source, body')) :
    rel (forLoop watch run n t) (forLoop watch' run' n t') := by
  rw [Exec.forLoop, Exec.forLoop, ht, ht', ofExcept_ok_bind, ofExcept_ok_bind]
  refine hk.bind (hk.ofExcept source.head) fun first => ?_
  refine ite (hk.rangeLoop hbody n target source) ?_
  split
  · refine hk.bind (hk.mapM fun e => hk.evaluateWatched e) fun vs => ?_
    exact hk.bind (hk.eachLoop hbody target vs) fun _ => hk.pure true
  · exact hk.bind (hk.evaluateWatched _) fun v => hk.itemLoop hbody n target _ v

end Loops

/-- Choices with the same conditions between blocks.  A block is chosen and then carried out. -/
theorem chooseElif_of {run run' : Tree → Exec Bool} {no no' : Tree} {elifs elifs' : List Tree}
    (helifs : List.Forall₂ (fun x x' => ∃ condition body body', x.unpack2 = .ok (condition, body) ∧
      x'.unpack2 = .ok (condition, body') ∧ rel (Exec.block run body) (Exec.block run' body'))
      elifs elifs')
    (hno : rel (Exec.block run no) (Exec.block run' no')) :
    rel (Exec.chooseElif watch no elifs >>= Exec.block run)
      (Exec.chooseElif watch' no' elifs' >>= Exec.block run') := by
  induction helifs with
  | nil => exact hno
  | cons hx _ ih =>
    obtain ⟨condition, body, body', hx, hx', hbody⟩ := hx
    rw [Exec.chooseElif, Exec.chooseElif, hx, hx', ofExcept_ok_bind, ofExcept_ok_bind]
    simp only [bind_assoc]
    refine hk.bind (hk.evaluateWatched condition) fun v => ?_
    refine hk.bind (hk.looking (isTruthy_looks v)) fun b => ?_
    cases b with
    | true => exact hbody
    | false => exact ih

section Blocks

variable {run run' : Tree → Exec Bool} (hrun : ∀ t, rel (run t) (run' t))
include hrun

theorem block (body : Tree) : rel (block run body) (block run' body) :=
  hk.bind (hk.ofExcept _) fun ts => hk.inOrder hrun ts

theorem branch (t : Tree) : rel (branch watch run t) (branch watch' run' t) := by
  refine hk.bind (hk.ofExcept _) fun (_, condition, yes, elifs, no) => ?_
  refine hk.bind (hk.evaluateWatched condition) fun v => ?_
  refine hk.bind (hk.looking (isTruthy_looks v)) fun b => ?_
  refine ite (hk.block hrun yes) ?_
  refine hk.bind (hk.ofExcept _) fun xs => ?_
  exact hk.bind (hk.chooseElif no xs) fun chosen => hk.block hrun chosen

theorem whileLoop (n : Nat) (t : Tree) :
    rel (whileLoop watch run n t) (whileLoop watch' run' n t) := by
  cases ht : t.unpack3 with
  | error e =>
    rw [Exec.whileLoop, Exec.whileLoop, ht]
    exact hk.throw e
  | ok parts =>
    obtain ⟨tag, condition, body⟩ := parts
    exact hk.whileLoop_of (hk.block hrun body) n ht ht

theorem forLoop (n : Nat) (t : Tree) :
    rel (forLoop watch run n t) (forLoop watch' run' n t) := by
  cases ht : t.unpack4 with
  | error e =>
    rw [Exec.forLoop, Exec.forLoop, ht]
    exact hk.throw e
  | ok parts =>
    obtain ⟨tag, target, source, body⟩ := parts
    exact hk.forLoop_of (hk.block hrun body) n ht ht

/-- One statement, if all statements inside of it are related. -/
theorem statement (n : Nat) (t : Tree) :
    rel (statement watch run n t) (statement watch' run' n t) := by
  have simple {x y : Exec Unit} (h : rel x y) : rel (simply x) (simply y) :=
    hk.bind h fun _ => hk.pure true
  refine hk.bind (hk.ofExcept _) fun tag => ?_
  split
  · exact simple (hk.assign t)
  · exact simple (hk.compound _ t)
  · exact simple (hk.reverse t)
  · exact simple (hk.revtrace t)
  · exact hk.branch hrun t
  · exact hk.forLoop hrun n t
  · exact hk.whileLoop hrun n t
  · exact simple (hk.print t)
  · exact hk.pure false
  · exact hk.throw _

/-- Blocks that differ in one statement. -/
theorem inOrder_insert {t t' : Tree} (h : rel (run t) (run' t')) (before after : List Tree) :
    rel (Exec.inOrder run (before ++ t :: after)) (Exec.inOrder run' (before ++ t' :: after)) := by
  induction before with
  | nil => exact hk.bind h fun _ => ite (hk.inOrder hrun after) (hk.pure false)
  | cons x rest ih => exact hk.bind (hrun x) fun _ => ite ih (hk.pure false)

end Blocks

/-- **What holds between the parts of a statement under two watches holds between the whole.** -/
theorem perform (n : Nat) (t : Tree) : rel (perform watch n t) (perform watch' n t) := by
  induction n generalizing t with
  | zero => exact hk.throw _
  | succ n ih => exact hk.statement ih n t

theorem topLevel_of {n : Nat} {t t' : Tree}
    (h : rel (Exec.perform watch n t) (Exec.perform watch' n t')) :
    rel (Run.topLevel watch n t) (Run.topLevel watch' n t') := by
  have hcarried : rel (carryOutWatched watch n t) (carryOutWatched watch' n t') :=
    hk.bind h fun _ => ite (hk.throw _) (hk.pure ())
  exact hk.bind hcarried fun _ => hk.prune

theorem topLevel (n : Nat) (t : Tree) :
    rel (Run.topLevel watch n t) (Run.topLevel watch' n t) :=
  hk.topLevel_of (hk.perform n t)

end Watching
end Exec
end Retrace
