import Retrace.Proofs.Record

/-!
# What a statement keeps

Most of what a statement does is done by statements inside of it.  What remains is little: values
are looked at, something is written on the output, an assignment or a reversal changes a variable,
and a loop drives its variable and may extend a list.  A relation between machines that can be
chained, and that none of these breaks, holds between the machines before and after any statement.

`Keeping` lists what has to be shown of a relation for that, and `Keeping.perform` is the induction:
on the number of passes, which goes down with each statement that is inside of another one, and in a
loop on the number of passes that are left.  The relation appears in no other place of the
induction, so it is made once, and each fact about all statements is an instance of it.

What has to be shown may be limited to statements of a certain sort, if all statements are of that
sort, those in blocks among them (`Tree.Every`).  Which statements are in the blocks of a tree is a
question about trees, and has to be answered without carrying anything out: `Tree.blocks` reads the
blocks off the form that the tree has, and `Tree.inner` what stands in them.  A tree need not be
well-formed for that.  Where a block is missing, or no sequence, the statement stops before it comes
to it, so nothing is lost by leaving it out.  For the same reason `Tree.Every` is an inductive
predicate and no function on trees: what is inside of a statement need not be a part of it in the
sense of a recursion on trees, since the characters of a text count as its items.

Loops change variables that no statement names as its target.  The two forms that do so drive a
variable: a `for` loop binds it before each pass, and a counting `while` loop adds one to it after
each pass.  `Tree.driven?` tells which variable that is, so that a relation can be limited to
statements that drive certain ones only.

* `Tree.form?`, `Tree.blocks`, `Tree.inner`, `Tree.driven?`: a tree as a statement.
* `Tree.Every`: a property of a statement and of all statements inside of it.
* `Keeping`: what has to be shown of a relation.
* `Keeping.perform`: what follows for statements.
-/

set_option autoImplicit false

namespace Retrace
namespace Tree

/-! ## Statements inside of statements -/

/-- The form of a statement. -/
def form? (t : Tree) : Option Form :=
  match t.head with
  | .ok tag => Form.ofTree? tag
  | .error _ => Option.none

/-- The block of an `elif` branch. -/
def elifBlock? (t : Tree) : Option Tree :=
  match t.unpack2 with
  | .ok (_, body) => some body
  | .error _ => Option.none

/-- The blocks of a statement. -/
def blocks (t : Tree) : List Tree :=
  match t.form? with
  | some .branch =>
    match t.unpack5 with
    | .ok (_, _, yes, elifs, no) => yes :: no :: (elifs.items?.getD []).filterMap elifBlock?
    | .error _ => []
  | some .forLoop =>
    match t.unpack4 with
    | .ok (_, _, _, body) => [body]
    | .error _ => []
  | some .whileLoop =>
    match t.unpack3 with
    | .ok (_, _, body) => [body]
    | .error _ => []
  | _ => []

/-- The statements in the blocks of a statement. -/
def inner (t : Tree) : List Tree :=
  t.blocks.flatMap fun body => body.items?.getD []

/-- A statement has a property, and so have all statements inside of it. -/
inductive Every (p : Tree → Prop) : Tree → Prop
  | mk {t : Tree} : p t → (∀ s ∈ t.inner, Every p s) → Every p t

/-- The variable that a loop drives. -/
def driven? (t : Tree) : Option Tree :=
  match t.form? with
  | some .forLoop =>
    match t.unpack4 with
    | .ok (_, target, _, _) => some target
    | .error _ => Option.none
  | some .whileLoop =>
    match t.unpack3 with
    | .ok (_, .tuple [counter, op, stop], _) =>
      if op.isText "lt" && stop.whole?.isSome then some counter else Option.none
    | _ => Option.none
  | _ => Option.none

theorem items?_getD {t : Tree} {ts : List Tree} (h : t.items = .ok ts) : t.items?.getD [] = ts := by
  unfold items at h
  split at h
  · next xs hx =>
    cases h
    rw [hx]
    rfl
  · cases h

/-- The statements of a block. -/
theorem mem_inner {t body s : Tree} {ts : List Tree} (hb : body ∈ t.blocks)
    (hi : body.items = .ok ts) (hs : s ∈ ts) : s ∈ t.inner := by
  refine List.mem_flatMap.2 ⟨body, hb, ?_⟩
  rw [items?_getD hi]
  exact hs

theorem form?_of_head {t tag : Tree} (h : t.head = .ok tag) : t.form? = Form.ofTree? tag := by
  rw [form?, h]

section Branch

variable {t tag condition yes elifs no : Tree} (hform : t.form? = some .branch)
variable (hparts : t.unpack5 = .ok (tag, condition, yes, elifs, no))
include hform hparts

theorem mem_blocks_yes : yes ∈ t.blocks := by
  rw [blocks, hform, hparts]
  exact List.mem_cons_self ..

/-- The blocks of a choice among which further conditions choose. -/
theorem mem_blocks_chosen {xs : List Tree} (hxs : elifs.items = .ok xs) {chosen : Tree}
    (hchosen : chosen ∈ no :: xs.filterMap elifBlock?) : chosen ∈ t.blocks := by
  rw [blocks, hform, hparts]
  dsimp only
  rw [items?_getD hxs]
  exact List.mem_cons_of_mem _ hchosen

end Branch

section Loops

variable {t tag target source condition body : Tree}

theorem mem_blocks_forLoop (hform : t.form? = some .forLoop)
    (hparts : t.unpack4 = .ok (tag, target, source, body)) : body ∈ t.blocks := by
  rw [blocks, hform, hparts]
  exact List.mem_singleton_self _

theorem mem_blocks_whileLoop (hform : t.form? = some .whileLoop)
    (hparts : t.unpack3 = .ok (tag, condition, body)) : body ∈ t.blocks := by
  rw [blocks, hform, hparts]
  exact List.mem_singleton_self _

theorem driven?_forLoop (hform : t.form? = some .forLoop)
    (hparts : t.unpack4 = .ok (tag, target, source, body)) : t.driven? = some target := by
  rw [driven?, hform, hparts]

/-- A `while` drives a variable if its condition is that of a loop that counts. -/
theorem driven?_whileLoop {counter op stop : Tree} (hform : t.form? = some .whileLoop)
    (hparts : t.unpack3 = .ok (tag, .tuple [counter, op, stop], body))
    (hcount : (op.isText "lt" && stop.whole?.isSome) = true) : t.driven? = some counter := by
  rw [driven?, hform, hparts]
  exact if_pos hcount

end Loops

namespace Every

variable {p q : Tree → Prop} {t : Tree}

theorem here : t.Every p → p t
  | mk h _ => h

theorem inside : t.Every p → ∀ s ∈ t.inner, s.Every p
  | mk _ h => h

/-- A property that follows from another one holds wherever that one does. -/
theorem imp (hpq : ∀ s, p s → q s) (h : t.Every p) : t.Every q := by
  induction h with
  | mk hp _ ih => exact mk (hpq _ hp) ih

/-- Two properties may be asked for together. -/
theorem and (hp : t.Every p) (hq : t.Every q) : t.Every fun s => p s ∧ q s := by
  induction hp with
  | mk hp _ ih =>
    obtain ⟨hq, hin⟩ := hq
    exact mk ⟨hp, hq⟩ fun s hs => ih s hs (hin s hs)

end Every
end Tree

namespace Exec

/-! ## Looking, again -/

theorem printed_looks (v : Value) : Keeps Machine.Looks (printed v) := by
  cases v with
  | text s => exact keepsOn_pure onward_looks _
  | _ => exact shown_looks _

theorem isLess_looks (u v : Value) : Keeps Machine.Looks (isLess u v) :=
  keepsOn_bind onward_looks (view_looks u) fun _ =>
    keepsOn_bind onward_looks (view_looks v) fun _ => keepsOn_ofExcept onward_looks _

/-- The block that is chosen is one of those that can be. -/
theorem chooseElif_mem {watch : Watch} {no chosen : Tree} {elifs : List Tree} {m m' : Machine}
    (h : chooseElif watch no elifs m = .ok chosen m') :
    chosen ∈ no :: elifs.filterMap Tree.elifBlock? := by
  induction elifs generalizing m with
  | nil =>
    cases h
    exact List.mem_cons_self ..
  | cons x rest ih =>
    obtain ⟨⟨condition, body⟩, m1, hunpack, h1⟩ := bind_eq_ok.1 h
    obtain ⟨v, m2, -, h2⟩ := bind_eq_ok.1 h1
    obtain ⟨b, m3, -, h3⟩ := bind_eq_ok.1 h2
    have hx := (ofExcept_eq_ok.1 hunpack).1
    have hb : x.elifBlock? = some body := by rw [Tree.elifBlock?, hx]
    rw [List.filterMap_cons, hb]
    cases b with
    | true =>
      cases h3
      exact List.mem_cons_of_mem _ (List.mem_cons_self ..)
    | false =>
      rcases List.mem_cons.1 (ih h3) with rfl | hmem
      · exact List.mem_cons_self ..
      · exact List.mem_cons_of_mem _ (List.mem_cons_of_mem _ hmem)

/-! ## Statements -/

/-- What has to be shown of a relation to see that statements of the sort `p` keep it. -/
structure Keeping (watch : Watch) (C : Fault → Prop) (p : Tree → Prop)
    (R : Machine → Machine → Prop) : Prop where
  onward : Onward R
  looks : ∀ {m m'}, m.Looks m' → R m m'
  put : ∀ writer s, KeepsOn C R (put writer s)
  evaluation : ∀ e, KeepsOn C R (watch (.evaluation e))
  assign : ∀ t, p t → t.form? = some .assign → KeepsOn C R (assign watch t)
  compound : ∀ op t, p t → t.form? = some (.compound op) → KeepsOn C R (compound watch op t)
  reverse : ∀ t, p t → t.form? = some .reverse → KeepsOn C R (reverse watch t)
  drive : ∀ t target name v, p t → t.driven? = some target → Name.ofTree target = .ok name →
    KeepsOn C R (bindWatched watch name v)
  advance : ∀ v stride, KeepsOn C R (advance watch v stride)

namespace Keeping

variable {watch : Watch} {C : Fault → Prop} {p : Tree → Prop} {R : Machine → Machine → Prop}
variable (hk : Keeping watch C p R)
include hk

/-- Whatever only looks at the machine keeps the relation. -/
theorem looking {α : Type} {x : Exec α} (hx : Keeps Machine.Looks x) : KeepsOn C R x :=
  hx.mono (fun _ _ => trivial) fun _ _ h => hk.looks h

theorem evaluate (e : Tree) : KeepsOn C R (evaluateWatched watch e) :=
  keepsOn_bind hk.onward (hk.evaluation e) fun _ => hk.looking (evaluate_looks e)

theorem printedAll (es : List Tree) : KeepsOn C R (printedAll watch es) := by
  induction es with
  | nil => exact keepsOn_pure hk.onward _
  | cons e rest ih =>
    refine keepsOn_bind hk.onward (hk.evaluate e) fun v => ?_
    refine keepsOn_bind hk.onward (hk.looking (printed_looks v)) fun _ => ?_
    exact keepsOn_bind hk.onward ih fun _ => keepsOn_pure hk.onward _

theorem print (t : Tree) : KeepsOn C R (print watch t) := by
  refine keepsOn_bind hk.onward (keepsOn_ofExcept hk.onward _) fun (_, values) => ?_
  refine keepsOn_bind hk.onward (keepsOn_ofExcept hk.onward _) fun es => ?_
  exact keepsOn_bind hk.onward (hk.printedAll es) fun _ => hk.put _ _

theorem strideOf (step : Tree) : KeepsOn C R (strideOf watch step) :=
  keepsOn_ite (hk.evaluate step) (keepsOn_pure hk.onward _)

theorem chooseElif (no : Tree) (elifs : List Tree) :
    KeepsOn C R (chooseElif watch no elifs) := by
  induction elifs with
  | nil => exact keepsOn_pure hk.onward _
  | cons x rest ih =>
    refine keepsOn_bind hk.onward (keepsOn_ofExcept hk.onward _) fun parts => ?_
    refine keepsOn_bind hk.onward (hk.evaluate parts.1) fun v => ?_
    refine keepsOn_bind hk.onward (hk.looking (isTruthy_looks v)) fun b => ?_
    exact keepsOn_ite (keepsOn_pure hk.onward _) ih

/-- A `revtrace` looks at a former value and writes. -/
theorem revtrace (t : Tree) : KeepsOn C R (revtrace watch t) := by
  refine keepsOn_bind hk.onward (keepsOn_ofExcept hk.onward _) fun (_, target, e) => ?_
  refine keepsOn_bind hk.onward (hk.evaluate e) fun position => ?_
  refine keepsOn_bind hk.onward (keepsOn_ofExcept hk.onward _) fun name => ?_
  refine keepsOn_bind hk.onward (keepsOn_get hk.onward) fun m => ?_
  refine keepsOn_bind hk.onward (hk.looking (view_looks position)) fun seen => ?_
  refine keepsOn_bind hk.onward (keepsOn_ofExcept hk.onward _) fun old => ?_
  split
  · refine keepsOn_bind hk.onward (hk.looking (shown_looks position)) fun _ => ?_
    exact keepsOn_bind hk.onward (hk.looking (shown_looks _)) fun _ => hk.put _ _
  · exact keepsOn_bind hk.onward (hk.looking (shown_looks position)) fun _ => hk.put _ _

/-- A loop may bind the variable that it drives. -/
theorem increment {t counter : Tree} (ht : t.Every p) (hd : t.driven? = some counter) :
    KeepsOn C R (increment watch counter) := by
  refine keepsOn_ofExcept_bind hk.onward fun name hn => ?_
  refine keepsOn_bind hk.onward (keepsOn_get hk.onward) fun m => ?_
  refine keepsOn_bind hk.onward (hk.looking (view_looks _)) fun seen => ?_
  refine keepsOn_bind hk.onward (hk.evaluate _) fun v => ?_
  refine keepsOn_bind hk.onward (keepsOn_get hk.onward) fun m' => ?_
  refine keepsOn_bind hk.onward (keepsOn_ofExcept hk.onward _) fun w => ?_
  exact hk.drive t counter name w ht.here hd hn

section Blocks

variable {run : Tree → Exec Bool} {t : Tree} (hrun : ∀ s, s.Every p → KeepsOn C R (run s))
include hrun

/-- A block of a statement, if the statements inside of it keep the relation. -/
theorem block {body : Tree} (ht : t.Every p) (hb : body ∈ t.blocks) :
    KeepsOn C R (block run body) :=
  keepsOn_ofExcept_bind hk.onward fun _ hi =>
    keepsOn_inOrder hk.onward fun s hs => hrun s (ht.inside s (Tree.mem_inner hb hi hs))

theorem branch (ht : t.Every p) (hform : t.form? = some .branch) :
    KeepsOn C R (branch watch run t) := by
  refine keepsOn_ofExcept_bind hk.onward fun (_, condition, yes, elifs, no) hparts => ?_
  refine keepsOn_bind hk.onward (hk.evaluate condition) fun v => ?_
  refine keepsOn_bind hk.onward (hk.looking (isTruthy_looks v)) fun b => ?_
  refine keepsOn_ite (hk.block hrun ht (Tree.mem_blocks_yes hform hparts)) ?_
  refine keepsOn_ofExcept_bind hk.onward fun xs hxs => ?_
  refine keepsOn_bind_of_ok hk.onward (hk.chooseElif no xs) fun hchosen => ?_
  exact hk.block hrun ht (Tree.mem_blocks_chosen hform hparts hxs (chooseElif_mem hchosen))

theorem plainLoop (n : Nat) {condition body : Tree} (ht : t.Every p) (hb : body ∈ t.blocks) :
    KeepsOn C R (plainLoop watch run n condition body) := by
  refine keepsOn_iterate hk.onward (fun _ => ?_) n ()
  refine keepsOn_bind hk.onward (hk.evaluate condition) fun v => ?_
  refine keepsOn_bind hk.onward (hk.looking (isTruthy_looks v)) fun b => ?_
  refine keepsOn_ite ?_ (keepsOn_pure hk.onward _)
  exact keepsOn_bind hk.onward (hk.block hrun ht hb) fun _ => keepsOn_pure hk.onward _

/-- A counting loop keeps the relation if its block does and driving its variable does. -/
theorem countingLoop (n : Nat) {counter stop body : Tree} (ht : t.Every p) (hb : body ∈ t.blocks)
    (hd : t.driven? = some counter) :
    KeepsOn C R (countingLoop watch run n counter stop body) := by
  refine keepsOn_bind hk.onward (hk.evaluate stop) fun last => ?_
  refine keepsOn_iterate hk.onward (fun _ => ?_) n ()
  refine keepsOn_bind hk.onward (hk.evaluate counter) fun v => ?_
  refine keepsOn_bind hk.onward (hk.looking (isLess_looks v last)) fun b => ?_
  refine keepsOn_ite ?_ (keepsOn_pure hk.onward _)
  refine keepsOn_bind hk.onward (hk.block hrun ht hb) fun b => ?_
  refine keepsOn_ite ?_ (keepsOn_pure hk.onward _)
  exact keepsOn_bind hk.onward (hk.increment ht hd) fun _ => keepsOn_pure hk.onward _

theorem whileLoop (n : Nat) (ht : t.Every p) (hform : t.form? = some .whileLoop) :
    KeepsOn C R (whileLoop watch run n t) := by
  refine keepsOn_ofExcept_bind hk.onward fun (_, condition, body) hparts => ?_
  have hb := Tree.mem_blocks_whileLoop hform hparts
  dsimp only
  split
  · next counter op stop =>
    split
    · next hcount =>
      exact hk.countingLoop hrun n ht hb (Tree.driven?_whileLoop hform hparts hcount)
    · exact hk.plainLoop hrun n ht hb
  · exact hk.plainLoop hrun n ht hb

/-- A pass of a `for` loop drives the variable and carries out the block. -/
theorem forPass {target body : Tree} (v : Value) (ht : t.Every p) (hb : body ∈ t.blocks)
    (hd : t.driven? = some target) : KeepsOn C R (forPass watch run target body v) := by
  refine keepsOn_ofExcept_bind hk.onward fun name hn => ?_
  refine keepsOn_bind hk.onward (hk.drive t target name v ht.here hd hn) fun _ => ?_
  exact hk.block hrun ht hb

theorem rangeLoop (n : Nat) {target range body : Tree} (ht : t.Every p) (hb : body ∈ t.blocks)
    (hd : t.driven? = some target) :
    KeepsOn C R (rangeLoop watch run n target range body) := by
  refine keepsOn_ofExcept_bind hk.onward fun (_, start, stop, step) _ => ?_
  refine keepsOn_bind hk.onward (hk.evaluate start) fun first => ?_
  refine keepsOn_bind hk.onward (hk.evaluate stop) fun last => ?_
  refine keepsOn_bind hk.onward (hk.strideOf step) fun stride => ?_
  refine keepsOn_iterate hk.onward (fun v => ?_) n first
  refine keepsOn_bind hk.onward (hk.looking (isLess_looks v last)) fun b => ?_
  refine keepsOn_ite ?_ (keepsOn_pure hk.onward _)
  refine keepsOn_bind hk.onward (hk.forPass hrun v ht hb hd) fun b => ?_
  refine keepsOn_ite ?_ (keepsOn_pure hk.onward _)
  exact keepsOn_bind hk.onward (hk.advance v stride) fun _ => keepsOn_pure hk.onward _

theorem eachLoop {target body : Tree} (vs : List Value) (ht : t.Every p) (hb : body ∈ t.blocks)
    (hd : t.driven? = some target) : KeepsOn C R (eachLoop watch run target body vs) := by
  induction vs with
  | nil => exact keepsOn_pure hk.onward _
  | cons v rest ih =>
    refine keepsOn_bind hk.onward (hk.forPass hrun v ht hb hd) fun b => ?_
    exact keepsOn_ite ih (keepsOn_pure hk.onward _)

/-- The passes over items by which the list was extended during the loop. -/
theorem laterLoop (n id : Nat) {target body : Tree} (ht : t.Every p) (hb : body ∈ t.blocks)
    (hd : t.driven? = some target) :
    KeepsOn C R (laterLoop watch run n target body id) := by
  refine keepsOn_iterate hk.onward (fun k => ?_) n 0
  refine keepsOn_bind hk.onward (keepsOn_get hk.onward) fun m => ?_
  split
  · next v _ =>
    exact keepsOn_bind hk.onward (hk.forPass hrun v ht hb hd) fun _ => keepsOn_pure hk.onward _
  · exact keepsOn_pure hk.onward _

theorem itemLoop (n : Nat) {target source body : Tree} (v : Value) (ht : t.Every p)
    (hb : body ∈ t.blocks) (hd : t.driven? = some target) :
    KeepsOn C R (itemLoop watch run n target source body v) := by
  cases v with
  | list id items =>
    refine keepsOn_bind hk.onward (hk.eachLoop hrun items ht hb hd) fun b => ?_
    exact keepsOn_ite (hk.laterLoop hrun n id ht hb hd) (keepsOn_pure hk.onward _)
  | text s =>
    exact keepsOn_bind hk.onward (hk.eachLoop hrun _ ht hb hd) fun _ => keepsOn_pure hk.onward _
  | _ => exact keepsOn_throw hk.onward _

theorem forLoop (n : Nat) (ht : t.Every p) (hform : t.form? = some .forLoop) :
    KeepsOn C R (forLoop watch run n t) := by
  refine keepsOn_ofExcept_bind hk.onward fun (_, target, source, body) hparts => ?_
  have hb := Tree.mem_blocks_forLoop hform hparts
  have hd := Tree.driven?_forLoop hform hparts
  refine keepsOn_bind hk.onward (keepsOn_ofExcept hk.onward _) fun first => ?_
  refine keepsOn_ite (hk.rangeLoop hrun n ht hb hd) ?_
  split
  · next xs =>
    refine keepsOn_bind hk.onward ?_ fun vs => ?_
    · exact keepsOn_mapM hk.onward fun e => hk.evaluate e
    · exact keepsOn_bind hk.onward (hk.eachLoop hrun vs ht hb hd) fun _ => keepsOn_pure hk.onward _
  · refine keepsOn_bind hk.onward (hk.evaluate _) fun v => ?_
    exact hk.itemLoop hrun n v ht hb hd

/-- One statement keeps the relation if those inside of it do. -/
theorem statement (n : Nat) (ht : t.Every p) : KeepsOn C R (statement watch run n t) := by
  have simple {x : Exec Unit} (hx : KeepsOn C R x) : KeepsOn C R (simply x) :=
    keepsOn_bind hk.onward hx fun _ => keepsOn_pure hk.onward true
  refine keepsOn_ofExcept_bind hk.onward fun tag htag => ?_
  have hform := Tree.form?_of_head htag
  split
  · next h => exact simple (hk.assign t ht.here (hform.trans h))
  · next op h => exact simple (hk.compound op t ht.here (hform.trans h))
  · next h => exact simple (hk.reverse t ht.here (hform.trans h))
  · exact simple (hk.revtrace t)
  · next h => exact hk.branch hrun ht (hform.trans h)
  · next h => exact hk.forLoop hrun n ht (hform.trans h)
  · next h => exact hk.whileLoop hrun n ht (hform.trans h)
  · exact simple (hk.print t)
  · exact keepsOn_pure hk.onward false
  · exact keepsOn_throw hk.onward _

end Blocks

/-- **A statement keeps what its parts keep.** -/
theorem perform (n : Nat) {t : Tree} (ht : t.Every p) : KeepsOn C R (perform watch n t) := by
  induction n generalizing t with
  | zero => exact keepsOn_throw hk.onward _
  | succ n ih => exact hk.statement (fun s hs => ih hs) n ht

/-- A `break` that no loop takes up is a fault, and changes nothing. -/
theorem carryOutWatched (n : Nat) {t : Tree} (ht : t.Every p) :
    KeepsOn C R (carryOutWatched watch n t) := by
  refine keepsOn_bind hk.onward (hk.perform n ht) fun b => ?_
  exact keepsOn_ite (keepsOn_throw hk.onward _) (keepsOn_pure hk.onward _)
end Keeping
end Exec
end Retrace
