import Retrace.Proofs.Keeping

/-!
# Statements with two ends

A statement that meets a `break` answers `false`, and what is around it has to act on that answer:
a block leaves out what comes next, a branch hands the answer on, most loops end and take it up, and
a loop that counts ends and hands it on.  To say where a `break` leads, all these answers have to be
followed through, and the place that they lead to is named nowhere.

Here the same is said without answers.  A statement is carried out *to* two ends, which are given
to it: what comes after it, and what comes after the innermost loop that takes a `break` up.  A
`break` goes straight to the second one.  Where it leads is then what stands in the second place: a
block and a branch pass on the end that they were given, and a loop puts what comes after itself
there.

There are two such readings, which differ in loops that count.

* In the reading of running programs a counting loop is no end for the `break`s in it: it passes on
  the end that it was given.
* In the other one it is as every loop is: what comes after the loop is where a `break` in it leads.
  This is what the word `break` promises, and it is what a run is compared with.

The argument `own` says which of the two is meant: whether every loop ends by its own `break`s.

Loops are said in terms of what their block does (`TwoEnds`) and not of the statements in it, so
that two loops are the same as soon as their blocks are.  What a statement does depends on others
only through those blocks, and this gives the two ways to compare statements below.

* `performTo`: statements with two ends, and one function for each form that has blocks.
* `performTo_eq`: the first reading agrees with the answers, whatever the two ends are.
* `statementTo_congr`: a statement does the same if the statements in its blocks do.
* `NeverLeaves`: the second end is never taken, whatever it is.
* `statementTo_own`: the two readings of a statement agree, unless it is a loop that counts and a
  statement in its block may take the second end.
-/

set_option autoImplicit false

namespace Retrace
namespace Exec

variable {β : Type}

/-! ## The two readings -/

/-- What is carried out to two ends: the one that comes after it, and the one that comes after the
loop which a `break` in it ends. -/
abbrev TwoEnds (β : Type) := Exec β → Exec β → Exec β

/-- How statements are carried out to two ends. -/
abbrev Route (β : Type) := Tree → TwoEnds β

/-- Statements one after the other. -/
def inOrderTo (run : Route β) : List Tree → TwoEnds β
  | [], next, _ => next
  | t :: rest, next, leave => run t (inOrderTo run rest next leave) leave

/-- The statements of a block. -/
def blockTo (run : Route β) (body : Tree) : TwoEnds β := fun next leave => do
  inOrderTo run (← ofExcept body.items) next leave

/-- A branch goes on to the ends that it was given. -/
def branchTo (watch : Watch) (run : Route β) (t : Tree) : TwoEnds β := fun next leave => do
  let (_, condition, yes, elifs, no) ← ofExcept t.unpack5
  if ← isTruthy (← evaluateWatched watch condition) then blockTo run yes next leave
  else
    let chosen ← chooseElif watch no (← ofExcept elifs.items)
    blockTo run chosen next leave

/-- A loop that evaluates its condition before each pass.  A `break` leads to what comes after the
loop. -/
def plainLoopTo (watch : Watch) (condition : Tree) (body : TwoEnds β) (next : Exec β) : Nat → Exec β
  | 0 => throw .outOfFuel
  | n + 1 => do
    if ← isTruthy (← evaluateWatched watch condition) then
      body (plainLoopTo watch condition body next n) next
    else next

/-- The passes of a loop that counts.  A `break` leads to the end that is given for it. -/
def countTo (watch : Watch) (counter : Tree) (last : Value) (body : TwoEnds β)
    (next leave : Exec β) : Nat → Exec β
  | 0 => throw .outOfFuel
  | n + 1 => do
    let v ← evaluateWatched watch counter
    if ← isLess v last then
      body (do
        increment watch counter
        countTo watch counter last body next leave n) leave
    else next

/-- `while`.  Only a loop that counts makes use of the second end. -/
def whileLoopTo (watch : Watch) (run : Route β) (n : Nat) (t : Tree) : TwoEnds β :=
  fun next leave => do
    let (_, condition, body) ← ofExcept t.unpack3
    match condition with
    | .tuple [counter, op, stop] =>
      if op.isText "lt" && stop.whole?.isSome then
        let last ← evaluateWatched watch stop
        countTo watch counter last (blockTo run body) next leave n
      else plainLoopTo watch condition (blockTo run body) next n
    | _ => plainLoopTo watch condition (blockTo run body) next n

/-- One pass of a `for` loop. -/
def forPassTo (watch : Watch) (target : Tree) (body : TwoEnds β) (v : Value) : TwoEnds β :=
  fun next leave => do
    bindWatched watch (← ofExcept (Name.ofTree target)) v
    body next leave

/-- The passes of a `for` loop over numbers. -/
def rangeTo (watch : Watch) (target : Tree) (last stride : Value) (body : TwoEnds β)
    (next : Exec β) : Nat → Value → Exec β
  | 0, _ => throw .outOfFuel
  | n + 1, v => do
    if ← isLess v last then
      forPassTo watch target body v (do
        rangeTo watch target last stride body next n (← advance watch v stride)) next
    else next

/-- The passes of a `for` loop over values. -/
def eachTo (watch : Watch) (target : Tree) (body : TwoEnds β) (next leave : Exec β) :
    List Value → Exec β
  | [] => next
  | v :: rest => forPassTo watch target body v (eachTo watch target body next leave rest) leave

/-- The passes of a `for` loop over the items that a list is extended by. -/
def laterTo (watch : Watch) (target : Tree) (id : Nat) (body : TwoEnds β) (next : Exec β) :
    Nat → Nat → Exec β
  | 0, _ => throw .outOfFuel
  | n + 1, k => do
    match ((← get).lists.addedTo id)[k]? with
    | some v => forPassTo watch target body v (laterTo watch target id body next n (k + 1)) next
    | none => next

/-- A `for` loop over the items of a value. -/
def itemLoopTo (watch : Watch) (n : Nat) (target source : Tree) (body : TwoEnds β) (next : Exec β) :
    Value → Exec β
  | .list id items => eachTo watch target body (laterTo watch target id body next n 0) next items
  | .text s => eachTo watch target body next next (s.letters.map .text)
  | _ => fail (.notIterable source)

/-- `for`.  A `break` leads to what comes after the loop. -/
def forLoopTo (watch : Watch) (run : Route β) (n : Nat) (t : Tree) (next : Exec β) : Exec β := do
  let (_, target, source, body) ← ofExcept t.unpack4
  if (← ofExcept source.head).isText "range" then
    let (_, start, stop, step) ← ofExcept source.unpack4
    let first ← evaluateWatched watch start
    let last ← evaluateWatched watch stop
    let stride ← strideOf watch step
    rangeTo watch target last stride (blockTo run body) next n first
  else
    match source with
    | .list xs =>
      eachTo watch target (blockTo run body) next next (← xs.mapM (evaluateWatched watch))
    | t => itemLoopTo watch n target source (blockTo run body) next (← evaluateWatched watch t)

/-- A statement of any form.  If every loop ends by its own `break`s, what comes after a `while`
stands in both places. -/
def statementTo (own : Bool) (watch : Watch) (run : Route β) (n : Nat) (t : Tree) : TwoEnds β :=
  fun next leave => do
    let tag ← ofExcept t.head
    match Form.ofTree? tag with
    | some .assign => do assign watch t; next
    | some (.compound op) => do compound watch op t; next
    | some .reverse => do reverse watch t; next
    | some .revtrace => do revtrace watch t; next
    | some .branch => branchTo watch run t next leave
    | some .forLoop => forLoopTo watch run n t next
    | some .whileLoop => whileLoopTo watch run n t next (if own then next else leave)
    | some .print => do print watch t; next
    | some .breakLoop => leave
    | _ => fail (.unknownForm tag)

/-- Carries out a statement to two ends: `next` after it, and `leave` after the innermost loop that
takes a `break` up.  That may be any loop if every one ends by its own, and else any but those that
count. -/
def performTo (own : Bool) (watch : Watch) : Nat → Route β
  | 0, _ => fun _ _ => throw .outOfFuel
  | n + 1, t => statementTo own watch (performTo own watch n) n t

/-! ## Ends and answers

The first reading is that of running programs: to carry out a statement to two ends is to carry it
out and then to go on by its answer.  One lemma for each function above says so of it; those about
loops ask it of the block only. -/

/-- Goes to one of two ends, by an answer. -/
def byAnswer (x : Exec Bool) : TwoEnds β := fun next leave => do
  if ← x then next else leave

/-- The answer of a sequence is that of its last step. -/
theorem byAnswer_bind {α : Type} (x : Exec α) (f : α → Exec Bool) (next leave : Exec β) :
    byAnswer (x >>= f) next leave = x >>= fun a => byAnswer (f a) next leave :=
  bind_assoc x f _

theorem byAnswer_pure (b : Bool) (next leave : Exec β) :
    byAnswer (pure b) next leave = if b then next else leave :=
  pure_bind b _

theorem byAnswer_ite {c : Prop} [Decidable c] (x y : Exec Bool) (next leave : Exec β) :
    byAnswer (if c then x else y) next leave =
      if c then byAnswer x next leave else byAnswer y next leave := by
  split <;> rfl

/-- A statement that meets no `break` comes to the first end. -/
theorem byAnswer_simply (x : Exec Unit) (next leave : Exec β) :
    byAnswer (simply x) next leave = x >>= fun _ => next := by
  rw [simply, byAnswer_bind]
  rfl

variable {watch : Watch}

section Loops

variable {run : Tree → Exec Bool} {body : Tree} {bodyTo : TwoEnds β}
variable (hbody : ∀ next leave, bodyTo next leave = byAnswer (block run body) next leave)
include hbody

theorem plainLoopTo_eq (condition : Tree) (next leave : Exec β) (n : Nat) :
    plainLoopTo watch condition bodyTo next n =
      byAnswer (plainLoop watch run n condition body) next leave := by
  rw [plainLoop]
  induction n with
  | zero => rfl
  | succ n ih =>
    rw [plainLoopTo, iterate, byAnswer_bind]
    simp only [hbody, ih, bind_assoc]
    congr 1
    funext v
    congr 1
    funext b
    cases b with
    | false => rfl
    | true =>
      simp only [if_true, bind_assoc, pure_bind, byAnswer]
      congr 1
      funext b
      cases b <;> rfl

/-- A counting loop hands the answer `false` on, so its second end is the one that it was given. -/
theorem countingLoop_byAnswer (counter stop : Tree) (next leave : Exec β) (n : Nat) :
    (evaluateWatched watch stop >>= fun last =>
      countTo watch counter last bodyTo next leave n) =
      byAnswer (countingLoop watch run n counter stop body) next leave := by
  rw [countingLoop, byAnswer_bind]
  congr 1
  funext last
  induction n with
  | zero => rfl
  | succ n ih =>
    rw [countTo, iterate, byAnswer_bind]
    simp only [hbody, ih, bind_assoc]
    congr 1
    funext v
    congr 1
    funext b
    -- first whether the counter is still less, then whether the block met no `break`
    cases b with
    | false => rfl
    | true =>
      simp only [if_true, bind_assoc, byAnswer]
      congr 1
      funext b
      cases b with
      | false => rfl
      | true => simp only [if_true, bind_assoc, pure_bind]

theorem forPassTo_eq (target : Tree) (v : Value) (next leave : Exec β) :
    forPassTo watch target bodyTo v next leave =
      byAnswer (forPass watch run target body v) next leave := by
  simp only [forPassTo, forPass, hbody, byAnswer_bind]

/-- The passes of a loop over numbers. -/
theorem rangeTo_eq (target : Tree) (last stride : Value) (next leave : Exec β) (n : Nat)
    (v : Value) :
    rangeTo watch target last stride bodyTo next n v =
      byAnswer (iterate (fun v => do
        if ← isLess v last then
          if ← forPass watch run target body v then return .inl (← advance watch v stride)
          else return .inr true
        else return .inr true) n v) next leave := by
  induction n generalizing v with
  | zero => rfl
  | succ n ih =>
    rw [rangeTo, iterate, byAnswer_bind]
    simp only [forPassTo_eq hbody, ih, bind_assoc]
    congr 1
    funext b
    cases b with
    | false => rfl
    | true =>
      simp only [if_true, bind_assoc, byAnswer]
      congr 1
      funext b
      cases b with
      | false => rfl
      | true => simp only [if_true, bind_assoc, pure_bind]

/-- A loop over given values answers as its passes do; what is around it takes the answer up. -/
theorem eachTo_eq (target : Tree) (next leave : Exec β) (vs : List Value) :
    eachTo watch target bodyTo next leave vs =
      byAnswer (eachLoop watch run target body vs) next leave := by
  induction vs with
  | nil => exact (byAnswer_pure true next leave).symm
  | cons v rest ih =>
    rw [eachTo, forPassTo_eq hbody, ih, eachLoop, byAnswer_bind, byAnswer]
    congr 1
    funext b
    cases b <;> rfl

theorem laterTo_eq (target : Tree) (id : Nat) (next leave : Exec β) (n k : Nat) :
    laterTo watch target id bodyTo next n k =
      byAnswer (iterate (fun (k : Nat) => do
        match ((← get).lists.addedTo id)[k]? with
        | some v => return goOn (k + 1) (← forPass watch run target body v)
        | none => return .inr true) n k) next leave := by
  induction n generalizing k with
  | zero => rfl
  | succ n ih =>
    rw [laterTo, iterate, byAnswer_bind]
    simp only [forPassTo_eq hbody, ih, bind_assoc]
    congr 1
    funext m
    split
    · simp only [bind_assoc, pure_bind, byAnswer]
      congr 1
      funext b
      cases b <;> rfl
    · rfl

theorem itemLoopTo_eq (n : Nat) (target source : Tree) (next leave : Exec β) (v : Value) :
    itemLoopTo watch n target source bodyTo next v =
      byAnswer (itemLoop watch run n target source body v) next leave := by
  cases v with
  | list id items =>
    rw [itemLoopTo, eachTo_eq hbody, laterTo_eq hbody _ _ _ leave, itemLoop, byAnswer_bind,
      byAnswer]
    congr 1
    funext b
    cases b <;> rfl
  | text s =>
    rw [itemLoopTo, eachTo_eq hbody, itemLoop, byAnswer_bind, byAnswer]
    congr 1
    funext b
    cases b <;> rfl
  | _ => rfl

end Loops

section Blocks

variable {run : Tree → Exec Bool} {runTo : Route β}
variable (hrun : ∀ t next leave, runTo t next leave = byAnswer (run t) next leave)
include hrun

/-- A block ends at the first statement that answers `false`. -/
theorem inOrderTo_eq (ts : List Tree) (next leave : Exec β) :
    inOrderTo runTo ts next leave = byAnswer (inOrder run ts) next leave := by
  induction ts with
  | nil => exact (byAnswer_pure true next leave).symm
  | cons t rest ih =>
    rw [inOrderTo, hrun, ih, inOrder, byAnswer_bind, byAnswer]
    congr 1
    funext b
    cases b <;> rfl

theorem blockTo_eq (body : Tree) (next leave : Exec β) :
    blockTo runTo body next leave = byAnswer (block run body) next leave := by
  rw [blockTo, block, byAnswer_bind]
  simp only [inOrderTo_eq hrun]

theorem branchTo_eq (t : Tree) (next leave : Exec β) :
    branchTo watch runTo t next leave = byAnswer (branch watch run t) next leave := by
  simp only [branchTo, branch, blockTo_eq hrun, byAnswer_bind, byAnswer_ite]

theorem whileLoopTo_eq (n : Nat) (t : Tree) (next leave : Exec β) :
    whileLoopTo watch runTo n t next leave = byAnswer (whileLoop watch run n t) next leave := by
  rw [whileLoopTo, whileLoop, byAnswer_bind]
  congr 1
  funext parts
  obtain ⟨_, condition, body⟩ := parts
  have hplain : plainLoopTo watch condition (blockTo runTo body) next n =
      byAnswer (plainLoop watch run n condition body) next leave :=
    plainLoopTo_eq (blockTo_eq hrun body) condition next leave n
  cases condition with
  | tuple items =>
    -- only a triple may be the condition of a counting loop
    rcases items with _ | ⟨counter, _ | ⟨op, _ | ⟨stop, _ | ⟨more, rest⟩⟩⟩⟩
    · exact hplain
    · exact hplain
    · exact hplain
    · dsimp only
      rw [byAnswer_ite, countingLoop_byAnswer (blockTo_eq hrun body), ← hplain]
    · exact hplain
  | _ => exact hplain

theorem forLoopTo_eq (n : Nat) (t : Tree) (next leave : Exec β) :
    forLoopTo watch runTo n t next = byAnswer (forLoop watch run n t) next leave := by
  rw [forLoopTo, forLoop, byAnswer_bind]
  congr 1
  funext parts
  obtain ⟨_, target, source, body⟩ := parts
  have hbody := blockTo_eq hrun body
  dsimp only
  rw [byAnswer_bind]
  congr 1
  funext first
  rw [byAnswer_ite]
  congr 1
  · simp only [rangeLoop, byAnswer_bind, rangeTo_eq hbody _ _ _ _ leave]
  · cases source with
    | list xs =>
      simp only [byAnswer_bind, eachTo_eq hbody]
      congr 1
      funext vs
      rw [byAnswer]
      congr 1
      funext b
      cases b <;> rfl
    | _ => simp only [byAnswer_bind, itemLoopTo_eq hbody _ _ _ _ leave]

theorem statementTo_eq (n : Nat) (t : Tree) (next leave : Exec β) :
    statementTo false watch runTo n t next leave =
      byAnswer (statement watch run n t) next leave := by
  rw [statementTo, statement, byAnswer_bind]
  congr 1
  funext tag
  cases Form.ofTree? tag with
  | none => rfl
  | some form =>
    cases form with
    | branch => exact branchTo_eq hrun t next leave
    | forLoop => exact forLoopTo_eq hrun n t next leave
    | whileLoop => exact whileLoopTo_eq hrun n t next leave
    | breakLoop => exact (byAnswer_pure false next leave).symm
    | length => rfl
    | _ => exact (byAnswer_simply _ next leave).symm

end Blocks

/-- **Ends and answers agree.**  To carry out a statement to two ends is to carry it out and to go
on by its answer. -/
theorem performTo_eq (watch : Watch) (n : Nat) (t : Tree) (next leave : Exec β) :
    performTo false watch n t next leave = byAnswer (perform watch n t) next leave := by
  induction n generalizing t next leave with
  | zero => rfl
  | succ n ih => exact statementTo_eq ih n t next leave

/-! ## Statements whose blocks do the same -/

/-- Of the second step only those results of the first one count that it can have. -/
theorem bind_congr_of_ok {α : Type} {x : Exec α} {f g : α → Exec β}
    (h : ∀ {m m' a}, x m = .ok a m' → f a = g a) : x >>= f = x >>= g := by
  funext m
  rw [bind_apply, bind_apply]
  split
  · next a m' hx => rw [h hx]
  · rfl

/-- A result that may be a fault is gone on with only if it is none. -/
theorem ofExcept_bind_congr {α : Type} {r : Except Fault α} {f g : α → Exec β}
    (h : ∀ a, r = .ok a → f a = g a) : (ofExcept r >>= f) = (ofExcept r >>= g) := by
  cases r with
  | ok a => exact h a rfl
  | error e => rfl

section Congruence

variable {run run' : Route β} {t : Tree}

theorem inOrderTo_congr {ts : List Tree} (h : ∀ s ∈ ts, run s = run' s) :
    inOrderTo run ts = inOrderTo run' ts := by
  induction ts with
  | nil => rfl
  | cons s rest ih =>
    funext next leave
    rw [inOrderTo, inOrderTo, h s (List.mem_cons_self ..),
      ih fun u hu => h u (List.mem_cons_of_mem _ hu)]

variable (hrun : ∀ s ∈ t.inner, run s = run' s)
include hrun

/-- A block does what the statements in it do. -/
theorem blockTo_congr {body : Tree} (hb : body ∈ t.blocks) :
    blockTo run body = blockTo run' body := by
  funext next leave
  refine ofExcept_bind_congr fun ts hts => ?_
  rw [inOrderTo_congr fun s hs => hrun s (Tree.mem_inner hb hts hs)]

theorem branchTo_congr (hform : t.form? = some .branch) :
    branchTo watch run t = branchTo watch run' t := by
  funext next leave
  refine ofExcept_bind_congr fun (_, condition, yes, elifs, no) hparts => ?_
  refine bind_congr fun v => bind_congr fun b => ?_
  split
  · rw [blockTo_congr hrun (Tree.mem_blocks_yes hform hparts)]
  · refine ofExcept_bind_congr fun xs hxs => bind_congr_of_ok fun hchosen => ?_
    rw [blockTo_congr hrun (Tree.mem_blocks_chosen hform hparts hxs (chooseElif_mem hchosen))]

theorem whileLoopTo_congr (hform : t.form? = some .whileLoop) (n : Nat) :
    whileLoopTo watch run n t = whileLoopTo watch run' n t := by
  funext next leave
  refine ofExcept_bind_congr fun (_, condition, body) hparts => ?_
  dsimp only
  rw [blockTo_congr hrun (Tree.mem_blocks_whileLoop hform hparts)]

theorem forLoopTo_congr (hform : t.form? = some .forLoop) (n : Nat) :
    forLoopTo watch run n t = forLoopTo watch run' n t := by
  funext next
  refine ofExcept_bind_congr fun (_, target, source, body) hparts => ?_
  dsimp only
  rw [blockTo_congr hrun (Tree.mem_blocks_forLoop hform hparts)]

/-- A statement does the same if the statements in its blocks do. -/
theorem statementTo_congr (own : Bool) (n : Nat) :
    statementTo own watch run n t = statementTo own watch run' n t := by
  funext next leave
  refine ofExcept_bind_congr fun tag htag => ?_
  rw [← Tree.form?_of_head htag]
  cases h : t.form? with
  | none => rfl
  | some form =>
    cases form with
    | branch => exact congrFun (congrFun (branchTo_congr hrun h) next) leave
    | forLoop => exact congrFun (forLoopTo_congr hrun h n) next
    | whileLoop => exact congrFun (congrFun (whileLoopTo_congr hrun h n) next) _
    | _ => rfl

end Congruence

/-! ## The second end -/

/-- The second end is never taken: what is done does not depend on it. -/
def NeverLeaves (x : TwoEnds β) : Prop :=
  ∀ next leave leave', x next leave = x next leave'

section Leaving

variable {run : Route β} {t : Tree}

theorem inOrderTo_neverLeaves {ts : List Tree} (hts : ∀ s ∈ ts, NeverLeaves (run s)) :
    NeverLeaves (inOrderTo run ts) := by
  intro next leave leave'
  induction ts with
  | nil => rfl
  | cons s rest ih =>
    rw [inOrderTo, inOrderTo, ih fun u hu => hts u (List.mem_cons_of_mem _ hu)]
    exact hts s (List.mem_cons_self ..) _ leave leave'

section

variable (hrun : ∀ s ∈ t.inner, NeverLeaves (run s))
include hrun

theorem blockTo_neverLeaves {body : Tree} (hb : body ∈ t.blocks) :
    NeverLeaves (blockTo run body) := by
  intro next leave leave'
  refine ofExcept_bind_congr fun ts hts => ?_
  exact inOrderTo_neverLeaves (fun s hs => hrun s (Tree.mem_inner hb hts hs)) next leave leave'

theorem branchTo_neverLeaves (hform : t.form? = some .branch) :
    NeverLeaves (branchTo watch run t) := by
  intro next leave leave'
  refine ofExcept_bind_congr fun (_, condition, yes, elifs, no) hparts => ?_
  refine bind_congr fun v => bind_congr fun b => ?_
  split
  · exact blockTo_neverLeaves hrun (Tree.mem_blocks_yes hform hparts) next leave leave'
  · refine ofExcept_bind_congr fun xs hxs => bind_congr_of_ok fun hchosen => ?_
    have hb := Tree.mem_blocks_chosen hform hparts hxs (chooseElif_mem hchosen)
    exact blockTo_neverLeaves hrun hb next leave leave'

end

theorem countTo_neverLeaves {counter : Tree} {last : Value} {body : TwoEnds β}
    (hbody : NeverLeaves body) (next leave leave' : Exec β) (n : Nat) :
    countTo watch counter last body next leave n =
      countTo watch counter last body next leave' n := by
  induction n with
  | zero => rfl
  | succ n ih =>
    rw [countTo, countTo, ih]
    simp only [hbody _ leave leave']

end Leaving

end Exec

/-! ## Loops that count -/

namespace Tree

/-- Is the statement a loop that counts? -/
def counts (t : Tree) : Bool :=
  match t.form? with
  | some .whileLoop => t.driven?.isSome
  | _ => false

end Tree

namespace Exec

variable {β : Type} {watch : Watch} {run : Route β} {t : Tree}

/-- A `while` may take the second end only if it counts and something in its block may. -/
theorem whileLoopTo_neverLeaves (hform : t.form? = some .whileLoop)
    (hrun : t.counts = true → ∀ s ∈ t.inner, NeverLeaves (run s)) (n : Nat) :
    NeverLeaves (whileLoopTo watch run n t) := by
  intro next leave leave'
  refine ofExcept_bind_congr fun (_, condition, body) hparts => ?_
  have hb := Tree.mem_blocks_whileLoop hform hparts
  dsimp only
  split
  · next counter op stop =>
    split
    · next hcount =>
      have hcounts : t.counts = true := by
        rw [Tree.counts, hform, Tree.driven?_whileLoop hform hparts hcount]
        rfl
      have hbody := blockTo_neverLeaves (hrun hcounts) hb
      exact bind_congr fun last => countTo_neverLeaves hbody next leave leave' n
    · rfl
  · rfl

/-- **The two readings of a statement agree,** unless it is a loop that counts and a statement in
its block may take the second end. -/
theorem statementTo_own (hrun : t.counts = true → ∀ s ∈ t.inner, NeverLeaves (run s)) (n : Nat) :
    statementTo false watch run n t = statementTo true watch run n t := by
  funext next leave
  refine ofExcept_bind_congr fun tag htag => ?_
  rw [← Tree.form?_of_head htag]
  cases h : t.form? with
  | none => rfl
  | some form =>
    cases form with
    | whileLoop => exact whileLoopTo_neverLeaves h hrun n next leave next
    | _ => rfl

end Exec
end Retrace
