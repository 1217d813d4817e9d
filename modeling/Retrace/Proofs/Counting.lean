import Retrace.Proofs.Data
import Retrace.Proofs.Invariant
import Retrace.Proofs.Library

/-!
# Counting loops and plain loops

A `while` loop whose condition compares with a number is carried out in a way of its own.  The
number is evaluated once, the comparison is one of numbers and not of words, and after each pass the
counter goes up by one without being recorded; a `break` ends the loop but is left to the statements
around it.  This module says how far that is a loop that evaluates its condition before each pass.

It is not the loop that a reader of the program would expect.  If the block itself adds one to the
counter, every other number is left out (`counting_skips`).

`stepping_of_counting` is what does hold: the counting loop does what a loop does that evaluates the
whole condition before each pass and has the step of the counter behind its block.  The outcome is
the same, and so are the output, the variables and the histories, up to the count of evaluations.
This is so as long as the comparison of words has the outcome of the comparison of numbers, which is
asked for at each test that is reached.  If a `break` is met then both loops end there, on the same
machine, but only the plain one takes it up.

The loop with a step is no statement of the language, as there is no way to write the step of a
counter that is not recorded.  So it is defined here (`steppingLoop`), with an argument for what it
answers at a `break`, and the answer is the one point in which it can be a plain loop or a counting
one.  Where the first pass does not complete its block the step does not come into play, and there
it is the plain loop itself (`plainLoop_of_first`).

The condition on words is about values that come up in the loop, and cannot be had from the program
alone.  It is put on the machines that are reached by passes of the loop with a step (`Passes`), as
this is the loop that is understood; that the counting loop meets the same values is then a part of
the proof.

Evaluating the condition as a whole counts more evaluations.  After each test that is passed the two
machines are the same up to this count (`Machine.Same`), and from there statements do the same on
both, which is known from `Invariant.Alike`.  If the counter is no whole number both tests fail, and
with the same fault, but an operator sets the number for a new list aside before it is known whether
there will be one.  So after a fault the weaker relation `Machine.Renumbered` stands.
-/

set_option autoImplicit false

namespace Retrace

/-- The machines are the same up to the count of evaluations. -/
def Machine.Recounted (m m' : Machine) : Prop :=
  m' = { m with evaluations := m'.evaluations }

/-- The machines are the same up to the count of evaluations and the numbers for new lists. -/
def Machine.Renumbered (m m' : Machine) : Prop :=
  m' = { m with
    evaluations := m'.evaluations
    lists := { m.lists with next := m'.lists.next } }

/-- As a word the value compares with a number as it does by itself. -/
def Value.OrderedAsWord (v : Value) (stop : Int) : Prop :=
  v.isData = true ∧ ∀ a, v.whole? = some a → (Word.wrap a < Word.wrap stop ↔ a < stop)

/-- The property that all machines have. -/
def Invariant.always : Invariant where
  holds _ := True
  runs _ := True
  source _ := True
  named _ := True
  value _ := True
  stored _ _ _ := True
  runs_inner _ _ _ := trivial
  source_int _ := trivial
  source_assigned _ _ _ := trivial
  named_target _ _ _ := trivial
  value_none := trivial
  value_bool _ := trivial
  value_int _ := trivial
  value_text _ := trivial
  value_list := ⟨fun _ _ _ => trivial, fun _ => trivial⟩
  value_added _ _ _ := trivial
  value_worked _ _ := trivial
  value_result _ _ _ _ _ := trivial
  value_successor _ _ _ := trivial
  value_of_stored _ := .inr trivial
  stored_value _ := trivial
  stored_congr _ _ := trivial
  stored_thunk _ _ _ _ := trivial
  stored_bound _ _ := trivial
  stored_recorded _ _ := trivial
  holds_congr _ _ _ _ _ _ := trivial
  holds_bind _ _ _ := trivial
  holds_history _ _ := trivial
  holds_suspend _ _ := trivial
  holds_settle _ _ := trivial
  value_advance _ _ _ _ := ⟨trivial, trivial⟩

/-- Machines that are the same up to the count of evaluations. -/
abbrev Machine.Same : Machine → Machine → Prop :=
  Invariant.always.Alike False

theorem Machine.Same.renumbered {m m' : Machine} (h : m.Same m') : m.Renumbered m' := by
  rw [Renumbered, h.lists]
  exact h.same

namespace Exec

/-! ## Loops with a step -/

section Loops

variable (run : Tree → Exec Bool) (n : Nat) (condition body : Tree)

/-- One pass of a plain loop. -/
def plainPass (_ : Unit) : Exec (Unit ⊕ Bool) := do
  if ← isTruthy (← evaluate condition) then
    return goOn () (← block run body)
  else return .inr true

/-- One pass of a plain loop that has the step of a counter behind its block.  At a `break` the
answer is `taken`. -/
def steppingPass (taken : Bool) (counter : Tree) (_ : Unit) : Exec (Unit ⊕ Bool) := do
  if ← isTruthy (← evaluate condition) then
    if ← block run body then
      increment unwatched counter
      return .inl ()
    else return .inr taken
  else return .inr true

/-- A loop that evaluates its condition before each pass, and has the step of a counter behind its
block.  It takes a `break` up if `taken`. -/
def steppingLoop (taken : Bool) (counter : Tree) : Exec Bool :=
  iterate (steppingPass run condition body taken counter) n ()

/-- One pass of a counting loop. -/
def countingPass (counter : Tree) (last : Value) (_ : Unit) : Exec (Unit ⊕ Bool) := do
  let v ← evaluate counter
  if ← isLess v last then
    if ← block run body then
      increment unwatched counter
      return .inl ()
    else return .inr false
  else return .inr true

/-- A plain loop is its passes. -/
theorem plainLoop_eq : plainLoop unwatched run n condition body =
    iterate (plainPass run condition body) n () := rfl

end Loops

/-- `m'` is reached from `m` by passes that were completed. -/
inductive Passes (pass : Unit → Exec (Unit ⊕ Bool)) : Machine → Machine → Prop
  | refl (m : Machine) : Passes pass m m
  | step {m mid m' : Machine} : pass () m = .ok (.inl ()) mid → Passes pass mid m' →
    Passes pass m m'

variable {run : Tree → Exec Bool} {n : Nat} {condition counter body : Tree} {m m' : Machine}

/-! ## A step behind the block -/

theorem map_apply {α β : Type} (f : α → β) (x : Exec α) (m : Machine) :
    (f <$> x) m = match x m with
      | .ok a m' => .ok (f a) m'
      | .error e m' => .error e m' := by
  rw [map_eq_pure_bind, bind_apply]
  cases x m <;> rfl

/-- Whether a `break` is taken up shows in the answer only. -/
theorem steppingPass_taken (taken : Bool) (u : Unit) :
    steppingPass run condition body taken counter u =
      Sum.map id (· || taken) <$> steppingPass run condition body false counter u := by
  simp only [steppingPass, map_bind]
  congr 1
  funext v
  congr 1
  funext c
  cases c with
  | false => rfl
  | true =>
    simp only [if_true, map_bind]
    congr 1
    funext b
    cases b <;> simp

/-- What a loop answers at a `break` makes no other difference. -/
theorem steppingLoop_taken (taken : Bool) :
    steppingLoop run n condition body taken counter =
      (· || taken) <$> steppingLoop run n condition body false counter := by
  unfold steppingLoop
  induction n with
  | zero => rfl
  | succ n ih =>
    simp only [iterate, map_bind, steppingPass_taken taken, bind_map_left]
    congr 1
    funext r
    cases r with
    | inl u => exact ih
    | inr b => rfl

/-- A loop without a completed block has no use for the step. -/
theorem plainLoop_of_first {n : Nat}
    (hfirst : ∀ m', plainPass run condition body () m ≠ .ok (.inl ()) m') :
    plainLoop unwatched run n condition body m =
      steppingLoop run n condition body true counter m := by
  have hpass : plainPass run condition body () m =
      steppingPass run condition body true counter () m := by
    unfold plainPass at hfirst
    unfold plainPass steppingPass
    rw [bind_apply] at hfirst ⊢
    rw [bind_apply]
    cases hv : evaluate condition m with
    | error e m1 => rfl
    | ok v m1 =>
      simp only [hv, bind_of_ok (isTruthy_apply v m1)] at hfirst ⊢
      cases hc : m1.lists.isTruthy v with
      | false => rfl
      | true =>
        simp only [hc, if_true, bind_apply] at hfirst ⊢
        cases hb : block run body m1 with
        | error e m2 => rfl
        | ok b m2 =>
          cases b with
          | false => rfl
          | true => exact absurd (by rw [hb]; rfl) (hfirst m2)
  cases n with
  | zero => rfl
  | succ n =>
    rw [plainLoop_eq, steppingLoop, iterate, iterate, bind_apply, bind_apply, hpass]
    rw [hpass] at hfirst
    cases hr : steppingPass run condition body true counter () m with
    | error e m1 => rfl
    | ok r m1 =>
      cases r with
      | inl u => exact absurd hr (hfirst m1)
      | inr b => rfl

/-! ## The two tests -/

theorem isLT_compare (a b : Int) : (compare a b).isLT = decide (a < b) := by
  rw [Bool.eq_iff_iff, Ordering.isLT_iff_eq_lt, Int.compare_eq_lt, decide_eq_true_eq]

/-- A whole number is compared with a number. -/
theorem order_lt_of_whole? {v : Value} {a : Int} (h : v.whole? = some a) (l : Lists) (b : Int) :
    (l.view v).order .lt (.int b) = .ok (decide (a < b)) := by
  rw [← isLT_compare]
  cases v with
  | bool | int =>
    cases h
    rfl
  | _ => cases h

/-- Other data do not compare with a number. -/
theorem order_lt_of_isData {v : Value} (hv : v.isData = true) (h : v.whole? = none) (l : Lists)
    (b : Int) : (l.view v).order .lt (.int b) = .error (.unordered "<" v.typeName "int") := by
  cases v with
  | none => rfl
  | text s => rfl
  | list id items => rfl
  | bool b => cases h
  | int n => cases h
  | _ => cases hv

/-- The comparison that a plain loop evaluates has the outcome of that of a counting loop. -/
theorem less_agrees {u : Value} {stop : Int} (hu : u.OrderedAsWord stop)
    (force : Nat → Exec Value) (h : m.Same m') :
    Agree Machine.Same Machine.Renumbered m m'
      (do isTruthy (← operate force (.text "lt") u (.int stop))) (isLess u (.int stop))
      fun _ => True := by
  have hoperate : operate force (.text "lt") u (.int stop) = apply .lt u (.int stop) := by
    cases u with
    | thunk id => cases hu.1
    | _ => rfl
  rw [hoperate]
  have hless : isLess u (.int stop) m' =
      ofExcept ((m'.lists.view u).order .lt (.int stop)) m' := rfl
  -- One compares words and the other compares numbers; a counter that is no whole number is
  -- refused by both.
  cases ha : u.whole? with
  | some a =>
    rw [order_lt_of_whole? ha] at hless
    have hwords : (do isTruthy (← apply .lt u (.int stop)) : Exec Bool) m =
        .ok (decide (a < stop)) m := by
      rw [bind_of_ok (apply_of_words ha rfl), isTruthy_apply, ← decide_eq_decide.2 (hu.2 a ha),
        ← isLT_compare]
      cases hc : (compare (Word.wrap a) (Word.wrap stop)).isLT <;>
        simp [Op.onWords, Op.accepts, hc, Word.ofBool, Lists.isTruthy]
    exact agree_of_apply hwords hless h trivial
  | none =>
    rw [order_lt_of_isData hu.1 ha] at hless
    have hvalues (l : Lists) (new : Nat) : Op.onValues l new .lt u (.int stop) =
        .error (.unordered "<" u.typeName "int") := by
      show (do return .bool (← (l.view u).order .lt (.int stop)) : Except Fault Value) = _
      rw [order_lt_of_isData hu.1 ha]
      rfl
    have hfault : apply .lt u (.int stop) m = _ := apply_of_values (.inl ha)
    rw [hvalues] at hfault
    exact agree_of_error (bind_of_error hfault) hless h.renumbered

/-- The condition of a plain loop has the outcome of the test of a counting loop. -/
theorem test_agrees {stop : Int} (h : m.Same m')
    (hordered : ∀ v mid, evaluate counter m = .ok v mid → v.OrderedAsWord stop) :
    Agree Machine.Same Machine.Renumbered m m'
      (do isTruthy (← evaluate (.binary counter "lt" (.int stop))))
      (do isLess (← evaluate counter) (.int stop)) fun _ => True := by
  -- the condition counts as an evaluation of its own, besides those of its operands
  let counted : Machine := { m with evaluations := m.evaluations + 1 }
  have hcounted : counted.Same m' := ⟨h.same, nofun, trivial⟩
  let force := forceWithin m.heap.size
  have hcondition : (do isTruthy (← evaluate (.binary counter "lt" (.int stop))) : Exec Bool) m =
      (do
        let u ← evaluate counter
        let v ← evaluateWith force (.int stop)
        isTruthy (← operate force (.text "lt") u v) : Exec Bool) counted := by
    show ((do
      let u ← evaluateWith force counter
      let v ← evaluateWith force (.int stop)
      operate force (.text "lt") u v : Exec Value) >>= isTruthy) counted = _
    simp only [bind_assoc]
    rfl
  have hcounter := (Invariant.evaluate counter hcounted).mono id Machine.Same.renumbered
  have hagree : Agree Machine.Same Machine.Renumbered counted m'
      (do
        let u ← evaluate counter
        let v ← evaluateWith force (.int stop)
        isTruthy (← operate force (.text "lt") u v))
      (do isLess (← evaluate counter) (.int stop)) fun _ => True := by
    refine agree_bind_of_ok hcounter fun n n' u hu hn _ => ?_
    have hback : counted.Same m := ⟨rfl, nofun, trivial⟩
    obtain ⟨mid, hmid, -⟩ := (Invariant.evaluate counter hback).ok hu
    have hstop : Machine.Same { n with evaluations := n.evaluations + 1 } n' :=
      ⟨hn.same, nofun, trivial⟩
    have hless := less_agrees (hordered u mid hmid) force hstop
    exact ⟨hless.ok, hless.error⟩
  exact ⟨hcondition ▸ hagree.ok, hcondition ▸ hagree.error⟩

/-! ## The two loops -/

/-- Statements do not depend on the count of evaluations. -/
theorem performs_same (k : Nat) :
    Invariant.always.Performs False (perform unwatched k) (perform unwatched k) :=
  Invariant.performs Invariant.tolerant_unwatched k

/-- One pass of each of the two loops. -/
theorem pass_agrees {stop : Int} (k : Nat) (h : m.Same m')
    (hordered : ∀ v mid, evaluate counter m = .ok v mid → v.OrderedAsWord stop) :
    Agree Machine.Same Machine.Renumbered m m'
      (steppingPass (perform unwatched k) (.binary counter "lt" (.int stop)) body false counter ())
      (countingPass (perform unwatched k) body counter (.int stop) ()) fun _ => True := by
  have agree {α : Type} {n n' : Machine} {x y : Exec α} {Q : α → Prop}
      (hxy : Invariant.always.Agrees False n n' x y Q) :
      Agree Machine.Same Machine.Renumbered n n' x y Q :=
    hxy.mono id Machine.Same.renumbered
  have hblock {n n' : Machine} (hn : n.Same n') : Invariant.always.Agrees False n n'
      (block (perform unwatched k) body) (block (perform unwatched k) body) fun _ => True :=
    agree_ofExcept_bind hn fun _ _ =>
      Invariant.inOrder (performs_same k) (fun _ _ => trivial) hn
  simp only [steppingPass, countingPass, ← bind_assoc]
  refine agree_bind (test_agrees h hordered) fun _ _ c h1 _ => ?_
  refine agree_ite (fun _ => ?_) fun _ => agree_pure h1 trivial
  refine agree_bind (agree (hblock h1)) fun _ _ b h2 _ => ?_
  refine agree_ite (fun _ => ?_) fun _ => agree_pure h2 trivial
  refine agree_bind (agree (Invariant.increment Invariant.tolerant_unwatched counter h2))
    fun _ _ _ h3 _ => ?_
  exact agree_pure h3 trivial

/-- On the passes that are left: both loops test, and as long as the tests have the same outcome the
passes end alike. -/
theorem loops_agree {stop : Int} (k n : Nat) (h : m.Same m')
    (hordered : ∀ mid, Passes (steppingPass (perform unwatched k) (.binary counter "lt" (.int stop))
      body false counter) m mid → ∀ v end', evaluate counter mid = .ok v end' →
        v.OrderedAsWord stop) :
    Agree Machine.Same Machine.Renumbered m m'
      (steppingLoop (perform unwatched k) n (.binary counter "lt" (.int stop)) body false counter)
      (iterate (countingPass (perform unwatched k) body counter (.int stop)) n ())
      fun _ => True := by
  induction n generalizing m m' with
  | zero => exact agree_throw h.renumbered
  | succ n ih =>
    refine agree_bind_of_ok (pass_agrees k h (hordered m (.refl m))) fun mid _ r hr hmid _ => ?_
    cases r with
    | inl u => exact ih hmid fun last hlast => hordered last (.step hr hlast)
    | inr b => exact agree_pure hmid trivial

end Exec

open Exec

/-- The condition `x < stop`. -/
def Tree.less (x : String) (stop : Int) : Tree :=
  .binary (.text x) "lt" (.int stop)

/-- **What a counting loop does.**  It ends as a loop does that evaluates its condition before each
pass and has the step of the counter behind its block: with the same fault or with none, on the same
machine up to counts.  At a `break` it answers `false`, where a loop that takes the `break` up
answers `true`.  If the first block is not completed there is no step, and the loop with a step is
the plain loop. -/
theorem stepping_of_counting {x : String} {stop : Int} {body : List Tree} {n : Nat} {m : Machine}
    (hordered : ∀ mid, Passes (steppingPass (perform unwatched n) (.less x stop) (.list body) false
      (.text x)) m mid → ∀ v last, evaluate (.text x) mid = .ok v last → v.OrderedAsWord stop) :
    (∀ b m₁, perform unwatched (n + 1) (.whileLoop (.less x stop) body) m = .ok b m₁ →
      ∃ m₂, m₂.Recounted m₁ ∧ ∀ taken, steppingLoop (perform unwatched n) n (.less x stop)
        (.list body) taken (.text x) m = .ok (b || taken) m₂) ∧
    (∀ e m₁, perform unwatched (n + 1) (.whileLoop (.less x stop) body) m = .error e m₁ →
      ∃ m₂, m₂.Renumbered m₁ ∧ ∀ taken, steppingLoop (perform unwatched n) n (.less x stop)
        (.list body) taken (.text x) m = .error e m₂) ∧
    ((∀ m₁, plainPass (perform unwatched n) (.less x stop) (.list body) () m ≠
        .ok (.inl ()) m₁) →
      plainLoop unwatched (perform unwatched n) n (.less x stop) (.list body) m =
        steppingLoop (perform unwatched n) n (.less x stop) (.list body) true (.text x) m) := by
  have hcounting : perform unwatched (n + 1) (.whileLoop (.less x stop) body) m =
      iterate (countingPass (perform unwatched n) (.list body) (.text x) (.int stop)) n ()
        { m with evaluations := m.evaluations + 1 } := rfl
  have hstop : m.Same { m with evaluations := m.evaluations + 1 } := ⟨rfl, nofun, trivial⟩
  have hagree := (loops_agree n n hstop hordered).symm
  rw [hcounting]
  refine ⟨fun b m₁ h => ?_, fun e m₁ h => ?_, plainLoop_of_first⟩
  · obtain ⟨m₂, hm₂, hsame, -⟩ := hagree.ok h
    refine ⟨m₂, hsame.same, fun taken => ?_⟩
    rw [steppingLoop_taken, map_apply, Tree.less, hm₂]
  · obtain ⟨m₂, hm₂, hsame⟩ := hagree.error h
    refine ⟨m₂, hsame, fun taken => ?_⟩
    rw [steppingLoop_taken, map_apply, Tree.less, hm₂]

namespace Counting

/-- `x += 1`, and `if x == 3:` `break` -/
def body : List Tree :=
  [.compound .plus (.text "x") (.int 1),
    .branch (.binary (.text "x") "eq" (.int 3)) [.breakLoop] [] []]

/-- A machine on which the eager name `x` is bound to zero. -/
def start : Machine :=
  { Machine.withEager {} ["x"] with bindings := Table.empty.insert (.ofText "x") (.int 0) }

/-- One pass of the loop with a step. -/
def pass : Unit → Exec (Unit ⊕ Bool) :=
  steppingPass (perform unwatched 5) (.less "x" 5) (.list body) false (.text "x")

/-- The first pass is completed and the second one meets the `break`; the tests are on zero and on
two. -/
theorem passes : ∃ mid, pass () start = .ok (.inl ()) mid ∧
    (∃ last, pass () mid = .ok (.inr false) last) ∧
    start.lookup (.ofText "x") = some (.int 0) ∧ mid.lookup (.ofText "x") = some (.int 2) :=
  ⟨_, by cbv, ⟨_, by cbv⟩, by cbv, by cbv⟩

theorem orderedAsWord_of_lookup {mid last : Machine} {v : Value} {a : Int}
    (hx : mid.lookup (.ofText "x") = some (.int a)) (ha : Word.wrap a < Word.wrap 5 ↔ a < 5)
    (hv : evaluate (.text "x") mid = .ok v last) : v.OrderedAsWord 5 := by
  have hvalue : evaluate (.text "x") mid =
      .ok (.int a) { mid with evaluations := mid.evaluations + 1 } := by
    have hname : isLiteral "x" = false := by cbv
    rw [evaluate, bind_of_ok (get_apply mid), evaluateWith, bind_of_ok (countEvaluation_apply mid),
      hname]
    show resolve? _ (mid.lookup (.ofText "x")) _ = _
    rw [hx]
    rfl
  rw [hvalue] at hv
  cases hv
  refine ⟨rfl, fun b hb => ?_⟩
  cases hb
  exact ha

theorem orderedAsWord {mid last : Machine} {v : Value} (hmid : Passes pass start mid)
    (hv : evaluate (.text "x") mid = .ok v last) : v.OrderedAsWord 5 := by
  obtain ⟨next, hfirst, ⟨_, hsecond⟩, hzero, htwo⟩ := passes
  rcases hmid with _ | ⟨hpass, (_ | ⟨hpass', -⟩)⟩
  · exact orderedAsWord_of_lookup hzero (by decide) hv
  · rw [hfirst] at hpass
    cases hpass
    exact orderedAsWord_of_lookup htwo (by decide) hv
  · rw [hfirst] at hpass
    cases hpass
    rw [hsecond] at hpass'
    cases hpass'

/-- The loop ends with the `break`, and it has recorded a zero and a two. -/
theorem ends : ∃ m₁, perform unwatched 6 (.whileLoop (.less "x" 5) body) start = .ok false m₁ ∧
    (m₁.history.of (.ofText "x")).map Change.old = [.int 2, .int 0] :=
  ⟨_, by cbv, by cbv⟩

end Counting

/-- A counting loop that is left by a `break` after two tests. -/
theorem stepping_of_counting_break : ∃ m₁ m₂, m₂.Recounted m₁ ∧
    perform unwatched 6 (.whileLoop (.less "x" 5) Counting.body) Counting.start =
      .ok false m₁ ∧
    ∀ taken, steppingLoop (perform unwatched 5) 5 (.less "x" 5) (.list Counting.body) taken
      (.text "x") Counting.start = .ok taken m₂ := by
  obtain ⟨m₁, hend, -⟩ := Counting.ends
  have hordered : ∀ mid, Passes (steppingPass (perform unwatched 5) (.less "x" 5)
      (.list Counting.body) false (.text "x")) Counting.start mid →
      ∀ v last, evaluate (.text "x") mid = .ok v last → v.OrderedAsWord 5 :=
    fun _ hmid _ _ hv => Counting.orderedAsWord hmid hv
  obtain ⟨m₂, hsame, hloop⟩ := (stepping_of_counting hordered).1 false m₁ hend
  exact ⟨m₁, m₂, hsame, hend, hloop⟩

/-- With `x += 1` in its block the loop skips a number, and the `break` is left to others. -/
theorem counting_skips : ∃ m₁ m₂,
    perform unwatched 6 (.whileLoop (.less "x" 5) Counting.body) Counting.start =
      .ok false m₁ ∧
    plainLoop unwatched (perform unwatched 5) 5 (.less "x" 5) (.list Counting.body)
      Counting.start = .ok true m₂ ∧
    (m₁.history.of (.ofText "x")).map Change.old = [.int 2, .int 0] ∧
    (m₂.history.of (.ofText "x")).map Change.old = [.int 2, .int 1, .int 0] := by
  obtain ⟨m₁, hend, hrecorded⟩ := Counting.ends
  exact ⟨m₁, _, hend, by cbv, hrecorded, by cbv⟩

end Retrace
