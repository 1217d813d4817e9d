import Retrace.Proofs.Faults
import Retrace.Proofs.Guard

/-!
# Strict runs

A name that is not bound has no value, and a run goes on with that.  A *strict* run goes as the run
does, but stops with the fault `unbound` as soon as an evaluation looks such a name up, be it for a
statement or for a thunk that is worked out on the way.  So if the strict run goes as the run does,
no evaluation of the run ever looks up a name that is not bound at that moment.

This is how a property of all lookups in a run is said.  A guard would not do, as guards are told of
evaluations that statements make and not of the names that are looked up while a thunk is worked
out.  So evaluating is defined once more, with what is done about names as a parameter
(`evaluateBy`).  To look them up is what evaluating does (`evaluateBy_lookUp`), so that the new
definition is tied to the old one, and the strict evaluation differs from it at names and nowhere
else.

A statement has a strict evaluation tried out by its watch, before the evaluation itself: if it
stops at a name that is not bound the run stops, and else all that it did is forgotten.  Compound
assignments look up their own variable without a watch, and have a strict version of their own.
There the variable itself may be unbound, and this is no fault: the assignment fails on its own
account.

When a strict evaluation goes as the evaluation does depends on what is bound, and on what waiting
thunks read (`Machine.Supplied`).  While values are looked at, bindings stay as they are and waiting
thunks become fewer, so the condition on the machine at the start is enough for all that comes up on
the way.

* `evaluateBy`: expressions, given what is done about names; `evaluateBy_lookUp`: to look them up is
  what evaluating does.
* `evaluateStrictly`, `performStrictly`, `Run.executeStrictly`: strict evaluations and runs.
* `evaluateStrictly_unbound`: they stop at a name that is not bound.
* `Machine.Supplied`: all that waiting thunks read is bound.
* `evaluateStrictly_eq`: what reads bound names only is evaluated strictly as it is evaluated.
-/

set_option autoImplicit false

namespace Retrace
namespace Exec

open Machine (Looks)

/-! ## Strict evaluations -/

mutual

/-- The value of an expression, given how thunks are worked out and what is done about names. -/
def evaluateBy (force : Nat → Exec Value) (ask : Name → Exec Value) : Tree → Exec Value
  | .thunk _ => do
    countEvaluation
    throw .thunkAsExpression
  | .list xs => do
    countEvaluation
    let vs ← evaluateItemsBy force ask xs
    newList vs
  | .tuple [left, op, right] => do
    countEvaluation
    let u ← evaluateBy force ask left
    let v ← evaluateBy force ask right
    if op.isText "index" then item u v else operate force op u v
  | .tuple [first, e] => do
    countEvaluation
    if first.isText "len" then
      let v ← evaluateBy force ask e
      lengthOf v
    else fail (.badTuple (.tuple [first, e]))
  | .tuple xs => do
    countEvaluation
    fail (.badTuple (.tuple xs))
  | .int n => do
    countEvaluation
    return .int n
  | .bool b => do
    countEvaluation
    return .bool b
  | .text s => do
    countEvaluation
    if isLiteral s then return .ofString s else ask (.ofText s)
  | t => do
    countEvaluation
    fail (.badExpression t)

/-- The values of expressions, in order. -/
def evaluateItemsBy (force : Nat → Exec Value) (ask : Name → Exec Value) :
    List Tree → Exec (List Value)
  | [] => return []
  | x :: rest => do
    let v ← evaluateBy force ask x
    let vs ← evaluateItemsBy force ask rest
    return v :: vs

end

/-- What evaluating does about a name. -/
def lookUp (force : Nat → Exec Value) (name : Name) : Exec Value := do
  resolve? force ((← get).lookup name)

mutual

/-- Looking names up is what evaluating does about them. -/
theorem evaluateBy_lookUp (force : Nat → Exec Value) : ∀ e : Tree,
    evaluateBy force (lookUp force) e = evaluateWith force e
  | .thunk _ => rfl
  | .list es => by rw [evaluateBy, evaluateWith, evaluateItemsBy_lookUp]
  | .tuple [left, op, right] => by
    rw [evaluateBy, evaluateWith, evaluateBy_lookUp force left, evaluateBy_lookUp force right]
  | .tuple [first, e] => by rw [evaluateBy, evaluateWith, evaluateBy_lookUp force e]
  | .tuple [] => rfl
  | .tuple [_] => rfl
  | .tuple (_ :: _ :: _ :: _ :: _) => rfl
  | .int _ => rfl
  | .bool _ => rfl
  | .text _ => rfl
  | .none => rfl
  | .float _ => rfl

theorem evaluateItemsBy_lookUp (force : Nat → Exec Value) : ∀ es : List Tree,
    evaluateItemsBy force (lookUp force) es = evaluateItems force es
  | [] => rfl
  | e :: rest => by
    rw [evaluateItemsBy, evaluateItems, evaluateBy_lookUp force e,
      evaluateItemsBy_lookUp force rest]

end

/-- Looks up a name that has to be bound. -/
def lookUpBound (force : Nat → Exec Value) (name : Name) : Exec Value := do
  match (← get).lookup name with
  | some v => resolve force v
  | none => throw (.unbound name.tree)

/-- The value of a thunk, for which bound names only are looked up. -/
def forceStrictlyWithin : Nat → Nat → Exec Value
  | 0, _ => throw .circular
  | depth + 1, id => do
    match (← get).heap[id]? with
    | none => return .none
    | some thunk =>
      match thunk.value? with
      | some v => return v
      | none => do
        let v ← evaluateBy (forceStrictlyWithin depth) (lookUpBound (forceStrictlyWithin depth))
          thunk.expression
        settle id v
        return v

/-- The value of a thunk, for which bound names only are looked up. -/
def forceStrictly (id : Nat) : Exec Value := do
  forceStrictlyWithin (← get).heap.size id

/-- The value that a name is bound to, for which bound names only are looked up. -/
def valueStrictly (name : Name) : Exec Value := do
  resolve? forceStrictly ((← get).lookup name)

/-- The value of an expression, for which bound names only are looked up. -/
def evaluateStrictly (e : Tree) : Exec Value := do
  let depth := (← get).heap.size
  evaluateBy (forceStrictlyWithin depth) (lookUpBound (forceStrictlyWithin depth)) e

/-- A strict evaluation stops at a name that is not bound. -/
theorem evaluateStrictly_unbound {s : String} {m : Machine} (hs : isLiteral s = false)
    (hm : m.lookup (.ofText s) = none) :
    evaluateStrictly (.text s) m =
      .error (.unbound (.text s)) { m with evaluations := m.evaluations + 1 } := by
  rw [evaluateStrictly, bind_of_ok (get_apply m), evaluateBy, bind_of_ok (countEvaluation_apply m),
    hs, if_neg Bool.false_ne_true, lookUpBound, bind_of_ok (get_apply _)]
  change (match m.lookup (.ofText s) with
    | some v => resolve _ v
    | none => throw (Fault.unbound (.text s)) : Exec Value) _ = _
  rw [hm]
  rfl

/-! ## Strict runs -/

/-- Stops if a step would stop because of a name that is not bound, and does nothing else. -/
def tryOut (x : Exec Value) : Exec Unit := fun m =>
  match x m with
  | .error (.unbound t) _ => .error (.unbound t) m
  | _ => .ok () m

/-- A watch under which every evaluation is tried out strictly before. -/
def strictly : Watch
  | .evaluation e => tryOut (evaluateStrictly e)
  | _ => return ()

/-- `name += value` and the like, where the value that the variable had is worked out strictly as
well. -/
def compoundStrictly (op : Compound) (t : Tree) : Exec Unit := do
  let (_, target, e) ← ofExcept t.unpack3
  let name ← ofExcept (Name.ofTree target)
  let current ← valueStrictly name
  let operand ← resolve forceStrictly (← evaluateWatched strictly e)
  remember name current
  match current.whole? with
  | none => throw (.notAnInteger current.typeName)
  | some a =>
    match operand.whole? with
    | none => throw .wrongOperand
    | some b =>
      let new ← wordFor name (op.onWords a b)
      bindWatched strictly name new

/-- A statement, given how those inside of it are carried out and how often a loop may be
repeated. -/
def statementStrictly (run : Tree → Exec Bool) (n : Nat) (t : Tree) : Exec Bool := do
  let tag ← ofExcept t.head
  match Form.ofTree? tag with
  | some (.compound op) => simply (compoundStrictly op t)
  | _ => statement strictly run n t

/-- Carries out a statement strictly. -/
def performStrictly : Nat → Tree → Exec Bool
  | 0, _ => throw .outOfFuel
  | n + 1, t => statementStrictly (performStrictly n) n t

/-- Carries out a statement strictly.  A `break` that no loop takes up is a fault. -/
def carryOutStrictly (n : Nat) (t : Tree) : Exec Unit := do
  if !(← performStrictly n t) then throw .breakOutsideLoop

end Exec

namespace Run

/-- Carries out a statement of the outermost level strictly. -/
def topLevelStrictly (n : Nat) (t : Tree) : Exec Unit := do
  Exec.carryOutStrictly n t
  Exec.prune

/-- Carries out a program strictly. -/
def executeStrictly (n : Nat) (program : List Tree) (m : Machine) : Report :=
  executeBy (topLevelStrictly n) program m

end Run

/-! ## When a strict evaluation goes as the evaluation does -/

/-- All names that waiting thunks read are bound. -/
def Machine.Supplied (m : Machine) : Prop :=
  ∀ {id : Nat} {e : Tree}, m.heap[id]? = some ⟨e, none⟩ →
    ∀ name ∈ e.reads, (m.lookup name).isSome = true

namespace Exec

open Machine (Looks)

section

variable {m : Machine} {force force' : Nat → Exec Value}
variable (hforce : ∀ id a, m.Looks a → force id a = force' id a)
variable (hlooks : ∀ id, Keeps Looks (force' id))
include hforce

theorem resolve_congr (v : Value) {a : Machine} (ha : m.Looks a) :
    resolve force v a = resolve force' v a := by
  cases v with
  | thunk id => exact hforce id a ha
  | _ => rfl

include hlooks

theorem operate_congr (op : Tree) (u v : Value) {a : Machine} (ha : m.Looks a) :
    operate force op u v a = operate force' op u v a := by
  refine bind_congr_at (resolve_congr hforce u ha) fun u' b hb => ?_
  have hlb := onward_looks.trans ha ((resolve_looks hlooks u).ok hb)
  exact bind_congr_at (resolve_congr hforce v hlb) fun _ _ _ => rfl

end

mutual

/-- What reads bound names only is evaluated strictly as it is evaluated. -/
theorem evaluateBy_bound {m : Machine} {force force' : Nat → Exec Value}
    (hforce : ∀ id a, m.Looks a → force id a = force' id a)
    (hlooks : ∀ id, Keeps Looks (force' id)) : ∀ (e : Tree) {a : Machine}, m.Looks a →
    (∀ name ∈ e.reads, (m.lookup name).isSome = true) →
    evaluateBy force (lookUpBound force) e a = evaluateWith force' e a
  | .thunk _, _, _, _ => rfl
  | .list es, a, ha, he => by
    rw [evaluateBy, evaluateWith]
    refine bind_congr_at rfl fun _ b hb => ?_
    have hlb := onward_looks.trans ha (countEvaluation_looks.ok hb)
    exact bind_congr_at (evaluateItemsBy_bound hforce hlooks es hlb he) fun _ _ _ => rfl
  | .tuple [left, op, right], a, ha, he => by
    rw [evaluateBy, evaluateWith]
    refine bind_congr_at rfl fun _ b hb => ?_
    have hlb := onward_looks.trans ha (countEvaluation_looks.ok hb)
    have hleft : ∀ name ∈ left.reads, (m.lookup name).isSome = true :=
      fun name hn => he name (List.mem_append_left _ hn)
    have hright : ∀ name ∈ right.reads, (m.lookup name).isSome = true :=
      fun name hn => he name (List.mem_append_right _ hn)
    refine bind_congr_at (evaluateBy_bound hforce hlooks left hlb hleft) fun u c hc => ?_
    have hlc := onward_looks.trans hlb ((evaluateWith_looks hlooks left).ok hc)
    refine bind_congr_at (evaluateBy_bound hforce hlooks right hlc hright) fun v d hd => ?_
    have hld := onward_looks.trans hlc ((evaluateWith_looks hlooks right).ok hd)
    split
    · rfl
    · exact operate_congr hforce hlooks op u v hld
  | .tuple [first, e], a, ha, he => by
    rw [evaluateBy, evaluateWith]
    refine bind_congr_at rfl fun _ b hb => ?_
    have hlb := onward_looks.trans ha (countEvaluation_looks.ok hb)
    rw [Tree.reads] at he
    split
    · next hlen =>
      rw [if_pos hlen] at he
      exact bind_congr_at (evaluateBy_bound hforce hlooks e hlb he) fun _ _ _ => rfl
    · rfl
  | .tuple [], _, _, _ => rfl
  | .tuple [_], _, _, _ => rfl
  | .tuple (_ :: _ :: _ :: _ :: _), _, _, _ => rfl
  | .int _, _, _, _ => rfl
  | .bool _, _, _, _ => rfl
  | .text s, a, ha, he => by
    rw [evaluateBy, evaluateWith]
    refine bind_congr_at rfl fun _ b hb => ?_
    have hlb := onward_looks.trans ha (countEvaluation_looks.ok hb)
    rw [Tree.reads] at he
    split
    · rfl
    · next hs =>
      rw [if_neg hs] at he
      have hsome := he _ (List.mem_singleton_self _)
      obtain ⟨v, hv⟩ := Option.isSome_iff_exists.1 hsome
      rw [lookUpBound, bind_of_ok (get_apply b), bind_of_ok (get_apply b), hlb.lookup, hv]
      exact resolve_congr hforce v hlb
  | .none, _, _, _ => rfl
  | .float _, _, _, _ => rfl

theorem evaluateItemsBy_bound {m : Machine} {force force' : Nat → Exec Value}
    (hforce : ∀ id a, m.Looks a → force id a = force' id a)
    (hlooks : ∀ id, Keeps Looks (force' id)) : ∀ (es : List Tree) {a : Machine}, m.Looks a →
    (∀ name ∈ Tree.readsOf es, (m.lookup name).isSome = true) →
    evaluateItemsBy force (lookUpBound force) es a = evaluateItems force' es a
  | [], _, _, _ => rfl
  | e :: rest, a, ha, he => by
    have hhead : ∀ name ∈ e.reads, (m.lookup name).isSome = true :=
      fun name hn => he name (List.mem_append_left _ hn)
    have htail : ∀ name ∈ Tree.readsOf rest, (m.lookup name).isSome = true :=
      fun name hn => he name (List.mem_append_right _ hn)
    rw [evaluateItemsBy, evaluateItems]
    refine bind_congr_at (evaluateBy_bound hforce hlooks e ha hhead) fun v b hb => ?_
    have hlb := onward_looks.trans ha ((evaluateWith_looks hlooks e).ok hb)
    exact bind_congr_at (evaluateItemsBy_bound hforce hlooks rest hlb htail) fun _ _ _ => rfl

end

section

variable {m : Machine} (hm : m.Supplied)
include hm

/-- A thunk is worked out strictly as it is worked out. -/
theorem forceStrictlyWithin_eq (depth id : Nat) {a : Machine} (ha : m.Looks a) :
    forceStrictlyWithin depth id a = forceWithin depth id a := by
  induction depth generalizing id a with
  | zero => rfl
  | succ depth ih =>
    rw [forceStrictlyWithin, forceWithin, bind_of_ok (get_apply a), bind_of_ok (get_apply a)]
    cases ht : a.heap[id]? with
    | none => rfl
    | some thunk =>
      obtain ⟨e, _ | v⟩ := thunk
      · have hreads := hm (ha.waiting ht)
        refine bind_congr_at ?_ fun _ _ _ => rfl
        exact evaluateBy_bound (fun id _ hb => ih id hb) (forceWithin_looks depth) e ha hreads
      · rfl

theorem forceStrictly_eq (id : Nat) {a : Machine} (ha : m.Looks a) :
    forceStrictly id a = force id a :=
  forceStrictlyWithin_eq hm a.heap.size id ha

/-- An expression that reads bound names only. -/
theorem evaluateStrictly_eq {e : Tree} (he : ∀ name ∈ e.reads, (m.lookup name).isSome = true) :
    evaluateStrictly e m = evaluate e m :=
  evaluateBy_bound (fun id _ ha => forceStrictlyWithin_eq hm m.heap.size id ha)
    (forceWithin_looks m.heap.size) e (looks_refl m) he

/-- No evaluation has the fault for which strict ones are tried out. -/
theorem evaluateWatched_strictly {e : Tree}
    (he : ∀ name ∈ e.reads, (m.lookup name).isSome = true) :
    evaluateWatched strictly e m = evaluate e m := by
  have htry : tryOut (evaluateStrictly e) m = .ok () m := by
    rw [tryOut, evaluateStrictly_eq hm he]
    split
    · next t n hfault => cases evaluate_stops e m n _ hfault
    · rfl
  exact bind_of_ok htry

end

end Exec
end Retrace
