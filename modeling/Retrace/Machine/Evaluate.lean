import Retrace.Machine
import Retrace.Text.Numeric
import Retrace.Value.Operator

/-!
# Evaluating expressions

An expression is evaluated from left to right, and every part of it counts as an evaluation.  A
name that is not bound has no value.  A name that is bound to a thunk has the value of its
expression, which is worked out when it is asked for the first time, and is kept from then on.

A thunk may ask for the values of other thunks.  If none of them asks for itself, at most all
thunks of the heap are being worked out at the same time; so the heap's size is a depth that is
never exceeded, unless the thunk depends on itself and would have no end.

Expressions may be as deep as they like, and thunks may ask for each other in chains of any length:
nothing here limits how deeply calls nest.  A program that runs on the stack of a host has such a
limit, and stops with a fault where this one comes to a value; what is proved of evaluations, and of
statements and readers, is said of calls within that limit.

* `evaluateWith force`: expressions, given how thunks are worked out.
* `forceWithin depth`: thunks, within a depth.
* `evaluate`, `force`: the same, within the size of the heap.
-/

set_option autoImplicit false
namespace Retrace
namespace Exec

/-- The item of a value at a position. -/
def item (v position : Value) : Exec Value := do
  match v with
  | .list id xs =>
    match position.whole? with
    | some n => ofExcept (Sequence.item ((← get).lists.contents id xs) n)
    | none => throw (.badIndex position.typeName)
  | v => fail (.notIndexable (← shown v))

/-- The length of a value. -/
def lengthOf : Value → Exec Value
  | .text s => return .int s.length
  | .list id xs => return .int ((← get).lists.contents id xs).length
  | v => fail (.noLength v.typeName)

/-- The value of a thunk, and any other value itself. -/
def resolve (force : Nat → Exec Value) : Value → Exec Value
  | .thunk id => force id
  | v => return v

/-- The value of what a name may be bound to. -/
def resolve? (force : Nat → Exec Value) : Option Value → Exec Value
  | none => return .none
  | some v => resolve force v

/-- The result of an operator on two values. -/
def apply (op : Op) (u v : Value) : Exec Value := do
  match u.whole?, v.whole? with
  | some a, some b => return .int (op.onWords a b)
  | _, _ =>
    let new ← newId
    ofExcept (op.onValues (← get).lists new u v)

/-- The result of the operator that a tree names; operands that are thunks are worked out. -/
def operate (force : Nat → Exec Value) (op : Tree) (u v : Value) : Exec Value := do
  let u ← resolve force u
  let v ← resolve force v
  match Op.ofTree? op with
  | some op => apply op u v
  | none => fail (.unknownOperator op)

/-- Is a text its own value?  Numerals and literals are; all else is a name. -/
def isLiteral (s : String) : Bool :=
  Tree.isRaw s || Text.Numeric.isNumeric s || s.startsWith "\""

mutual

/-- The value of an expression. -/
def evaluateWith (force : Nat → Exec Value) : Tree → Exec Value
  | .thunk _ => do
    countEvaluation
    throw .thunkAsExpression
  | .list xs => do
    countEvaluation
    let vs ← evaluateItems force xs
    newList vs
  | .tuple [left, op, right] => do
    countEvaluation
    let u ← evaluateWith force left
    let v ← evaluateWith force right
    if op.isText "index" then item u v else operate force op u v
  | .tuple [first, e] => do
    countEvaluation
    if first.isText "len" then
      let v ← evaluateWith force e
      lengthOf v
    else fail (.badTuple (.tuple [first, e]))
  | .tuple xs => do
    countEvaluation
    fail (.badTuple (.tuple xs))
  | .int n => do
    countEvaluation
    return .int n
  | .bool b => do
    countEvaluation
    return .bool b
  | .text s => do
    countEvaluation
    if isLiteral s then return .ofString s
    else resolve? force ((← get).lookup (.ofText s))
  | t => do
    countEvaluation
    fail (.badExpression t)

/-- The values of expressions, in order. -/
def evaluateItems (force : Nat → Exec Value) : List Tree → Exec (List Value)
  | [] => return []
  | x :: rest => do
    let v ← evaluateWith force x
    let vs ← evaluateItems force rest
    return v :: vs

end

/-- The value of a thunk, if not more than `depth` thunks are worked out at the same time. -/
def forceWithin : Nat → Nat → Exec Value
  | 0, _ => throw .circular
  | depth + 1, id => do
    match (← get).heap[id]? with
    | none => return .none
    | some thunk =>
      match thunk.value? with
      | some v => return v
      | none => do
        let v ← evaluateWith (forceWithin depth) thunk.expression
        settle id v
        return v

/-- The value of a thunk. -/
def force (id : Nat) : Exec Value := do
  forceWithin (← get).heap.size id

/-- The value of an expression. -/
def evaluate (e : Tree) : Exec Value := do
  evaluateWith (forceWithin (← get).heap.size) e

/-- The value that a name is bound to. -/
def valueOfName (name : Name) : Exec Value := do
  resolve? force ((← get).lookup name)

/-- The value of the thunk that a name is bound to. -/
def forceName (name : Name) : Exec Value := do
  match (← get).lookup name with
  | some (.thunk id) => force id
  | some v => throw (.notAThunk v.typeName)
  | none => throw (.unbound name.tree)

end Exec
end Retrace
