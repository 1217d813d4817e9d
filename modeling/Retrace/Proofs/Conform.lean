import Retrace.Proofs.Shape

/-!
# Values and the numbers of their lists

Each list has a number of its own, which tells it from other lists of the same items.  The `shape`
of a value is the value without these numbers.  As long as no list has grown (`Lists.Fresh`),
nothing that can be done with values depends on more than their shapes.

The one operation that looks at the numbers is comparing: two lists of one number are equal at once.
They are equal by their items as well, but only because a number is given to one list.  A value
alone does not tell that, as it could be any tree with any numbers in it.  So there is a registry,
which tells the items of each number, and values *conform* to it: each list in them has a number
that is in use and the items that the registry tells.  Two values that conform to one registry have
the same items wherever they have the same number, and then comparing goes by the items
(`same_eq_equal`).

A registry is no part of a machine, and none of its functions needs one.  It exists in proofs only,
and is chosen as a machine runs: when a list is built it is entered under its new number, and what
conformed before goes on to conform, since nothing is said of numbers that are not in use
(`Conforms.mono`, `Built.register`).  It is a function on all numbers for that reason, and not a
table that would have to be kept in step.

A list cannot stand inside of itself if its items are those that the registry tells, for it would be
larger than itself; this is what makes a view come to an end without being cut off
(`viewWith_plain`).

Operators are then done on shapes: `Op.onShapes` is a function of two shapes, and the operators on
values come to a result of the shape that it tells, and to a fault if it tells of a fault
(`onValues_shape`).  What results conforms to the registry, or is a new list of items that do
(`onValues_built`).

* `Value.Conforms`, `Lists.Fresh`: registries, and lists that have not grown.
* `Lists.Fresh.view`: a value that conforms to a registry looks as it was made.
* `same_eq_equal`, `order_eq_orderBy`: comparing goes by the items.
* `Op.onShapes`, `onValues_shape`: operators on shapes, and that those on values come to the same.
* `onValues_built`: what results conforms to the registry, or is a new list that can be entered in
  it.
-/

set_option autoImplicit false

namespace Retrace
namespace Value

/-! ## Values and their views -/

mutual

/-- A value without the numbers of its lists. -/
def shape : Value → Value
  | .none => .none
  | .bool b => .bool b
  | .int n => .int n
  | .float x => .float x
  | .text s => .text s
  | .list _ items => .list 0 (shapes items)
  | .tuple items => .tuple (shapes items)
  | .thunk id => .thunk id

/-- Values without the numbers of their lists. -/
def shapes : List Value → List Value
  | [] => []
  | v :: rest => shape v :: shapes rest

end

mutual

/-- The view of a value none of whose lists has grown. -/
def plain : Value → View
  | .none => .none
  | .bool b => .bool b
  | .int n => .int n
  | .float x => .float x
  | .text s => .text s
  | .list id items => .list id (plains items)
  | .tuple items => .tuple (plains items)
  | .thunk id => .thunk id

/-- The views of values none of whose lists has grown. -/
def plains : List Value → List View
  | [] => []
  | v :: rest => plain v :: plains rest

end

theorem shapes_eq_map (vs : List Value) : shapes vs = vs.map shape := by
  induction vs with
  | nil => rfl
  | cons v rest ih => rw [shapes, ih, List.map_cons]

mutual

/-- The shape of a view is the view of the shape. -/
theorem plain_shape : ∀ v : Value, v.shape.plain = v.plain.shape
  | .none => rfl
  | .bool _ => rfl
  | .int _ => rfl
  | .float _ => rfl
  | .text _ => rfl
  | .list _ items => by rw [shape, plain, plain, View.shape, plains_shapes]
  | .tuple items => by rw [shape, plain, plain, View.shape, plains_shapes]
  | .thunk _ => rfl

theorem plains_shapes : ∀ vs : List Value, plains (shapes vs) = View.shapes (plains vs)
  | [] => rfl
  | v :: rest => by rw [shapes, plains, plains, View.shapes, plain_shape, plains_shapes]

end

/-! ## Registries -/

mutual

/-- A value conforms to a registry if each of its lists has a number below `next` and the items that
the registry has under that number.  No thunk stands in it. -/
def Conforms (reg : Nat → List Value) (next : Nat) : Value → Prop
  | .none => True
  | .bool _ => True
  | .int _ => True
  | .float _ => True
  | .text _ => True
  | .list id items => id < next ∧ reg id = items ∧ ConformAll reg next items
  | .tuple items => ConformAll reg next items
  | .thunk _ => False

/-- All values conform to a registry. -/
def ConformAll (reg : Nat → List Value) (next : Nat) : List Value → Prop
  | [] => True
  | v :: rest => Conforms reg next v ∧ ConformAll reg next rest

end

variable {reg reg' : Nat → List Value} {next next' : Nat}

theorem conformAll_iff {vs : List Value} :
    ConformAll reg next vs ↔ ∀ v ∈ vs, v.Conforms reg next := by
  induction vs with
  | nil => simp [ConformAll]
  | cons v rest ih => simp [ConformAll, ih]

mutual

/-- A registry may be extended by numbers that are not in use. -/
theorem Conforms.mono (hreg : ∀ i < next, reg' i = reg i) (hnext : next ≤ next') :
    ∀ {v : Value}, v.Conforms reg next → v.Conforms reg' next'
  | .none, _ => trivial
  | .bool _, _ => trivial
  | .int _, _ => trivial
  | .float _, _ => trivial
  | .text _, _ => trivial
  | .list id _, ⟨hid, hitems, hall⟩ =>
    ⟨Nat.lt_of_lt_of_le hid hnext, (hreg id hid).trans hitems, ConformAll.mono hreg hnext hall⟩
  | .tuple _, h => ConformAll.mono hreg hnext h

theorem ConformAll.mono (hreg : ∀ i < next, reg' i = reg i) (hnext : next ≤ next') :
    ∀ {vs : List Value}, ConformAll reg next vs → ConformAll reg' next' vs
  | [], _ => trivial
  | _ :: _, ⟨hv, hrest⟩ => ⟨Conforms.mono hreg hnext hv, ConformAll.mono hreg hnext hrest⟩

end

end Value

/-- No list has grown. -/
def Lists.Fresh (l : Lists) : Prop :=
  l.added.entries = []

namespace Lists

variable {l : Lists} {reg : Nat → List Value} {next : Nat}

theorem Fresh.addedTo (h : l.Fresh) (id : Nat) : l.addedTo id = [] := by
  rw [Lists.addedTo, Table.get?, h]
  rfl

/-- A list that has not grown holds what it was made of. -/
theorem Fresh.contents (h : l.Fresh) (id : Nat) (items : List Value) :
    l.contents id items = items := by
  rw [Lists.contents, h.addedTo]

/-- What lists were extended by conforms to the registry. -/
def Conform (l : Lists) (reg : Nat → List Value) (next : Nat) : Prop :=
  ∀ id, Value.ConformAll reg next (l.addedTo id)

theorem Fresh.conform (h : l.Fresh) : l.Conform reg next := by
  intro id
  rw [h.addedTo]
  trivial

mutual

/-- A list that conforms does not hold itself, since it would be larger than itself; so a view of it
never refers back. -/
theorem viewWith_plain {around : List Nat} : ∀ {v : Value}, v.Conforms reg next →
    (∀ i ∈ around, sizeOf v ≤ sizeOf (reg i)) → viewWith (fun _ _ => []) around v = v.plain
  | .none, _, _ => rfl
  | .bool _, _, _ => rfl
  | .int _, _, _ => rfl
  | .float _, _, _ => rfl
  | .text _, _, _ => rfl
  | .list id items, ⟨_, hitems, hall⟩, hsize => by
    have hnot : around.contains id = false := by
      rw [Bool.eq_false_iff, Ne, List.contains_iff_mem]
      intro hmem
      have := hsize id hmem
      rw [hitems, Value.list.sizeOf_spec] at this
      omega
    rw [viewWith, hnot, Value.plain]
    simp only [Bool.false_eq_true, if_false, List.append_nil]
    rw [viewsWith_plain hall]
    intro i hi
    rcases List.mem_cons.1 hi with rfl | hi
    · exact Nat.le_of_eq (by rw [hitems])
    · refine Nat.le_trans ?_ (hsize i hi)
      rw [Value.list.sizeOf_spec]
      omega
  | .tuple items, h, hsize => by
    rw [viewWith, Value.plain, viewsWith_plain h]
    intro i hi
    refine Nat.le_trans ?_ (hsize i hi)
    rw [Value.tuple.sizeOf_spec]
    omega

theorem viewsWith_plain {around : List Nat} : ∀ {vs : List Value},
    Value.ConformAll reg next vs → (∀ i ∈ around, sizeOf vs ≤ sizeOf (reg i)) →
    viewsWith (fun _ _ => []) around vs = Value.plains vs
  | [], _, _ => rfl
  | v :: rest, ⟨hv, hrest⟩, hsize => by
    rw [viewsWith, Value.plains, viewWith_plain hv, viewsWith_plain hrest]
    · intro i hi
      refine Nat.le_trans ?_ (hsize i hi)
      rw [List.cons.sizeOf_spec]
      omega
    · intro i hi
      refine Nat.le_trans ?_ (hsize i hi)
      rw [List.cons.sizeOf_spec]
      omega

end

/-- While no list has grown, a value looks as it was made. -/
theorem Fresh.view (h : l.Fresh) {v : Value} (hv : v.Conforms reg next) : l.view v = v.plain := by
  have hadded : l.addedWithin l.added.entries.length = fun _ _ => [] := by
    rw [h]
    rfl
  rw [Lists.view, hadded]
  exact viewWith_plain hv (by simp)

end Lists

namespace Value

variable {reg : Nat → List Value} {next : Nat}

/-! ## Comparing -/

/-- What is one and the same is equal, so items count as equal if they are. -/
theorem sameItem_of_same {u v : Value} (h : u.plain.same v.plain = u.plain.equal v.plain) :
    View.sameItem u.plain v.plain = View.equalItem u.plain v.plain := by
  rw [View.sameItem, View.equalItem, h]
  cases u with
  | float x => cases v <;> rfl
  | list i xs =>
    cases v with
    | list j ys =>
      rw [← h]
      show (i == j || (i == j || _)) = (false || (i == j || _))
      rw [← Bool.or_assoc, Bool.or_self, Bool.false_or]
    | _ => rfl
  | _ => rfl

mutual

/-- Values that conform to one registry are the same exactly if they are equal by their items. -/
theorem same_eq_equal : ∀ {u v : Value}, u.Conforms reg next → v.Conforms reg next →
    u.plain.same v.plain = u.plain.equal v.plain
  | .none, v, _, _ => by cases v <;> rfl
  | .bool _, v, _, _ => by cases v <;> rfl
  | .int _, v, _, _ => by cases v <;> rfl
  | .float _, v, _, _ => by cases v <;> rfl
  | .text _, v, _, _ => by cases v <;> rfl
  | .list i xs, v, hu, hv => by
    cases v with
    | list j ys =>
      have hitems := sameItems_eq_equalItems hu.2.2 hv.2.2
      show (i == j || View.sameItems (plains xs) (plains ys)) =
        View.equalItems (plains xs) (plains ys)
      rw [← hitems]
      by_cases hij : i = j
      · -- lists of one number have the same items
        subst hij
        rw [← hu.2.1, hv.2.1, View.sameItems_self, Bool.or_true]
      · rw [beq_false_of_ne hij, Bool.false_or]
    | _ => rfl
  | .tuple xs, v, hu, hv => by
    cases v with
    | tuple ys => exact sameItems_eq_equalItems hu hv
    | _ => rfl

theorem sameItems_eq_equalItems : ∀ {us vs : List Value}, ConformAll reg next us →
    ConformAll reg next vs →
    View.sameItems (plains us) (plains vs) = View.equalItems (plains us) (plains vs)
  | [], [], _, _ => rfl
  | [], _ :: _, _, _ => rfl
  | _ :: _, [], _, _ => rfl
  | u :: us, v :: vs, hu, hv => by
    rw [plains, plains, View.sameItems, View.equalItems, sameItems_eq_equalItems hu.2 hv.2]
    congr 1
    exact sameItem_of_same (same_eq_equal hu.1 hv.1)

end

mutual

/-- The order of values that conform to one registry goes by the items of lists. -/
theorem order_eq_orderBy (op : Op) : ∀ {u v : Value}, u.Conforms reg next → v.Conforms reg next →
    View.orderBy View.sameItem op u.plain v.plain = View.orderBy View.equalItem op u.plain v.plain
  | .none, v, _, _ => by cases v <;> rfl
  | .bool _, v, _, _ => by cases v <;> rfl
  | .int _, v, _, _ => by cases v <;> rfl
  | .float _, v, _, _ => by cases v <;> rfl
  | .text _, v, _, _ => by cases v <;> rfl
  | .list i xs, v, hu, hv => by
    cases v with
    | list j ys => exact orderItems_eq_orderItemsBy op hu.2.2 hv.2.2
    | _ => rfl
  | .tuple xs, v, hu, hv => by
    cases v with
    | tuple ys => exact orderItems_eq_orderItemsBy op hu hv
    | _ => rfl

theorem orderItems_eq_orderItemsBy (op : Op) : ∀ {us vs : List Value}, ConformAll reg next us →
    ConformAll reg next vs → View.orderItemsBy View.sameItem op (plains us) (plains vs) =
      View.orderItemsBy View.equalItem op (plains us) (plains vs)
  | [], [], _, _ => rfl
  | [], _ :: _, _, _ => rfl
  | _ :: _, [], _, _ => rfl
  | u :: us, v :: vs, hu, hv => by
    rw [plains, plains, View.orderItemsBy, View.orderItemsBy,
      sameItem_of_same (same_eq_equal hu.1 hv.1), orderItems_eq_orderItemsBy op hu.2 hv.2,
      order_eq_orderBy op hu.1 hv.1]

end

end Value

namespace Value

/-! ## Operators -/

@[simp] theorem typeName_shape (v : Value) : v.shape.typeName = v.typeName := by
  cases v <;> rfl

@[simp] theorem whole?_shape (v : Value) : v.shape.whole? = v.whole? := by
  cases v <;> rfl

@[simp] theorem number?_shape (v : Value) : v.shape.number? = v.number? := by
  cases v <;> rfl

@[simp] theorem isSequence_shape (v : Value) : v.shape.isSequence = v.isSequence := by
  cases v <;> rfl

@[simp] theorem isNone_shape (v : Value) : v.shape.isNone = v.isNone := by
  cases v <;> rfl

theorem shapes_append (us vs : List Value) : shapes (us ++ vs) = shapes us ++ shapes vs := by
  simp only [shapes_eq_map, List.map_append]

theorem length_shapes (vs : List Value) : (shapes vs).length = vs.length := by
  rw [shapes_eq_map, List.length_map]

theorem isEmpty_shapes (vs : List Value) : (shapes vs).isEmpty = vs.isEmpty := by
  cases vs <;> rfl

mutual

/-- A shape has no numbers to wipe out. -/
@[simp] theorem shape_shape : ∀ v : Value, v.shape.shape = v.shape
  | .none => rfl
  | .bool _ => rfl
  | .int _ => rfl
  | .float _ => rfl
  | .text _ => rfl
  | .list _ items => by rw [shape, shape, shapes_shapes]
  | .tuple items => by rw [shape, shape, shapes_shapes]
  | .thunk _ => rfl

@[simp] theorem shapes_shapes : ∀ vs : List Value, shapes (shapes vs) = shapes vs
  | [] => rfl
  | v :: rest => by rw [shapes, shapes, shape_shape, shapes_shapes]

end

/-- Arithmetic does not look at lists. -/
theorem numeric_shape (symbol : String) (f : Number → Number → Except Fault Number)
    (u v : Value) : numeric symbol f u.shape v.shape = numeric symbol f u v := by
  simp only [numeric, number?_shape, typeName_shape]

theorem shapes_repeatItems (vs : List Value) (n : Int) :
    shapes (repeatItems vs n) = repeatItems (shapes vs) n := by
  have hrepeat (k : Nat) :
      shapes (Nat.repeat (vs ++ ·) k []) = Nat.repeat (shapes vs ++ ·) k [] := by
    induction k with
    | zero => rfl
    | succ k ih => rw [Nat.repeat, Nat.repeat, shapes_append, ih]
  unfold repeatItems
  rw [isEmpty_shapes]
  split
  · rfl
  · exact hrepeat n.toNat

/-- Items are repeated as their shapes are. -/
theorem replicateItems_shapes (vs : List Value) (n : Int) :
    replicateItems (shapes vs) n = (replicateItems vs n).map shapes := by
  unfold replicateItems
  rw [length_shapes]
  split
  · rfl
  · rw [← shapes_repeatItems]
    rfl

theorem fresh_empty : Lists.Fresh {} := rfl

section

variable {l : Lists} (hl : l.Fresh) (new : Nat)
include hl

/-- A sum of values is that of their shapes. -/
theorem add_shape (u v : Value) :
    (u.add l new v).map shape = (u.shape.add {} 0 v.shape).map shape := by
  cases u <;> cases v <;>
    first
    | rfl
    | simp only [shape, add, hl.contents, fresh_empty.contents, Except.map, shapes_append,
        shapes_shapes]

theorem replicate_shape (v : Value) (n : Int) :
    (v.replicate l new n).map shape = (v.shape.replicate {} 0 n).map shape := by
  unfold replicate
  split
  · rfl
  · cases v with
    | list id xs =>
      simp only [shape, hl.contents, fresh_empty.contents, replicateItems_shapes]
      cases replicateItems xs n with
      | error e => rfl
      | ok items => simp [Except.map, bind, Except.bind, pure, Except.pure, shape]
    | tuple xs =>
      simp only [shape, replicateItems_shapes]
      cases replicateItems xs n with
      | error e => rfl
      | ok items => simp [Except.map, bind, Except.bind, pure, Except.pure, shape]
    | _ => rfl

/-- A product of a list and a number is a list of the same shape, whatever its number is. -/
theorem multiply_shape (u v : Value) :
    (u.multiply l new v).map shape = (u.shape.multiply {} 0 v.shape).map shape := by
  simp only [multiply, isSequence_shape, whole?_shape, number?_shape, typeName_shape]
  split
  · cases v.whole? with
    | none => rfl
    | some n => exact replicate_shape hl new u n
  · split
    · cases u.whole? with
      | none => rfl
      | some n => exact replicate_shape hl new v n
    · rfl

theorem isTruthy_shape (v : Value) : l.isTruthy v = ({} : Lists).isTruthy v.shape := by
  cases v with
  | list id xs =>
    simp only [shape, Lists.isTruthy, hl.contents, fresh_empty.contents, isEmpty_shapes]
  | tuple xs => simp only [shape, Lists.isTruthy, isEmpty_shapes]
  | _ => rfl

end

end Value

/-- An operator on shapes, where lists are compared by their items. -/
def Op.onShapes (op : Op) (u v : Value) : Except Fault Value :=
  match op, u with
  | .eq, _ => .ok (.bool (u.plain.equal v.plain))
  | .neq, _ => .ok (.bool (!u.plain.equal v.plain))
  | .lt, _ | .gt, _ | .lte, _ | .gte, _ => do
    return .bool (← View.orderBy View.equalItem op u.plain v.plain)
  | .modulo, .text s => do return .text (← Template.fill s v.plain)
  | _, _ => (op.onValues {} 0 u v).map Value.shape

namespace Value

section

variable {l : Lists} (hl : l.Fresh) {reg : Nat → List Value} {next : Nat} {u v : Value}
variable (hu : u.Conforms reg next)
include hl hu

theorem view_shape : (l.view u).shape = u.shape.plain := by
  rw [hl.view hu, plain_shape]

theorem shown_view : (l.view u).shown = u.shape.plain.shown := by
  rw [← view_shape hl hu, View.shown_shape]

theorem toTree_view : (l.view u).toTree = u.shape.plain.toTree := by
  rw [← view_shape hl hu, View.toTree_shape]

variable (hv : v.Conforms reg next)
include hv

/-- Two values are the same if their shapes are equal. -/
theorem same_view : (l.view u).same (l.view v) = u.shape.plain.equal v.shape.plain := by
  rw [hl.view hu, hl.view hv, same_eq_equal hu hv, plain_shape, plain_shape, View.equal_shape]

/-- Their order is that of their shapes. -/
theorem order_view (op : Op) : (l.view u).order op (l.view v) =
    View.orderBy View.equalItem op u.shape.plain v.shape.plain := by
  rw [hl.view hu, hl.view hv, View.order, order_eq_orderBy op hu hv, plain_shape, plain_shape,
    View.orderBy_shape]

/-- Only the text of a value is filled in, and that does not show the numbers of lists. -/
theorem remainder_shape :
    (u.remainder l v).map shape = Op.modulo.onShapes u.shape v.shape := by
  have hnumeric : (numeric "%" Number.rem u v).map shape =
      (numeric "%" Number.rem u.shape v.shape).map shape := by rw [numeric_shape]
  cases u with
  | text s =>
    show (do return Value.text (← Template.fill s (l.view v))).map shape =
      (do return Value.text (← Template.fill s v.shape.plain))
    rw [← Template.fill_shape, view_shape hl hv]
    cases Template.fill s v.shape.plain <;> rfl
  | _ => exact hnumeric

/-- **Operators see nothing but shapes.** -/
theorem onValues_shape (op : Op) (new : Nat) :
    (op.onValues l new u v).map shape = op.onShapes u.shape v.shape := by
  have hnumeric (symbol : String) (f : Number → Number → Except Fault Number) :
      (numeric symbol f u v).map shape = (numeric symbol f u.shape v.shape).map shape := by
    rw [numeric_shape]
  have hsame := same_view hl hu hv
  have horder (op : Op) : (do return Value.bool (← (l.view u).order op (l.view v))).map shape =
      (do return Value.bool (← View.orderBy View.equalItem op u.shape.plain v.shape.plain)) := by
    rw [order_view hl hu hv]
    cases View.orderBy View.equalItem op u.shape.plain v.shape.plain <;> rfl
  cases op with
  | plus => exact add_shape hl new u v
  | minus => exact hnumeric _ _
  | times => exact multiply_shape hl new u v
  | «over» => exact hnumeric _ _
  | intDiv => exact hnumeric _ _
  | modulo => exact remainder_shape hl hu hv
  | eq => exact congrArg (fun b => Except.ok (Value.bool b)) hsame
  | neq => exact congrArg (fun b => Except.ok (Value.bool !b)) hsame
  | and =>
    show Except.ok (if l.isTruthy u then v else u).shape =
      Except.ok (if Lists.isTruthy {} u.shape then v.shape else u.shape).shape
    rw [isTruthy_shape hl]
    split <;> simp
  | or =>
    show Except.ok (if l.isTruthy u then u else v).shape =
      Except.ok (if Lists.isTruthy {} u.shape then u.shape else v.shape).shape
    rw [isTruthy_shape hl]
    split <;> simp
  | lt => exact horder .lt
  | gt => exact horder .gt
  | lte => exact horder .lte
  | gte => exact horder .gte

end
end Value

namespace Value

/-! ## Results -/

/-- A value that came about from others: it conforms to the registry that they conform to, or it is
a new list of items that do. -/
def Built (reg : Nat → List Value) (next new : Nat) (w : Value) : Prop :=
  w.Conforms reg next ∨ ∃ items, w = .list new items ∧ ConformAll reg next items

variable {reg : Nat → List Value} {next new : Nat}

/-- A new list is entered in the registry. -/
theorem Built.register {w : Value} (h : w.Built reg next next) :
    ∃ reg', (∀ i < next, reg' i = reg i) ∧ w.Conforms reg' (next + 1) := by
  rcases h with h | ⟨items, rfl, hall⟩
  · exact ⟨reg, fun _ _ => rfl, h.mono (fun _ _ => rfl) (Nat.le_succ _)⟩
  · let reg' := fun i => if i = next then items else reg i
    have hreg : ∀ i < next, reg' i = reg i := fun i hi => if_neg (Nat.ne_of_lt hi)
    refine ⟨reg', hreg, Nat.lt_succ_self _, if_pos rfl, ?_⟩
    exact ConformAll.mono hreg (Nat.le_succ _) hall

/-- Lists of values that conform may be joined. -/
theorem conformAll_append {us vs : List Value} (hu : ConformAll reg next us)
    (hv : ConformAll reg next vs) : ConformAll reg next (us ++ vs) := by
  rw [conformAll_iff] at *
  intro v hmem
  rcases List.mem_append.1 hmem with h | h
  · exact hu v h
  · exact hv v h

/-- What a list holds conforms if its items do and those it was extended by. -/
theorem contents_conform {l : Lists} (hl : l.Conform reg next) {items : List Value}
    (h : ConformAll reg next items) (id : Nat) : ConformAll reg next (l.contents id items) := by
  unfold Lists.contents
  split
  · exact h
  · exact conformAll_append h (hl id)

theorem ofNumber_conforms (n : Number) : (ofNumber n).Conforms reg next := by
  cases n <;> trivial

/-- A number has no lists in it. -/
theorem numeric_conforms (symbol : String) (f : Number → Number → Except Fault Number)
    {u v w : Value} (h : numeric symbol f u v = .ok w) : w.Conforms reg next := by
  unfold numeric at h
  split at h
  · next a b _ _ =>
    cases hf : f a b with
    | error e => rw [hf] at h; cases h
    | ok n =>
      rw [hf] at h
      cases h
      exact ofNumber_conforms n
  · cases h

theorem numeric_built (symbol : String) (f : Number → Number → Except Fault Number)
    {u v w : Value} (h : numeric symbol f u v = .ok w) : w.Built reg next new :=
  .inl (numeric_conforms symbol f h)

theorem replicateItems_conform {vs items : List Value} {n : Int} (hv : ConformAll reg next vs)
    (h : replicateItems vs n = .ok items) : ConformAll reg next items := by
  have hrepeat (k : Nat) : ConformAll reg next (Nat.repeat (vs ++ ·) k []) := by
    induction k with
    | zero => trivial
    | succ k ih => exact conformAll_append hv ih
  unfold replicateItems at h
  split at h
  · cases h
  · cases h
    unfold repeatItems
    split
    · trivial
    · exact hrepeat n.toNat

section

variable {l : Lists} {u v w : Value}

/-- Only two lists have a new list as their sum. -/
theorem add_conforms (hu : u.Conforms reg next) (hv : v.Conforms reg next)
    (hlists : ∀ i us j vs, u = .list i us → v ≠ .list j vs) (h : u.add l new v = .ok w) :
    w.Conforms reg next := by
  unfold add at h
  split at h
  · cases h
    trivial
  · exact absurd rfl (hlists _ _ _ _ rfl)
  · cases h
    exact conformAll_append hu hv
  · split at h
    · cases h
    · exact numeric_conforms "+" Number.add h

/-- A sum is a number, a text, or a new list of items that conform. -/
theorem add_built (hl : l.Conform reg next) (hu : u.Conforms reg next) (hv : v.Conforms reg next)
    (h : u.add l new v = .ok w) : w.Built reg next new := by
  by_cases hlists : ∃ i us j vs, u = .list i us ∧ v = .list j vs
  · obtain ⟨i, us, j, vs, rfl, rfl⟩ := hlists
    cases h
    have hitems := conformAll_append (contents_conform hl hu.2.2 i) (contents_conform hl hv.2.2 j)
    exact .inr ⟨_, rfl, hitems⟩
  · refine .inl (add_conforms hu hv (fun i us j vs hu hv => ?_) h)
    exact hlists ⟨i, us, j, vs, hu, hv⟩

/-- Of two numbers the sum is that of numbers. -/
theorem add_of_numbers {a b : Number} (new : Nat) (ha : u.number? = some a)
    (hb : v.number? = some b) : u.add l new v = do return ofNumber (← a.add b) := by
  unfold add
  split
  · cases ha
  · cases ha
  · cases ha
  · rw [ha, hb]
    split
    · next hsequence =>
      cases u with
      | text | list | tuple => cases ha
      | _ => cases hsequence
    · rfl

/-- Unless a list is extended, a counting loop goes on with a sum. -/
theorem add_of_advance {step : Value} {l' : Lists} (hlist : ∀ i us, u ≠ .list i us)
    (h : u.advance l step = .ok (w, l')) : l' = l ∧ u.add l l.next step = .ok w := by
  unfold advance at h
  split at h
  · exact absurd rfl (hlist _ _)
  · split at h
    · next a b ha hb =>
      rw [add_of_numbers l.next ha hb]
      cases hn : a.add b with
      | error e => rw [hn] at h; cases h
      | ok n =>
        rw [hn] at h
        cases h
        exact ⟨rfl, rfl⟩
    · split at h
      · cases hn : u.add l l.next step with
        | error e => rw [hn] at h; cases h
        | ok v =>
          rw [hn] at h
          cases h
          exact ⟨rfl, rfl⟩
      · cases h

variable (hl : l.Conform reg next)
include hl

theorem replicate_built {n : Int} (hv : v.Conforms reg next)
    (h : v.replicate l new n = .ok w) : w.Built reg next new := by
  unfold replicate at h
  split at h
  · cases h
  · split at h
    · split at h
      · cases h
      · split at h
        · cases h
        · cases h
          exact .inl trivial
    · next id xs =>
      cases hr : replicateItems (l.contents id xs) n with
      | error e => rw [hr] at h; cases h
      | ok items =>
        rw [hr] at h
        cases h
        have hitems := replicateItems_conform (contents_conform hl hv.2.2 id) hr
        exact .inr ⟨items, rfl, hitems⟩
    · next xs =>
      cases hr : replicateItems xs n with
      | error e => rw [hr] at h; cases h
      | ok items =>
        rw [hr] at h
        cases h
        exact .inl (replicateItems_conform hv hr)
    · cases h
      exact .inl hv

theorem multiply_built (hu : u.Conforms reg next) (hv : v.Conforms reg next)
    (h : u.multiply l new v = .ok w) : w.Built reg next new := by
  unfold multiply at h
  split at h
  · split at h
    · exact replicate_built hl hu h
    · cases h
  · split at h
    · split at h
      · exact replicate_built hl hv h
      · cases h
    · exact numeric_built "*" Number.mul h

/-- The result of an operator conforms to the registry, or is a new list that can be entered in it.
-/
theorem onValues_built {op : Op} (hu : u.Conforms reg next) (hv : v.Conforms reg next)
    (h : op.onValues l new u v = .ok w) : w.Built reg next new := by
  have hbool {r : Except Fault Bool} (h : (do return Value.bool (← r)) = Except.ok w) :
      w.Built reg next new := by
    cases r with
    | error e => cases h
    | ok b =>
      cases h
      exact .inl trivial
  cases op with
  | plus => exact add_built hl hu hv h
  | minus => exact numeric_built "-" Number.sub h
  | times => exact multiply_built hl hu hv h
  | «over» => exact numeric_built "/" Number.div h
  | intDiv => exact numeric_built "//" Number.floorDiv h
  | modulo =>
    change u.remainder l v = .ok w at h
    unfold remainder at h
    split at h
    · next s =>
      cases hf : Template.fill s (l.view v) with
      | error e => rw [hf] at h; cases h
      | ok t =>
        rw [hf] at h
        cases h
        exact .inl trivial
    · exact numeric_built "%" Number.rem h
  | eq =>
    cases h
    exact .inl trivial
  | neq =>
    cases h
    exact .inl trivial
  | and =>
    cases h
    exact .inl (by split <;> assumption)
  | or =>
    cases h
    exact .inl (by split <;> assumption)
  | lt => exact hbool h
  | gt => exact hbool h
  | lte => exact hbool h
  | gte => exact hbool h

end
end Value

end Retrace
