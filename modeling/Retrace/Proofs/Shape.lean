import Retrace.Value.Operator

/-!
# Views without the numbers of lists

Every list has a number of its own, so that a list which grows has grown wherever it is held.  A
view of a value carries these numbers along, since comparing two values looks at them first: a list
is equal to itself, whatever it holds, and that must not depend on looking at its items.

The *shape* of a view is the view with these numbers wiped out.  It is what can be seen of a value
from the outside.  Two runs of a program that give their lists different numbers, because one of
them has put off a computation that the other one has done, have values of the same shapes, and so
they print the same and compare the same.  This module is about the first half of that, which
concerns views alone: what can be done with a view is done with its shape as well, and comes to the
same.

A text does not show the numbers: a view and its shape are written alike (`write_shape`), and fill
in a template alike (`Template.fill_shape`).  For templates this takes a lemma for each function of
the reader of templates, as the arguments that are still to be filled in are a part of its state;
that state has a shape, too (`Filler.shape`).

Comparing does look at the numbers.  `View.equal` is equality by the items alone; it depends on
shapes only, and so does the order that goes by it (`orderBy_shape`).  That comparing goes by the
items after all is not a fact about views: it needs that lists of one number have the same items,
and is shown where that is known.

* `View.shape`: a view without the numbers of lists.
* `write_shape`, `shown_shape`, `toTree_shape`: what does not depend on them.
* `View.equal`, `equal_shape`, `orderBy_shape`: comparing by the items.
* `Template.fill_shape`: filling in a template.
-/

set_option autoImplicit false

namespace Retrace
namespace View

mutual

/-- A view without the numbers of its lists. -/
def shape : View → View
  | .none => .none
  | .bool b => .bool b
  | .int n => .int n
  | .float x => .float x
  | .text s => .text s
  | .list _ items => .list 0 (shapes items)
  | .again _ => .again 0
  | .tuple items => .tuple (shapes items)
  | .thunk id => .thunk id

/-- Views without the numbers of their lists. -/
def shapes : List View → List View
  | [] => []
  | x :: rest => shape x :: shapes rest

end

theorem shapes_eq_map (xs : List View) : shapes xs = xs.map shape := by
  induction xs with
  | nil => rfl
  | cons x rest ih => rw [shapes, ih, List.map_cons]

/-! ## What does not depend on the numbers of lists -/

@[simp] theorem typeName_shape (x : View) : x.shape.typeName = x.typeName := by
  cases x <;> rfl

@[simp] theorem whole?_shape (x : View) : x.shape.whole? = x.whole? := by
  cases x <;> rfl

@[simp] theorem number?_shape (x : View) : x.shape.number? = x.number? := by
  cases x <;> rfl

mutual

/-- The numbers of lists are not written. -/
theorem write_shape (out : String) : ∀ x : View, x.shape.write out = x.write out
  | .none => rfl
  | .bool _ => rfl
  | .int _ => rfl
  | .float _ => rfl
  | .text _ => rfl
  | .list _ items => by rw [shape, write, write, writeItems_shapes]
  | .again _ => rfl
  | .tuple [] => rfl
  | .tuple [x] => by
    show x.shape.write (out ++ "(") >>= _ = x.write (out ++ "(") >>= _
    rw [write_shape]
  | .tuple (x :: y :: rest) => by
    show writeItems (out ++ "(") (shapes (x :: y :: rest)) >>= _ =
      writeItems (out ++ "(") (x :: y :: rest) >>= _
    rw [writeItems_shapes]
  | .thunk _ => rfl

theorem writeItems_shapes (out : String) :
    ∀ xs : List View, writeItems out (shapes xs) = writeItems out xs
  | [] => rfl
  | [x] => write_shape out x
  | x :: y :: rest => by
    show x.shape.write out >>= (fun s => writeItems (s ++ ", ") (shapes (y :: rest))) =
      x.write out >>= fun s => writeItems (s ++ ", ") (y :: rest)
    rw [write_shape]
    congr 1
    funext s
    exact writeItems_shapes (s ++ ", ") (y :: rest)

end

@[simp] theorem quoted_shape (x : View) : x.shape.quoted = x.quoted :=
  write_shape "" x

@[simp] theorem shown_shape (x : View) : x.shape.shown = x.shown := by
  cases x with
  | text s => rfl
  | list id items => exact congrArg (· >>= _) (quoted_shape (.list id items))
  | tuple items => exact congrArg (· >>= _) (quoted_shape (.tuple items))
  | _ => rfl

mutual

/-- The tree of a view has no numbers in it. -/
theorem toTree_shape : ∀ x : View, x.shape.toTree = x.toTree
  | .none => rfl
  | .bool _ => rfl
  | .int _ => rfl
  | .float _ => rfl
  | .text _ => rfl
  | .list _ items => by rw [shape, toTree, toTree, toTrees_shapes]
  | .again _ => rfl
  | .tuple items => by rw [shape, toTree, toTree, toTrees_shapes]
  | .thunk _ => rfl

theorem toTrees_shapes : ∀ xs : List View, toTrees (shapes xs) = toTrees xs
  | [] => rfl
  | x :: rest => by rw [shapes, toTrees, toTrees, toTree_shape, toTrees_shapes]

end
/-! ## Equality by the items -/

/-- Is it one and the same real number? -/
def sameReal : View → View → Bool
  | .float x, .float y => x == y
  | _, _ => false

mutual

/-- Are two values equal, lists by their items alone? -/
def equal : View → View → Bool
  | .none, .none => true
  | .text s, .text t => s == t
  | .list _ xs, .list _ ys => equalItems xs ys
  | .tuple xs, .tuple ys => equalItems xs ys
  | .thunk a, .thunk b => a == b
  | x, y =>
    match x.number?, y.number? with
    | some a, some b => a.compare? b == some .eq
    | _, _ => false

/-- Are values equal, item by item? -/
def equalItems : List View → List View → Bool
  | [], [] => true
  | x :: xs, y :: ys => (sameReal x y || equal x y) && equalItems xs ys
  | _, _ => false

end

/-- Do two items count as equal when sequences are compared, lists by their items alone? -/
def equalItem (x y : View) : Bool :=
  sameReal x y || equal x y

theorem sameReal_shape (x y : View) : sameReal x.shape y.shape = sameReal x y := by
  cases x <;> cases y <;> rfl

mutual

/-- Equality by the items depends on shapes only. -/
theorem equal_shape : ∀ x y : View, x.shape.equal y.shape = x.equal y
  | .none, y => by cases y <;> rfl
  | .bool _, y => by cases y <;> rfl
  | .int _, y => by cases y <;> rfl
  | .float _, y => by cases y <;> rfl
  | .text _, y => by cases y <;> rfl
  | .list _ xs, y => by
    cases y with
    | list _ ys => exact equalItems_shapes xs ys
    | _ => rfl
  | .again _, y => by cases y <;> rfl
  | .tuple xs, y => by
    cases y with
    | tuple ys => exact equalItems_shapes xs ys
    | _ => rfl
  | .thunk _, y => by cases y <;> rfl

theorem equalItems_shapes : ∀ xs ys : List View,
    equalItems (shapes xs) (shapes ys) = equalItems xs ys
  | [], [] => rfl
  | [], _ :: _ => rfl
  | _ :: _, [] => rfl
  | x :: xs, y :: ys => by
    rw [shapes, shapes, equalItems, equalItems, sameReal_shape, equal_shape, equalItems_shapes]

end

mutual

/-- As an item of a list every view is the same as itself, also where it is not equal to itself. -/
theorem sameItem_self : ∀ x : View, sameItem x x = true
  | .none => rfl
  | .bool b => by cases b <;> rfl
  | .int n => by simp [sameItem, identical, same, number?, Number.compare?]
  | .float x => by simp [sameItem, identical]
  | .text s => by simp [sameItem, identical, same]
  | .list id _ => by simp [sameItem, identical]
  | .again id => by simp [sameItem, identical]
  | .tuple xs => by simp [sameItem, same, sameItems_self xs]
  | .thunk id => by simp [sameItem, same]

theorem sameItems_self : ∀ xs : List View, sameItems xs xs = true
  | [] => rfl
  | x :: rest => by
    rw [sameItems, Bool.and_eq_true]
    exact ⟨sameItem_self x, sameItems_self rest⟩

end

theorem equalItem_shape (x y : View) : equalItem x.shape y.shape = equalItem x y := by
  rw [equalItem, equalItem, sameReal_shape, equal_shape]

mutual

/-- So does the order that goes by this equality. -/
theorem orderBy_shape (op : Op) : ∀ x y : View,
    orderBy equalItem op x.shape y.shape = orderBy equalItem op x y
  | .none, y => by cases y <;> rfl
  | .bool _, y => by cases y <;> rfl
  | .int _, y => by cases y <;> rfl
  | .float _, y => by cases y <;> rfl
  | .text _, y => by cases y <;> rfl
  | .list _ xs, y => by
    cases y with
    | list _ ys => exact orderItemsBy_shapes op xs ys
    | _ => rfl
  | .again _, y => by cases y <;> rfl
  | .tuple xs, y => by
    cases y with
    | tuple ys => exact orderItemsBy_shapes op xs ys
    | _ => rfl
  | .thunk _, y => by cases y <;> rfl

theorem orderItemsBy_shapes (op : Op) : ∀ xs ys : List View,
    orderItemsBy equalItem op (shapes xs) (shapes ys) = orderItemsBy equalItem op xs ys
  | [], [] => rfl
  | [], _ :: _ => rfl
  | _ :: _, [] => rfl
  | x :: xs, y :: ys => by
    rw [shapes, shapes, orderItemsBy, orderItemsBy, equalItem_shape, orderItemsBy_shapes,
      orderBy_shape]

end

end View

namespace Template

/-! ## Templates -/

theorem character_shape (x : View) : character x.shape = character x := by
  cases x <;> rfl

theorem wholeField_shape (conversion : Char) (p : Place) (x : View) :
    wholeField conversion p x.shape = wholeField conversion p x := by
  simp only [wholeField, integer, View.number?_shape, View.typeName_shape]

theorem realField_shape (conversion : Char) (p : Place) (x : View) :
    realField conversion p x.shape = realField conversion p x := by
  simp only [realField, View.number?_shape, View.typeName_shape]

/-- A field of a template is filled in by what can be seen of a view. -/
theorem convert_shape (position conversion : Nat) (p : Place) (x : View) :
    convert position conversion p x.shape = convert position conversion p x := by
  simp only [convert, View.shown_shape, View.quoted_shape, wholeField_shape, realField_shape,
    character_shape]

/-- A filler whose values are without the numbers of their lists. -/
def Filler.shape (f : Filler) : Filler :=
  { f with arguments := f.arguments.map View.shape }

/-- Values are used one after the other, and only their text is put in. -/
theorem close_shape (f : Filler) (p : Place) (c : Nat) :
    close f.shape p c = (close f p c).map Filler.shape := by
  unfold close use
  cases h : f.arguments with
  | nil => simp [Filler.shape, h, fail, bind, Except.bind, Except.map]
  | cons x rest =>
    simp only [Filler.shape, h, List.map_cons, bind, Except.bind, convert_shape]
    cases convert f.position c p x <;> rfl

theorem useNumber_shape (f : Filler) :
    useNumber f.shape = (useNumber f).map fun r => (r.1, r.2.shape) := by
  unfold useNumber use
  cases h : f.arguments with
  | nil => simp [Filler.shape, h, fail, bind, Except.bind, Except.map]
  | cons x rest =>
    simp only [Filler.shape, h, List.map_cons, bind, Except.bind, View.whole?_shape]
    cases x.whole? <;> rfl

theorem starWidth_shape (f : Filler) (p : Place) :
    starWidth f.shape p = (starWidth f p).map Filler.shape := by
  unfold starWidth
  rw [useNumber_shape]
  cases useNumber f with
  | error e => rfl
  | ok r =>
    obtain ⟨n, g⟩ := r
    simp only [bind, Except.bind, Except.map]
    split <;> rfl

theorem starPrecision_shape (f : Filler) (p : Place) :
    starPrecision f.shape p = (starPrecision f p).map Filler.shape := by
  unfold starPrecision
  rw [useNumber_shape]
  cases useNumber f with
  | error e => rfl
  | ok r =>
    obtain ⟨n, g⟩ := r
    simp only [bind, Except.bind, Except.map]
    split <;> rfl

theorem afterPrecision_shape (f : Filler) (p : Place) (c : Nat) :
    afterPrecision f.shape p c = (afterPrecision f p c).map Filler.shape := by
  unfold afterPrecision
  split
  · rfl
  · exact close_shape f p c

theorem afterWidth_shape (f : Filler) (p : Place) (c : Nat) :
    afterWidth f.shape p c = (afterWidth f p c).map Filler.shape := by
  unfold afterWidth
  split
  · rfl
  · exact afterPrecision_shape f p c

theorem flag_shape (f : Filler) (p : Place) (c : Nat) :
    flag f.shape p c = (flag f p c).map Filler.shape := by
  unfold flag
  split
  · rfl
  · split
    · exact starWidth_shape f p
    · split
      · rfl
      · exact afterWidth_shape f p c

/-- At every stage a code point is taken in without a look at the numbers of lists. -/
theorem read_shape (f : Filler) (c : Nat) : read f.shape c = (read f c).map Filler.shape := by
  have hstage : f.shape.stage = f.stage := rfl
  unfold read
  rw [hstage]
  cases f.stage with
  | plain => simp only; split <;> rfl
  | opened =>
    simp only
    split
    · rfl
    · split
      · have hkeyed : f.shape.keyed = f.keyed := rfl
        rw [hkeyed]
        split <;> rfl
      · exact flag_shape f {} c
  | key depth =>
    simp only
    split
    · rfl
    · split
      · split <;> rfl
      · rfl
  | flags p => exact flag_shape f p c
  | width p n =>
    simp only
    split
    · split <;> rfl
    · exact afterWidth_shape f _ c
  | afterWidth p => exact afterWidth_shape f p c
  | point p =>
    simp only
    split
    · exact starPrecision_shape f p
    · split
      · rfl
      · exact afterPrecision_shape f p c
  | precision p n =>
    simp only
    split
    · split <;> rfl
    · exact afterPrecision_shape f _ c
  | afterPrecision p => exact afterPrecision_shape f p c
  | sized p => exact close_shape f p c

theorem step_shape (f : Filler) (c : Nat) : step f.shape c = (step f c).map Filler.shape := by
  unfold step
  rw [read_shape]
  cases read f c <;> rfl

/-- The reader of a template never looks at the numbers of lists, along the whole template. -/
theorem foldlM_step_shape (points : List Nat) (f : Filler) :
    points.foldlM step f.shape = (points.foldlM step f).map Filler.shape := by
  induction points generalizing f with
  | nil => rfl
  | cons c rest ih =>
    rw [List.foldlM_cons, List.foldlM_cons, step_shape]
    cases step f c with
    | error e => rfl
    | ok g => exact ih g

/-- What is filled in does not show the numbers of lists. -/
theorem fill_shape (template : Text) (x : View) : fill template x.shape = fill template x := by
  have hstart : start x.shape = (start x).shape := by
    cases x with
    | tuple items => simp [start, View.shape, argumentsOf, Filler.shape, View.shapes_eq_map]
    | _ => rfl
  have hfinish (f : Filler) : finish f.shape = finish f := by
    simp [finish, Filler.shape]
  unfold fill
  rw [hstart, foldlM_step_shape]
  cases template.toPoints.foldlM step _ with
  | error e => rfl
  | ok f => exact hfinish f

end Template

end Retrace
