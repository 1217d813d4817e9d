import Retrace.Proofs.Conform

/-!
# Old lists and new ones

While values are looked at new lists come up, and which numbers they are given depends on what was
looked at before.  So let `n` be the number that was next at some moment.  A list with a smaller
number is an *old* one: it may have grown, it may even hold itself, and it is known by its number.
A list with another number is a *new* one: it was made of values that were there already, and has
not grown.  To *blur* a value is to give all of its new lists the number `n`.

The shape of a value, which has no numbers at all, is enough to compare two values as long as no
list has grown.  On a machine of any run lists may have grown, and then the number of an old list
cannot be left out: it is the number that tells what the list holds by now.  Blurring leaves out
just as much as is undetermined.  Two evaluations of one expression from one machine, in which
different things were looked at before, give values that are the same when they are blurred.

What can be done with values comes to the same for blurred ones.  The difficulty is in comparing,
which takes two lists of one number for the same without a look at their items.  All new lists have
one number when they are blurred, though they need not have the same items.  So there is another
comparison for blurred views, which trusts the numbers of old lists only and goes by the items of
new ones (`View.sameSince`).  That it comes to the same before and after needs what a registry
tells: if two new lists had one number from the start then they have the same items (`View.Kept`).

* `View.same_blur`, `View.order_blur`: comparing goes by the items of new lists.
* `Lists.viewSince`: what a blurred value looks like.  New lists do not come up inside of
  themselves, so they need not be looked for around a value.
* `Op.since`, `onValues_blur`: operators on blurred values, and that those on values come to the
  same.
-/

set_option autoImplicit false

namespace Retrace

/-! ## Views -/

namespace View

mutual

/-- A view in which all lists from `n` on have the number `n`. -/
def blur (n : Nat) : View → View
  | .none => .none
  | .bool b => .bool b
  | .int k => .int k
  | .float x => .float x
  | .text s => .text s
  | .list id items => .list (min id n) (blurs n items)
  | .again id => .again id
  | .tuple items => .tuple (blurs n items)
  | .thunk id => .thunk id

/-- Views in which all lists from `n` on have the number `n`. -/
def blurs (n : Nat) : List View → List View
  | [] => []
  | x :: rest => blur n x :: blurs n rest

end

mutual

/-- Blurring leaves the shape as it is. -/
@[simp] theorem shape_blur (n : Nat) : ∀ x : View, (x.blur n).shape = x.shape
  | .none => rfl
  | .bool _ => rfl
  | .int _ => rfl
  | .float _ => rfl
  | .text _ => rfl
  | .list _ items => by rw [blur, shape, shape, shapes_blurs]
  | .again _ => rfl
  | .tuple items => by rw [blur, shape, shape, shapes_blurs]
  | .thunk _ => rfl

theorem shapes_blurs (n : Nat) : ∀ xs : List View, shapes (blurs n xs) = shapes xs
  | [] => rfl
  | x :: rest => by rw [blurs, shapes, shapes, shape_blur, shapes_blurs]

end

/-- Are two values one and the same, where only old lists are known by their numbers? -/
def identicalSince (n : Nat) : View → View → Bool
  | .float x, .float y => x == y
  | .list i _, .list j _ => i == j && decide (i < n)
  | .list i _, .again j => i == j
  | .again i, .list j _ => i == j
  | .again i, .again j => i == j
  | _, _ => false

mutual

/-- Are two values equal, where only old lists are known by their numbers? -/
def sameSince (n : Nat) : View → View → Bool
  | .none, .none => true
  | .text s, .text t => s == t
  | .list i xs, .list j ys => (i == j && decide (i < n)) || sameItemsSince n xs ys
  | .tuple xs, .tuple ys => sameItemsSince n xs ys
  | .thunk a, .thunk b => a == b
  | x, y =>
    match x.number?, y.number? with
    | some a, some b => a.compare? b == some .eq
    | _, _ => identicalSince n x y

/-- Are values equal, item by item? -/
def sameItemsSince (n : Nat) : List View → List View → Bool
  | [], [] => true
  | x :: xs, y :: ys => (identicalSince n x y || sameSince n x y) && sameItemsSince n xs ys
  | _, _ => false

end

/-- Do two items count as equal when sequences are compared, where only old lists are known by their
numbers? -/
def sameItemSince (n : Nat) (x y : View) : Bool :=
  identicalSince n x y || sameSince n x y

mutual

/-- As an item of a list every view is the same as itself. -/
theorem sameItemSince_self (n : Nat) : ∀ x : View, sameItemSince n x x = true
  | .none => rfl
  | .bool b => by cases b <;> rfl
  | .int k => by simp [sameItemSince, identicalSince, sameSince, number?, Number.compare?]
  | .float x => by simp [sameItemSince, identicalSince]
  | .text s => by simp [sameItemSince, identicalSince, sameSince]
  | .list id xs => by simp [sameItemSince, sameSince, sameItemsSince_self n xs]
  | .again id => by simp [sameItemSince, identicalSince]
  | .tuple xs => by simp [sameItemSince, sameSince, sameItemsSince_self n xs]
  | .thunk id => by simp [sameItemSince, sameSince]

theorem sameItemsSince_self (n : Nat) : ∀ xs : List View, sameItemsSince n xs xs = true
  | [] => rfl
  | x :: rest => by
    rw [sameItemsSince, Bool.and_eq_true]
    exact ⟨sameItemSince_self n x, sameItemsSince_self n rest⟩

end

mutual

/-- Whatever new lists of one number stand in the view, they have the items that the registry has
under it, but for what is blurred.  Only old lists come up inside of themselves. -/
def Kept (n : Nat) (reg : Nat → List View) : View → Prop
  | .none => True
  | .bool _ => True
  | .int _ => True
  | .float _ => True
  | .text _ => True
  | .list id items => (n ≤ id → reg id = blurs n items) ∧ KeptAll n reg items
  | .again id => id < n
  | .tuple items => KeptAll n reg items
  | .thunk _ => True

/-- All of the views are kept. -/
def KeptAll (n : Nat) (reg : Nat → List View) : List View → Prop
  | [] => True
  | x :: rest => Kept n reg x ∧ KeptAll n reg rest

end

section

variable {n : Nat} {reg : Nat → List View}

/-- An old number is not changed, and no other one becomes it. -/
private theorem min_beq_of_lt {i j : Nat} (h : j < n) : (min i n == j) = (i == j) := by
  rw [Bool.eq_iff_iff, beq_iff_eq, beq_iff_eq]
  omega

private theorem beq_min_of_lt {i j : Nat} (h : i < n) : (i == min j n) = (i == j) := by
  rw [Bool.eq_iff_iff, beq_iff_eq, beq_iff_eq]
  omega

/-- Two lists are one old list, or they are to be compared by their items. -/
private theorem beq_or_of_new (i j : Nat) {a : Bool} (h : i = j → n ≤ i → a = true) :
    (i == j || a) = ((min i n == min j n && decide (min i n < n)) || a) := by
  rw [Bool.eq_iff_iff]
  simp only [Bool.or_eq_true, Bool.and_eq_true, beq_iff_eq, decide_eq_true_eq]
  by_cases ha : a = true
  · simp [ha]
  · have hold : i = j → i < n := fun hij => Nat.lt_of_not_le fun hn => ha (h hij hn)
    simp only [ha, Bool.false_eq_true, or_false]
    omega

/-- What is one and the same is equal, so items count as equal if they are. -/
private theorem sameItem_of_same_blur {x y : View} (hx : x.Kept n reg) (hy : y.Kept n reg)
    (h : x.same y = sameSince n (x.blur n) (y.blur n)) :
    sameItem x y = sameItemSince n (x.blur n) (y.blur n) := by
  rw [sameItem, sameItemSince, h]
  cases x with
  | float _ => cases y <;> rfl
  | list i xs =>
    cases y with
    | list j ys =>
      rw [← h]
      show (i == j || (i == j || sameItems xs ys)) =
        ((min i n == min j n && decide (min i n < n)) || (i == j || sameItems xs ys))
      refine beq_or_of_new i j fun hij _ => ?_
      rw [hij, beq_self_eq_true, Bool.true_or]
    | again j => exact congrArg (· || _) (min_beq_of_lt hy).symm
    | _ => rfl
  | again i =>
    cases y with
    | list j ys => exact congrArg (· || _) (beq_min_of_lt hx).symm
    | _ => rfl
  | _ => rfl

mutual

/-- Comparing two views is comparing them blurred, by the items of new lists. -/
theorem same_blur : ∀ {x y : View}, x.Kept n reg → y.Kept n reg →
    x.same y = sameSince n (x.blur n) (y.blur n)
  | .none, y, _, _ => by cases y <;> rfl
  | .bool _, y, _, _ => by cases y <;> rfl
  | .int _, y, _, _ => by cases y <;> rfl
  | .float _, y, _, _ => by cases y <;> rfl
  | .text _, y, _, _ => by cases y <;> rfl
  | .list i xs, y, hx, hy => by
    cases y with
    | list j ys =>
      have hitems := sameItems_blurs hx.2 hy.2
      show (i == j || sameItems xs ys) = ((min i n == min j n && decide (min i n < n)) ||
        sameItemsSince n (blurs n xs) (blurs n ys))
      rw [hitems]
      refine beq_or_of_new i j fun hij hi => ?_
      -- two new lists of one number have the same items
      subst hij
      rw [← hx.1 hi, ← hy.1 hi]
      exact sameItemsSince_self n _
    | again j => exact (min_beq_of_lt hy).symm
    | _ => rfl
  | .again i, y, hx, hy => by
    cases y with
    | list j ys => exact (beq_min_of_lt hx).symm
    | _ => rfl
  | .tuple xs, y, hx, hy => by
    cases y with
    | tuple ys => exact sameItems_blurs hx hy
    | _ => rfl
  | .thunk _, y, _, _ => by cases y <;> rfl

/-- The same of items, where being identical counts as well. -/
theorem sameItems_blurs : ∀ {xs ys : List View}, KeptAll n reg xs → KeptAll n reg ys →
    sameItems xs ys = sameItemsSince n (blurs n xs) (blurs n ys)
  | [], [], _, _ => rfl
  | [], _ :: _, _, _ => rfl
  | _ :: _, [], _, _ => rfl
  | x :: xs, y :: ys, hx, hy => by
    rw [blurs, blurs, sameItems, sameItemsSince, sameItems_blurs hx.2 hy.2]
    congr 1
    exact sameItem_of_same_blur hx.1 hy.1 (same_blur hx.1 hy.1)

end

mutual

/-- So is their order. -/
theorem order_blur (op : Op) : ∀ {x y : View}, x.Kept n reg → y.Kept n reg →
    x.order op y = orderBy (sameItemSince n) op (x.blur n) (y.blur n)
  | .none, y, _, _ => by cases y <;> rfl
  | .bool _, y, _, _ => by cases y <;> rfl
  | .int _, y, _, _ => by cases y <;> rfl
  | .float _, y, _, _ => by cases y <;> rfl
  | .text _, y, _, _ => by cases y <;> rfl
  | .list i xs, y, hx, hy => by
    cases y with
    | list j ys => exact orderItems_blurs op hx.2 hy.2
    | _ => rfl
  | .again _, y, _, _ => by cases y <;> rfl
  | .tuple xs, y, hx, hy => by
    cases y with
    | tuple ys => exact orderItems_blurs op hx hy
    | _ => rfl
  | .thunk _, y, _, _ => by cases y <;> rfl

theorem orderItems_blurs (op : Op) : ∀ {xs ys : List View}, KeptAll n reg xs → KeptAll n reg ys →
    orderItemsBy sameItem op xs ys = orderItemsBy (sameItemSince n) op (blurs n xs) (blurs n ys)
  | [], [], _, _ => rfl
  | [], _ :: _, _, _ => rfl
  | _ :: _, [], _, _ => rfl
  | x :: xs, y :: ys, hx, hy => by
    have horder := order_blur op hx.1 hy.1
    rw [order] at horder
    rw [blurs, blurs, orderItemsBy, orderItemsBy, orderItems_blurs op hx.2 hy.2, horder,
      sameItem_of_same_blur hx.1 hy.1 (same_blur hx.1 hy.1)]

end

end

mutual

/-- No new list stands in the view. -/
def Old (n : Nat) : View → Prop
  | .none => True
  | .bool _ => True
  | .int _ => True
  | .float _ => True
  | .text _ => True
  | .list id items => id < n ∧ OldAll n items
  | .again id => id < n
  | .tuple items => OldAll n items
  | .thunk _ => True

/-- No new list stands in the views. -/
def OldAll (n : Nat) : List View → Prop
  | [] => True
  | x :: rest => Old n x ∧ OldAll n rest

end

section

variable {n : Nat} {reg : Nat → List View}

theorem oldAll_append {xs ys : List View} (hx : OldAll n xs) (hy : OldAll n ys) :
    OldAll n (xs ++ ys) := by
  induction xs with
  | nil => exact hy
  | cons x rest ih => exact ⟨hx.1, ih hx.2⟩

mutual

/-- What holds no new list is not changed by blurring. -/
theorem Old.blur : ∀ {x : View}, x.Old n → x.blur n = x
  | .none, _ => rfl
  | .bool _, _ => rfl
  | .int _, _ => rfl
  | .float _, _ => rfl
  | .text _, _ => rfl
  | .list id items, h => by rw [View.blur, OldAll.blurs h.2, Nat.min_eq_left (Nat.le_of_lt h.1)]
  | .again _, _ => rfl
  | .tuple items, h => by rw [View.blur, OldAll.blurs h]
  | .thunk _, _ => rfl

theorem OldAll.blurs : ∀ {xs : List View}, OldAll n xs → View.blurs n xs = xs
  | [], _ => rfl
  | x :: rest, h => by rw [View.blurs, Old.blur h.1, OldAll.blurs h.2]

end

mutual

/-- Of old lists nothing has to be known. -/
theorem Old.kept : ∀ {x : View}, x.Old n → x.Kept n reg
  | .none, _ => trivial
  | .bool _, _ => trivial
  | .int _, _ => trivial
  | .float _, _ => trivial
  | .text _, _ => trivial
  | .list _ _, h => ⟨fun hn => absurd h.1 (Nat.not_lt.2 hn), OldAll.keptAll h.2⟩
  | .again _, h => h
  | .tuple _, h => OldAll.keptAll h
  | .thunk _, _ => trivial

theorem OldAll.keptAll : ∀ {xs : List View}, OldAll n xs → KeptAll n reg xs
  | [], _ => trivial
  | _ :: _, h => ⟨Old.kept h.1, OldAll.keptAll h.2⟩

end

end

end View

/-! ## Values and what they look like -/

mutual

/-- A value in which all lists from `n` on have the number `n`. -/
def Value.blur (n : Nat) : Value → Value
  | .none => .none
  | .bool b => .bool b
  | .int k => .int k
  | .float x => .float x
  | .text s => .text s
  | .list id items => .list (min id n) (blurs n items)
  | .tuple items => .tuple (blurs n items)
  | .thunk id => .thunk id

/-- Values in which all lists from `n` on have the number `n`. -/
def Value.blurs (n : Nat) : List Value → List Value
  | [] => []
  | v :: rest => blur n v :: blurs n rest

end

namespace Lists

mutual

/-- The view of a value all of whose new lists have the number `n`. -/
def viewSince (l : Lists) (n : Nat) : Value → View
  | .none => .none
  | .bool b => .bool b
  | .int k => .int k
  | .float x => .float x
  | .text s => .text s
  | .list id items => if id < n then l.view (.list id items) else .list n (viewsSince l n items)
  | .tuple items => .tuple (viewsSince l n items)
  | .thunk id => .thunk id

/-- The views of values all of whose new lists have the number `n`. -/
def viewsSince (l : Lists) (n : Nat) : List Value → List View
  | [] => []
  | v :: rest => viewSince l n v :: viewsSince l n rest

end

/-- What lists were made of and extended by, all that below `n`, and new lists have not grown. -/
structure Known (l : Lists) (reg : Nat → List Value) (n : Nat) : Prop where
  made : ∀ id < n, Value.ConformAll reg n (reg id)
  added : l.Conform reg n
  new : ∀ id, n ≤ id → l.addedTo id = []

section

variable {l : Lists} {reg : Nat → List Value} {n next : Nat}

theorem Known.old (hl : l.Known reg n) {id : Nat} {items : List Value} (hid : id < n)
    (h : (Value.list id items).Conforms reg next) : (Value.list id items).Conforms reg n :=
  ⟨hid, h.2.1, h.2.1 ▸ hl.made id hid⟩

theorem Known.contents (hl : l.Known reg n) {id : Nat} (hid : n ≤ id) (items : List Value) :
    l.contents id items = items := by
  rw [Lists.contents, hl.new id hid]

/-! ### Old lists look the same wherever they stand -/

/-- The same old lists are around. -/
def SameAround (n : Nat) (a b : List Nat) : Prop :=
  ∀ i < n, i ∈ a ↔ i ∈ b

theorem SameAround.cons {a b : List Nat} (h : SameAround n a b) (id : Nat) :
    SameAround n (id :: a) (id :: b) := by
  intro i hi
  rw [List.mem_cons, List.mem_cons, h i hi]

mutual

/-- What an old list looks like does not depend on the new lists that it stands in. -/
theorem viewWith_around {f : List Nat → Nat → List View}
    (hf : ∀ {a b}, SameAround n a b → ∀ id, f a id = f b id) : ∀ {a b : List Nat} {v : Value},
    SameAround n a b → v.Conforms reg n → viewWith f a v = viewWith f b v
  | _, _, .none, _, _ => rfl
  | _, _, .bool _, _, _ => rfl
  | _, _, .int _, _, _ => rfl
  | _, _, .float _, _, _ => rfl
  | _, _, .text _, _, _ => rfl
  | a, b, .list id items, h, hv => by
    have hcontains : a.contains id = b.contains id := by
      rw [Bool.eq_iff_iff, List.contains_iff_mem, List.contains_iff_mem, h id hv.1]
    rw [viewWith, viewWith, hcontains, viewsWith_around hf (h.cons id) hv.2.2, hf (h.cons id)]
  | _, _, .tuple items, h, hv => by rw [viewWith, viewWith, viewsWith_around hf h hv]

theorem viewsWith_around {f : List Nat → Nat → List View}
    (hf : ∀ {a b}, SameAround n a b → ∀ id, f a id = f b id) : ∀ {a b : List Nat} {vs : List Value},
    SameAround n a b → Value.ConformAll reg n vs → viewsWith f a vs = viewsWith f b vs
  | _, _, [], _, _ => rfl
  | _, _, v :: rest, h, hv => by
    rw [viewsWith, viewsWith, viewWith_around hf h hv.1, viewsWith_around hf h hv.2]

end

theorem addedWithin_around (hl : l.Conform reg n) (k : Nat) {a b : List Nat}
    (h : SameAround n a b) (id : Nat) : l.addedWithin k a id = l.addedWithin k b id := by
  induction k generalizing a b id with
  | zero => rfl
  | succ k ih => exact viewsWith_around ih h (hl id)

mutual

theorem viewWith_old {f : List Nat → Nat → List View} (hf : ∀ a id, View.OldAll n (f a id)) :
    ∀ {a : List Nat} {v : Value}, v.Conforms reg n → (viewWith f a v).Old n
  | _, .none, _ => trivial
  | _, .bool _, _ => trivial
  | _, .int _, _ => trivial
  | _, .float _, _ => trivial
  | _, .text _, _ => trivial
  | a, .list id items, hv => by
    rw [viewWith]
    split
    · exact hv.1
    · exact ⟨hv.1, View.oldAll_append (viewsWith_old hf hv.2.2) (hf _ _)⟩
  | _, .tuple items, hv => by
    rw [viewWith]
    exact viewsWith_old hf hv

theorem viewsWith_old {f : List Nat → Nat → List View} (hf : ∀ a id, View.OldAll n (f a id)) :
    ∀ {a : List Nat} {vs : List Value}, Value.ConformAll reg n vs →
      View.OldAll n (viewsWith f a vs)
  | _, [], _ => trivial
  | _, _ :: _, hv => ⟨viewWith_old hf hv.1, viewsWith_old hf hv.2⟩

end

/-- An old list was extended by values whose lists are old. -/
theorem addedWithin_old (hl : l.Conform reg n) (k : Nat) (a : List Nat) (id : Nat) :
    View.OldAll n (l.addedWithin k a id) := by
  induction k generalizing a id with
  | zero => trivial
  | succ k ih => exact viewsWith_old ih (hl id)

/-! ### New lists look as they were made -/

section

variable (hl : l.Known reg n)
include hl

theorem addedWithin_new (k : Nat) {id : Nat} (hid : n ≤ id) (a : List Nat) :
    l.addedWithin k a id = [] := by
  cases k with
  | zero => rfl
  | succ k => rw [addedWithin, hl.new id hid, viewsWith]

theorem view_old {v : Value} (hv : v.Conforms reg n) : (l.view v).Old n :=
  viewWith_old (addedWithin_old hl.added _) hv

end

/-- What is inside of new lists only: all lists around it are new, and it is not larger than what
they hold. -/
def Inside (reg : Nat → List Value) (n size : Nat) (around : List Nat) : Prop :=
  ∀ i ∈ around, n ≤ i ∧ size ≤ sizeOf (reg i)

theorem Inside.mono {size size' : Nat} {around : List Nat} (h : Inside reg n size around)
    (hle : size' ≤ size) : Inside reg n size' around :=
  fun i hi => ⟨(h i hi).1, Nat.le_trans hle (h i hi).2⟩

theorem inside_nil (size : Nat) : Inside reg n size [] :=
  fun _ hi => absurd hi List.not_mem_nil

/-- An old list inside of new ones looks as it does anywhere. -/
theorem viewWith_of_old (hl : l.Known reg n) {around : List Nat} {size : Nat} {v : Value}
    (hv : v.Conforms reg n) (h : Inside reg n size around) :
    viewWith (l.addedWithin l.added.entries.length) around v = l.view v := by
  refine viewWith_around (addedWithin_around hl.added _) (fun i hi => ?_) hv
  refine iff_of_false (fun hmem => ?_) List.not_mem_nil
  exact absurd (h i hmem).1 (Nat.not_le.2 hi)

mutual

/-- A new list does not hold itself, since it would be larger than itself. -/
theorem viewWith_since (hl : l.Known reg n) : ∀ {around : List Nat} {v : Value},
    v.Conforms reg next → Inside reg n (sizeOf v) around →
    (viewWith (l.addedWithin l.added.entries.length) around v).blur n = l.viewSince n v ∧
    (viewWith (l.addedWithin l.added.entries.length) around v).Kept n
      (fun i => l.viewsSince n (reg i))
  | _, .none, _, _ => ⟨rfl, trivial⟩
  | _, .bool _, _, _ => ⟨rfl, trivial⟩
  | _, .int _, _, _ => ⟨rfl, trivial⟩
  | _, .float _, _, _ => ⟨rfl, trivial⟩
  | _, .text _, _, _ => ⟨rfl, trivial⟩
  | around, .list id items, hv, h => by
    by_cases hid : id < n
    · have hconforms := hl.old hid hv
      have hold := view_old hl hconforms
      rw [viewWith_of_old hl hconforms h, hold.blur, viewSince, if_pos hid]
      exact ⟨rfl, hold.kept⟩
    · have hnew : n ≤ id := Nat.le_of_not_lt hid
      have hnot : around.contains id = false := by
        rw [Bool.eq_false_iff, Ne, List.contains_iff_mem]
        intro hmem
        have hsize := (h id hmem).2
        rw [hv.2.1, Value.list.sizeOf_spec] at hsize
        omega
      have hinside : Inside reg n (sizeOf items) (id :: around) := by
        intro i hi
        rcases List.mem_cons.1 hi with rfl | hi
        · exact ⟨hnew, Nat.le_of_eq (by rw [hv.2.1])⟩
        · refine (h.mono ?_) i hi
          rw [Value.list.sizeOf_spec]
          omega
      obtain ⟨hblurs, hkept⟩ := viewsWith_since hl hv.2.2 hinside
      have hview : viewWith (l.addedWithin l.added.entries.length) around (.list id items) =
          .list id (viewsWith (l.addedWithin l.added.entries.length) (id :: around) items) := by
        rw [viewWith, hnot, addedWithin_new hl _ hnew, List.append_nil]
        rfl
      rw [hview, View.blur, hblurs, viewSince, if_neg hid, Nat.min_eq_right hnew]
      exact ⟨rfl, fun _ => (congrArg (l.viewsSince n) hv.2.1).trans hblurs.symm, hkept⟩
  | around, .tuple items, hv, h => by
    have hinside : Inside reg n (sizeOf items) around := by
      refine h.mono ?_
      rw [Value.tuple.sizeOf_spec]
      omega
    obtain ⟨hblurs, hkept⟩ := viewsWith_since hl hv hinside
    rw [viewWith, View.blur, hblurs, viewSince]
    exact ⟨rfl, hkept⟩

/-- The same of several values. -/
theorem viewsWith_since (hl : l.Known reg n) : ∀ {around : List Nat} {vs : List Value},
    Value.ConformAll reg next vs → Inside reg n (sizeOf vs) around →
    View.blurs n (viewsWith (l.addedWithin l.added.entries.length) around vs) =
      l.viewsSince n vs ∧
    View.KeptAll n (fun i => l.viewsSince n (reg i))
      (viewsWith (l.addedWithin l.added.entries.length) around vs)
  | _, [], _, _ => ⟨rfl, trivial⟩
  | around, v :: rest, hv, h => by
    have hhead : Inside reg n (sizeOf v) around := by
      refine h.mono ?_
      rw [List.cons.sizeOf_spec]
      omega
    have htail : Inside reg n (sizeOf rest) around := by
      refine h.mono ?_
      rw [List.cons.sizeOf_spec]
      omega
    obtain ⟨hblur, hkept⟩ := viewWith_since hl hv.1 hhead
    obtain ⟨hblurs, hkepts⟩ := viewsWith_since hl hv.2 htail
    rw [viewsWith, View.blurs, hblur, hblurs, viewsSince]
    exact ⟨rfl, hkept, hkepts⟩

end

end
end Lists

/-! ## What the number for the next list is not used for -/

namespace Lists

variable (l : Lists) (next : Nat)

theorem addedWithin_next (k : Nat) : addedWithin { l with next } k = l.addedWithin k := by
  induction k with
  | zero => rfl
  | succ k ih =>
    funext around id
    rw [addedWithin, addedWithin, ih]
    rfl

theorem view_next (v : Value) : view { l with next } v = l.view v := by
  rw [view, addedWithin_next]
  rfl

end Lists

theorem Op.onValues_next (l : Lists) (next new : Nat) (op : Op) (u v : Value) :
    op.onValues { l with next } new u v = op.onValues l new u v := by
  have horder (op : Op) : (do return Value.bool (← (Lists.view { l with next } u).order op
      (Lists.view { l with next } v)) : Except Fault Value) =
      (do return Value.bool (← (l.view u).order op (l.view v))) := by
    rw [Lists.view_next l next u, Lists.view_next l next v]
  have hsame : (Lists.view { l with next } u).same (Lists.view { l with next } v) =
      (l.view u).same (l.view v) := by
    rw [Lists.view_next l next u, Lists.view_next l next v]
  cases op with
  | modulo =>
    show u.remainder _ v = u.remainder l v
    unfold Value.remainder
    rw [Lists.view_next]
  | eq => exact congrArg (fun b => Except.ok (Value.bool b)) hsame
  | neq => exact congrArg (fun b => Except.ok (Value.bool !b)) hsame
  | lt => exact horder .lt
  | gt => exact horder .gt
  | lte => exact horder .lte
  | gte => exact horder .gte
  | _ => rfl

/-! ## What can be done with values -/

namespace Value

@[simp] theorem typeName_blur (n : Nat) (v : Value) : (v.blur n).typeName = v.typeName := by
  cases v <;> rfl

@[simp] theorem whole?_blur (n : Nat) (v : Value) : (v.blur n).whole? = v.whole? := by
  cases v <;> rfl

@[simp] theorem number?_blur (n : Nat) (v : Value) : (v.blur n).number? = v.number? := by
  cases v <;> rfl

@[simp] theorem isSequence_blur (n : Nat) (v : Value) : (v.blur n).isSequence = v.isSequence := by
  cases v <;> rfl

theorem blurs_eq_map (n : Nat) (vs : List Value) : blurs n vs = vs.map (blur n) := by
  induction vs with
  | nil => rfl
  | cons v rest ih => rw [blurs, ih, List.map_cons]

@[simp] theorem blurs_append (n : Nat) (us vs : List Value) :
    blurs n (us ++ vs) = blurs n us ++ blurs n vs := by
  simp only [blurs_eq_map, List.map_append]

@[simp] theorem length_blurs (n : Nat) (vs : List Value) : (blurs n vs).length = vs.length := by
  rw [blurs_eq_map, List.length_map]

@[simp] theorem isEmpty_blurs (n : Nat) (vs : List Value) : (blurs n vs).isEmpty = vs.isEmpty := by
  cases vs <;> rfl

section

variable {reg : Nat → List Value} {n next : Nat}

mutual

/-- In an old value there is nothing to blur. -/
theorem Conforms.blur : ∀ {v : Value}, v.Conforms reg n → v.blur n = v
  | .none, _ => rfl
  | .bool _, _ => rfl
  | .int _, _ => rfl
  | .float _, _ => rfl
  | .text _, _ => rfl
  | .list id items, h => by
    rw [Value.blur, ConformAll.blurs h.2.2, Nat.min_eq_left (Nat.le_of_lt h.1)]
  | .tuple items, h => by rw [Value.blur, ConformAll.blurs h]

theorem ConformAll.blurs : ∀ {vs : List Value}, ConformAll reg n vs → Value.blurs n vs = vs
  | [], _ => rfl
  | v :: rest, h => by rw [Value.blurs, Conforms.blur h.1, ConformAll.blurs h.2]

end

variable {l : Lists}

mutual

/-- What a blurred value looks like can be told from the value. -/
theorem viewSince_blur (hl : l.Known reg n) : ∀ {v : Value}, v.Conforms reg next →
    l.viewSince n (v.blur n) = l.viewSince n v
  | .none, _ => rfl
  | .bool _, _ => rfl
  | .int _, _ => rfl
  | .float _, _ => rfl
  | .text _, _ => rfl
  | .list id items, h => by
    by_cases hid : id < n
    · rw [(hl.old hid h).blur]
    · have hmin : ¬min id n < n := by omega
      rw [Value.blur, Lists.viewSince, Lists.viewSince, if_neg hid, if_neg hmin,
        viewsSince_blurs hl h.2.2]
  | .tuple items, h => by
    rw [Value.blur, Lists.viewSince, Lists.viewSince, viewsSince_blurs hl h]

theorem viewsSince_blurs (hl : l.Known reg n) : ∀ {vs : List Value}, ConformAll reg next vs →
    l.viewsSince n (Value.blurs n vs) = l.viewsSince n vs
  | [], _ => rfl
  | v :: rest, h => by
    rw [Value.blurs, Lists.viewsSince, Lists.viewsSince, viewSince_blur hl h.1,
      viewsSince_blurs hl h.2]

end

section

variable (hl : l.Known reg n) {u v : Value} (hu : u.Conforms reg next)
include hl hu

/-- What a value looks like, but for what is blurred. -/
theorem view_blur : (l.view u).blur n = l.viewSince n (u.blur n) := by
  rw [viewSince_blur hl hu]
  exact (Lists.viewWith_since hl hu (Lists.inside_nil _)).1

theorem view_kept : (l.view u).Kept n fun i => l.viewsSince n (reg i) :=
  (Lists.viewWith_since hl hu (Lists.inside_nil _)).2

theorem shown_blur : (l.view u).shown = (l.viewSince n (u.blur n)).shown := by
  rw [← View.shown_shape, ← View.shape_blur n, view_blur hl hu, View.shown_shape]

theorem fill_blur (s : Text) :
    Template.fill s (l.view u) = Template.fill s (l.viewSince n (u.blur n)) := by
  rw [← Template.fill_shape, ← View.shape_blur n, view_blur hl hu, Template.fill_shape]

variable (hv : v.Conforms reg next)
include hv

/-- Comparing two values goes by what they look like when they are blurred. -/
theorem same_since : (l.view u).same (l.view v) =
    View.sameSince n (l.viewSince n (u.blur n)) (l.viewSince n (v.blur n)) := by
  rw [View.same_blur (view_kept hl hu) (view_kept hl hv), view_blur hl hu, view_blur hl hv]

/-- Ordering them does, too. -/
theorem order_since (op : Op) : (l.view u).order op (l.view v) =
    View.orderBy (View.sameItemSince n) op (l.viewSince n (u.blur n))
      (l.viewSince n (v.blur n)) := by
  rw [View.order_blur op (view_kept hl hu) (view_kept hl hv), view_blur hl hu, view_blur hl hv]

end

section

variable (hl : l.Known reg n)
include hl

/-- A list holds the same when it is blurred, and so do the lists in it. -/
theorem contents_blur {id : Nat} {items : List Value}
    (h : (Value.list id items).Conforms reg next) :
    l.contents (min id n) (blurs n items) = blurs n (l.contents id items) := by
  by_cases hid : id < n
  · have hold := (hl.old hid h).2.2
    rw [hold.blurs, (contents_conform hl.added hold id).blurs, Nat.min_eq_left (Nat.le_of_lt hid)]
  · have hnew : n ≤ id := Nat.le_of_not_lt hid
    rw [hl.contents hnew, Nat.min_eq_right hnew, hl.contents (Nat.le_refl n)]

theorem isTruthy_blur {v : Value} (hv : v.Conforms reg next) :
    l.isTruthy (v.blur n) = l.isTruthy v := by
  cases v with
  | list id items => simp only [blur, Lists.isTruthy, contents_blur hl hv, isEmpty_blurs]
  | tuple items => simp only [blur, Lists.isTruthy, isEmpty_blurs]
  | _ => rfl

end

theorem numeric_blur (symbol : String) (f : Number → Number → Except Fault Number) (u v : Value) :
    (numeric symbol f u v).map (blur n) = numeric symbol f (u.blur n) (v.blur n) := by
  simp only [numeric, number?_blur, typeName_blur]
  split
  · next a b _ _ => cases f a b with
    | error e => rfl
    | ok x => cases x <;> rfl
  · rfl

theorem replicateItems_blurs (vs : List Value) (k : Int) :
    replicateItems (blurs n vs) k = (replicateItems vs k).map (blurs n) := by
  have hrepeat (j : Nat) :
      blurs n (Nat.repeat (vs ++ ·) j []) = Nat.repeat (blurs n vs ++ ·) j [] := by
    induction j with
    | zero => rfl
    | succ j ih => rw [Nat.repeat, Nat.repeat, blurs_append, ih]
  unfold replicateItems repeatItems
  rw [length_blurs, isEmpty_blurs]
  split
  · rfl
  · split
    · rfl
    · rw [← hrepeat]
      rfl

section

variable (hl : l.Known reg n) {new : Nat} (hnew : n ≤ new)
include hl hnew

theorem replicate_blur {v : Value} (hv : v.Conforms reg next) (k : Int) :
    (v.replicate l new k).map (blur n) = (v.blur n).replicate l n k := by
  unfold replicate
  by_cases hk : (!Sequence.inBounds k) = true
  · rw [if_pos hk, if_pos hk]
    rfl
  · rw [if_neg hk, if_neg hk]
    cases v with
    | text s =>
      simp only [blur]
      split
      · rfl
      · split <;> rfl
    | list id xs =>
      simp only [blur, contents_blur hl hv, replicateItems_blurs]
      cases replicateItems (l.contents id xs) k with
      | error e => rfl
      | ok items => simp [Except.map, bind, Except.bind, pure, Except.pure, blur, hnew]
    | tuple xs =>
      simp only [blur, replicateItems_blurs]
      cases replicateItems xs k <;> rfl
    | _ => rfl

variable {u v : Value} (hu : u.Conforms reg next) (hv : v.Conforms reg next)
include hu hv

/-- A sum of blurred values is the blurred sum. -/
theorem add_blur : (u.add l new v).map (blur n) = (u.blur n).add l n (v.blur n) := by
  have hnumeric := numeric_blur (n := n) "+" Number.add u v
  cases u with
  | list i xs =>
    cases v with
    | list j ys =>
      simp only [blur, add, contents_blur hl hu, contents_blur hl hv, Except.map, blurs_append,
        Nat.min_eq_right hnew]
    | _ => rfl
  | tuple xs =>
    cases v with
    | tuple ys => simp only [blur, add, Except.map, blurs_append]
    | _ => rfl
  | text s => cases v <;> rfl
  | _ => exact hnumeric

theorem multiply_blur : (u.multiply l new v).map (blur n) = (u.blur n).multiply l n (v.blur n) := by
  simp only [multiply, isSequence_blur, whole?_blur, typeName_blur]
  split
  · cases v.whole? with
    | none => rfl
    | some k => exact replicate_blur hl hnew hu k
  · split
    · cases u.whole? with
      | none => rfl
      | some k => exact replicate_blur hl hnew hv k
    · have hnumeric := numeric_blur (n := n) "*" Number.mul u v
      simp only [numeric, typeName_blur] at hnumeric
      exact hnumeric

end
end
end Value

/-- An operator on values all of whose new lists have the number `n`. -/
def Op.since (l : Lists) (n : Nat) (op : Op) (u v : Value) : Except Fault Value :=
  match op, u with
  | .eq, _ => .ok (.bool (View.sameSince n (l.viewSince n u) (l.viewSince n v)))
  | .neq, _ => .ok (.bool (!View.sameSince n (l.viewSince n u) (l.viewSince n v)))
  | .lt, _ | .gt, _ | .lte, _ | .gte, _ => do
    return .bool (← View.orderBy (View.sameItemSince n) op (l.viewSince n u) (l.viewSince n v))
  | .modulo, .text s => do return .text (← Template.fill s (l.viewSince n v))
  | _, _ => op.onValues l n u v

namespace Value

variable {l : Lists} {reg : Nat → List Value} {n next new : Nat} {u v : Value}

/-- A template is filled in by what a value looks like. -/
theorem remainder_blur (hl : l.Known reg n) (hv : v.Conforms reg next) :
    (u.remainder l v).map (blur n) = Op.modulo.since l n (u.blur n) (v.blur n) := by
  have hnumeric := numeric_blur (n := n) "%" Number.rem u v
  cases u with
  | text s =>
    show (do return Value.text (← Template.fill s (l.view v))).map (blur n) =
      (do return Value.text (← Template.fill s (l.viewSince n (v.blur n))))
    rw [fill_blur hl hv]
    cases Template.fill s (l.viewSince n (v.blur n)) <;> rfl
  | _ => exact hnumeric

/-- **Operators come to the same on blurred values.** -/
theorem onValues_blur (hl : l.Known reg n) (hnew : n ≤ new) (hu : u.Conforms reg next)
    (hv : v.Conforms reg next) (op : Op) :
    (op.onValues l new u v).map (blur n) = op.since l n (u.blur n) (v.blur n) := by
  have hsame := same_since hl hu hv
  have horder (op : Op) : (do return Value.bool (← (l.view u).order op (l.view v))).map (blur n) =
      (do return Value.bool (← View.orderBy (View.sameItemSince n) op (l.viewSince n (u.blur n))
        (l.viewSince n (v.blur n)))) := by
    rw [order_since hl hu hv]
    cases View.orderBy (View.sameItemSince n) op (l.viewSince n (u.blur n))
      (l.viewSince n (v.blur n)) <;> rfl
  cases op with
  | plus => exact add_blur hl hnew hu hv
  | minus => exact numeric_blur "-" Number.sub u v
  | times => exact multiply_blur hl hnew hu hv
  | «over» => exact numeric_blur "/" Number.div u v
  | intDiv => exact numeric_blur "//" Number.floorDiv u v
  | modulo => exact remainder_blur hl hv
  | eq => exact congrArg (fun b => Except.ok (Value.bool b)) hsame
  | neq => exact congrArg (fun b => Except.ok (Value.bool !b)) hsame
  | and =>
    show Except.ok ((if l.isTruthy u then v else u).blur n) =
      Except.ok (if l.isTruthy (u.blur n) then v.blur n else u.blur n)
    rw [isTruthy_blur hl hu]
    split <;> rfl
  | or =>
    show Except.ok ((if l.isTruthy u then u else v).blur n) =
      Except.ok (if l.isTruthy (u.blur n) then u.blur n else v.blur n)
    rw [isTruthy_blur hl hu]
    split <;> rfl
  | lt => exact horder .lt
  | gt => exact horder .gt
  | lte => exact horder .lte
  | gte => exact horder .gte

end Value
end Retrace
