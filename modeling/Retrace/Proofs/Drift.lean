import Retrace.Proofs.Lasting
import Retrace.Proofs.Registering

/-!
# What a reversal leaves on the account

An assignment charges the memory account for the new value and credits it for the one that is
replaced.  A reversal binds the former value first, and then credits the account for the value that
the name is bound to, which is the former value by now; so it takes off the account what it charges
for at once.  What was charged for the value that goes is left on the account, and a round of an
assignment and its reversal shifts the account by the difference of the two sizes.

One round shows the difference, and many rounds show that it adds up.  For that the rounds have to
be alike: the expression that is assigned must have a value of the same size each time.  A reversal
puts the very same binding back, so it would be the same value, if the machine were the same.  It
never is.  Each round counts an assignment, reads the clock, moves the account, pushes an entry on
the history and takes it off; and an evaluation works out thunks, which then have a value, and
builds lists, which have new numbers.  So a relation is needed that is wide enough to hold from one
round to the next, and still says that the expression reads the same.

* `Machine.Returned m a` says that `a` differs from `m` in two ways only.  First by what no
  expression looks at, which is all that `Machine.SameStore` leaves open; then by having looked at
  values (`Machine.Visited`).  The order does not matter, as looking at values neither reads nor
  changes what the first part leaves open, and it is said in this order because an evaluation is
  known to come out alike at a visited machine.  So an expression has values of the same shape at
  both, and after evaluating it the relation holds again (`Returned.evaluate`).
* `Machine.Rounded m name a` is what holds after some rounds for `name`.  An eager name has its
  expression evaluated in each round, and then the machine has returned in the sense above.  Any
  other name is bound to a new thunk in each round, and then the heap grows and `Returned` fails;
  but nothing is evaluated either, and all thunks are of the same size.  So `Returned` is asked for
  eager names only.  Bindings, the way sizes are measured, and the limit are the same in both cases.

For this to give sizes, these must not depend on the number of a list or of a thunk.  The sizes that
a machine measures are a parameter of it, so this is a condition (`SizesLooks`), and it holds of the
sizes that are used (`sizesLooks_size`).

With rounds that are alike, the rest is arithmetic.  If the new value is larger, the account grows
by the same difference in each round, and after a number of rounds that can be told in advance the
limit is exceeded.  If it is smaller, the account falls, but not below the size of the value that is
put back, as that was charged for last (`heldAfter`).

* `SizesLooks`: sizes are sizes of values.
* `Machine.Returned`, `Machine.Rounded`: the machine after some rounds.
* `Exec.round_ok`, `Exec.round_apply`: one round, the first one or a later one.
* `Exec.rounds_apply`, `Exec.forall_rounds_ok_iff`: any number of rounds, and rounds without end.
* `reversal_leaves_difference`: what is left on the account.
-/

set_option autoImplicit false

namespace Retrace

/-! ## Putting an entry back -/

namespace Table

variable {κ α : Type} [BEq κ] {key : κ} {a b : α}

/-- A binding that is overwritten and put back stands in its old place. -/
theorem put_put_of_find {entries : List (κ × α)} (h : find key entries = some a) :
    put key a (put key b entries) = entries := by
  induction entries with
  | nil => cases h
  | cons p rest ih =>
    obtain ⟨k, c⟩ := p
    by_cases hk : (k == key) = true
    · simp only [find, hk, if_true, Option.some.injEq] at h
      simp [put, hk, h]
    · simp only [find, hk] at h
      simp [put, hk, ih h]

/-- A table does not show that an entry was changed, once it is what it was. -/
theorem insert_insert_of_get? {t : Table κ α} (h : t.get? key = some a) :
    (t.insert key b).insert key a = t := by
  rw [insert, insert, put_put_of_find h]

end Table

/-! ## Sizes of values -/

/-- Sizes go by what values look like: the numbers of lists do not matter, and neither do those of
thunks. -/
structure SizesLooks (size : Lists → Value → Nat) : Prop where
  look : ∀ {l l' u v}, (l.view u).shape = (l'.view v).shape → size l u = size l' v
  thunk : ∀ {l l' i j}, size l (.thunk i) = size l' (.thunk j)

theorem SizesLooks.next {size : Lists → Value → Nat} (h : SizesLooks size) (l : Lists) (next : Nat)
    (v : Value) : size { l with next } v = size l v :=
  h.look (by rw [Lists.view_next])

/-- The bytes of a value, by what it looks like. -/
def View.size : View → Nat
  | .none => 16
  | .bool b => numberSize (if b then 1 else 0)
  | .int n => numberSize n
  | .float _ => 24
  | .text s => textSize s
  | .list _ items => 56 + 8 * items.length
  | .again _ => 0
  | .tuple items => 40 + 8 * items.length
  | .thunk _ => 48

/-- The number of a list does not count for its size. -/
theorem View.size_shape (x : View) : x.shape.size = x.size := by
  cases x <;> simp [View.shape, View.size, View.shapes_eq_map]

theorem Lists.length_addedWithin (l : Lists) (around : List Nat) (id : Nat) :
    (l.addedWithin l.added.entries.length around id).length = (l.addedTo id).length := by
  cases hn : l.added.entries.length with
  | zero =>
    have hentries : l.added.entries = [] := List.length_eq_zero_iff.1 hn
    simp [addedWithin, addedTo, Table.get?, hentries, Table.find]
  | succ n => rw [addedWithin, length_viewsWith]

theorem Lists.size_view (l : Lists) (v : Value) : (l.view v).size = v.size l := by
  cases v with
  | list id items =>
    have hcontents : (l.contents id items).length = items.length + (l.addedTo id).length := by
      unfold contents
      split
      · next h => simp [h]
      · simp
    simp [view, viewWith, View.size, Value.size, hcontents, length_addedWithin]
  | tuple items => simp [view, viewWith, View.size, Value.size]
  | _ => rfl

/-- The bytes that are charged for values by default are such sizes. -/
theorem sizesLooks_size : SizesLooks Value.size where
  look {l l' u v} h := by
    rw [← Lists.size_view, ← Lists.size_view, ← View.size_shape, h, View.size_shape]
  thunk := rfl

/-! ## Machines to which everything has returned -/

namespace Machine

variable {m n a b : Machine} {reg : Nat → List Value}

theorem SameStore.readName (h : m.SameStore n) {f g : Nat → Except Fault Value} (hfg : f = g)
    (name : Name) : n.readName f name = m.readName g name := by
  rw [Machine.readName, Machine.readName, h.lookup, hfg]

theorem SameStore.readThunk (h : m.SameStore n) (depth : Nat) :
    n.readThunk depth = m.readThunk depth := by
  induction depth with
  | zero => rfl
  | succ depth ih =>
    funext id
    rw [Machine.readThunk, Machine.readThunk, h.heap, h.lists, funext (h.readName ih)]

/-- What an expression reads as depends on the variables, the thunks and the lists only. -/
theorem SameStore.reading (h : m.SameStore n) (depth : Nat) (e : Tree) :
    n.reading depth e = m.reading depth e := by
  rw [Machine.reading, Machine.reading, h.lists, funext (h.readName (h.readThunk depth))]

/-- Between `m` and `a` values were looked at, and apart from that something may have been counted,
charged, recorded or written. -/
def Returned (m a : Machine) : Prop :=
  ∃ n reg, m.SameStore n ∧ n.Visited reg a

/-- At the start nothing has changed. -/
theorem Numbered.returned (h : m.Numbered reg) : m.Returned m :=
  ⟨m, reg, ⟨rfl, rfl, rfl, rfl⟩, h.visited⟩

/-- What no expression looks at may change once more. -/
theorem Returned.sameStore (h : m.Returned a) (hb : a.SameStore b) : m.Returned b := by
  obtain ⟨n, reg, hn, ha⟩ := h
  -- Looking starts from `b` with the thunks and the lists of `n`, so that what was counted or
  -- charged since then is on both sides of it.
  have hsame : n.SameStore { b with heap := n.heap, lists := n.lists } := by
    refine ⟨?_, rfl, rfl, ?_⟩
    · show b.bindings = _
      rw [hb.bindings, ha.looks.bindings]
    · show b.profile = _
      rw [hb.profile, ha.looks.profile]
  refine ⟨{ b with heap := n.heap, lists := n.lists }, reg, ?_, ?_, ha.known, ?_, ?_⟩
  · exact ⟨hsame.bindings.trans hn.bindings, hn.heap, hn.lists, hsame.profile.trans hn.profile⟩
  · refine ⟨?_, ?_, ?_, Nat.le_refl _, ?_⟩
    · have hlists : b.lists = { n.lists with next := b.lists.next } := by
        rw [hb.lists]
        exact ha.lists
      show b = { b with heap := b.heap, lists := { n.lists with next := b.lists.next } }
      rw [← hlists]
    · rw [hb.heap]
      exact ha.looks.heapSize
    · rw [hb.heap]
      exact ha.looks.fills
    · rw [hb.lists]
      exact ha.looks.next
  · intro name v hv
    exact ha.bound (hsame.lookup name ▸ hv)
  · intro id e v ht
    rw [hb.heap] at ht
    rw [hb.lists, hsame.readThunk]
    exact ha.worked ht

/-- What a value looks like is told by the value without the numbers of new lists. -/
theorem Visited.shape_view (h : m.Visited reg a) {v : Value} (hv : v.Conforms reg a.lists.next) :
    (a.lists.view v).shape =
      (m.lists.viewSince m.lists.next (v.blur m.lists.next)).shape := by
  have hview : a.lists.view v = m.lists.view v := by
    rw [h.lists]
    exact Lists.view_next ..
  rw [hview, ← View.shape_blur m.lists.next, Value.view_blur h.known hv]

/-- An expression that could be evaluated at first can be evaluated again, and its value looks the
same. -/
theorem Returned.evaluate (h : m.Returned a) (hm : m.Numbered reg) {e : Tree} {v : Value}
    (hv : Exec.evaluate e m = .ok v n) :
    ∃ v' b, Exec.evaluate e a = .ok v' b ∧ m.Returned b ∧
      (b.lists.view v').shape = (n.lists.view v).shape := by
  obtain ⟨base, reg', hbase, ha⟩ := h
  have hsees := Exec.evaluate_sees e ha
  have hread := ha.outcomeSince e
  rw [hbase.heap, hbase.reading, ← hm.visited.outcomeSince, hv, hbase.lists] at hread
  cases hr : Exec.evaluate e a with
  | error f b =>
    rw [hr] at hread
    cases hread
  | ok v' b =>
    rw [hr] at hread
    have hblur : v'.blur m.lists.next = v.blur m.lists.next := Except.ok.inj hread
    obtain ⟨reg₁, hb, -, hv', -⟩ := hsees.ok hr
    obtain ⟨reg₂, hn, -, hv₂, -⟩ := (Exec.evaluate_sees e hm.visited).ok hv
    refine ⟨v', b, rfl, ⟨base, reg₁, hbase, hb⟩, ?_⟩
    rw [hb.shape_view hv', hn.shape_view hv₂, hbase.lists, hblur]

end Machine

/-! ## One round -/

namespace Account

variable {a : Account} {size : Nat}

theorem charge_of_le (h : a.held + size ≤ a.limit) :
    a.charge size = .ok { a with held := a.held + size } := by
  rw [charge, if_neg (Nat.not_lt.2 h)]

theorem charge_of_lt (h : a.limit < a.held + size) : a.charge size = .error .memoryExceeded := by
  rw [charge, if_pos h]

end Account

/-- The bytes that are held after `n` rounds, each of which charges the size of a new value and puts
an old one back. -/
def heldAfter (n held old new : Nat) : Nat :=
  max (held + n * new - n * old) old

namespace Exec

variable {d : Nat} {target e : Tree} {name : Name} {v w : Value} {m mid : Machine}

/-- Working out a new value leaves the account as it is, and of the lists it changes the number for
the next one only. -/
theorem valueFor_aside (h : valueFor unwatched name e m = .ok w mid) :
    mid.memory = m.memory ∧ mid.size = m.size ∧ mid.profile = m.profile ∧
      mid.lists = { m.lists with next := mid.lists.next } := by
  rw [valueFor_apply] at h
  split at h
  · have hlooks := (evaluate_looks e).ok h
    rw [hlooks.same]
    exact ⟨rfl, rfl, rfl, rfl⟩
  · cases h
    exact ⟨rfl, rfl, rfl, rfl⟩

theorem carryOut_assign (hname : Name.ofTree target = .ok name)
    (hnew : valueFor unwatched name e { m with assignments := m.assignments + 1 } = .ok w mid) :
    carryOut (d + 1) (.assign target e) m = replace unwatched name w mid := by
  rw [carryOut_of_simply (x := assign unwatched (.assign target e)) rfl, assign,
    bind_of_ok (countAssignment_apply m)]
  show (ofExcept (Name.ofTree target) >>= _) _ = _
  rw [hname, bind_of_ok (ofExcept_ok ..), bind_of_ok hnew]

/-- An assignment that comes to its end has worked out a new value, and there was room for it. -/
theorem exists_valueFor_of_carryOut {m₁ : Machine} (hname : Name.ofTree target = .ok name)
    (h : carryOut (d + 1) (.assign target e) m = .ok () m₁) :
    ∃ w mid, valueFor unwatched name e { m with assignments := m.assignments + 1 } = .ok w mid ∧
      mid.memory.held + mid.size mid.lists w ≤ mid.memory.limit := by
  rw [carryOut_of_simply (x := assign unwatched (.assign target e)) rfl] at h
  obtain ⟨_, _, _, _, w, mid, ht, hn, hnew, hreplace⟩ := assign_eq_ok.1 h
  cases ht
  cases hname.symm.trans hn
  obtain ⟨memory, hcharge, -⟩ := replace_eq_ok.1 hreplace
  refine ⟨w, mid, hnew, Nat.not_lt.1 fun hlt => ?_⟩
  rw [Account.charge_of_lt hlt] at hcharge
  cases hcharge

/-- There is no room for the new value, and nothing is recorded or bound. -/
theorem replace_of_lt (h : mid.memory.limit < mid.memory.held + mid.size mid.lists w) :
    replace unwatched name w mid = .error .memoryExceeded mid := by
  have hfault : charge w mid = .error .memoryExceeded mid := by
    rw [charge_apply, Account.charge_of_lt h]
  rw [replace, bind_of_ok (get_apply mid), bind_of_error hfault]

theorem contains_of_lookup (h : m.lookup name = some v) : m.bindings.contains name = true := by
  rw [Table.contains, ← Machine.lookup, h]
  rfl

/-- An assignment that finds room for the new value. -/
theorem carryOut_assign_of_le (hname : Name.ofTree target = .ok name)
    (hnew : valueFor unwatched name e { m with assignments := m.assignments + 1 } = .ok w mid)
    (hbound : mid.lookup name = some v) (hv : v ≠ .none)
    (hroom : mid.memory.held + mid.size mid.lists w ≤ mid.memory.limit) :
    ∃ m', carryOut (d + 1) (.assign target e) m = .ok () m' ∧ mid.Binds name w m' ∧
      (m'.history.of name).head?.map Change.old = some v ∧ m'.size = mid.size ∧
      m'.memory = ⟨mid.memory.limit,
        mid.memory.held + mid.size mid.lists w - mid.size mid.lists v⟩ := by
  have hplace := findPlace_of_contains (contains_of_lookup hbound)
  rw [carryOut_assign hname hnew]
  refine ⟨_, replace_eq_ok.2 ⟨_, Account.charge_of_le hroom, bindName_eq_ok.2 ⟨hplace, rfl⟩⟩,
    ⟨rfl, rfl, rfl, rfl, rfl⟩, ?_, rfl, ?_⟩
  · rw [History.of_push, if_pos BEq.rfl, hbound]
    rfl
  · simp only [hbound, Option.getD_some, isNone_eq_false hv]
    rfl

theorem putBack_of_charge {memory : Account} (hv : v ≠ .none)
    (hbound : m.bindings.contains name = true)
    (hmemory : (m.memory.credit (m.size m.lists v)).charge (m.size m.lists v) = .ok memory) :
    putBack unwatched name v m =
      .ok () { m with bindings := m.bindings.insert name v, memory } := by
  have hbind := (bindName_eq_ok (v := v)).2 ⟨findPlace_of_contains hbound, rfl⟩
  rw [putBack, isNone_eq_false hv, Bool.not_false, if_pos rfl, bindWatched_unwatched,
    bind_of_ok hbind, bind_of_ok (credit_apply ..), charge_apply, hmemory]

/-- A reversal puts the latest entry back, and the account is credited and charged for it. -/
theorem carryOut_reverse_of_le (hname : Name.ofTree target = .ok name)
    (hlast : (m.history.of name).head?.map Change.old = some v)
    (hbound : m.lookup name = some w) (hv : v ≠ .none)
    (hroom : m.memory.held - m.size m.lists v + m.size m.lists v ≤ m.memory.limit) :
    ∃ m', carryOut (d + 1) (.reverse target) m = .ok () m' ∧ m.Binds name v m' ∧
      m'.size = m.size ∧
      m'.memory = ⟨m.memory.limit,
        m.memory.held - m.size m.lists v + m.size m.lists v⟩ := by
  rw [carryOut_of_simply (x := reverse unwatched (.reverse target)) rfl, reverse_apply m hname,
    hlast]
  exact ⟨_, putBack_of_charge hv (contains_of_lookup hbound) (Account.charge_of_le hroom),
    ⟨rfl, rfl, rfl, rfl, rfl⟩, rfl, rfl⟩

/-- A round that finds room for the new value.  There is room for the old one then, and everything
is as it was but for the account. -/
theorem round_ok (hname : Name.ofTree target = .ok name)
    (hnew : valueFor unwatched name e { m with assignments := m.assignments + 1 } = .ok w mid)
    (hbound : mid.lookup name = some v) (hv : v ≠ .none)
    (hheld : mid.size mid.lists v ≤ mid.memory.held)
    (hroom : mid.memory.held + mid.size mid.lists w ≤ mid.memory.limit) :
    ∃ m₁ m₂, carryOut (d + 1) (.assign target e) m = .ok () m₁ ∧ mid.Binds name w m₁ ∧
      carryOut (d + 1) (.reverse target) m₁ = .ok () m₂ ∧ mid.SameStore m₂ ∧
      m₂.size = mid.size ∧ m₂.memory = ⟨mid.memory.limit,
        heldAfter 1 mid.memory.held (mid.size mid.lists v) (mid.size mid.lists w)⟩ := by
  obtain ⟨m₁, hassign, hbinds, hlast, hsize, hmemory⟩ :=
    carryOut_assign_of_le (d := d) hname hnew hbound hv hroom
  have hbound₁ : m₁.lookup name = some w := by rw [hbinds.lookup, if_pos BEq.rfl]
  have hroom₁ : m₁.memory.held - m₁.size m₁.lists v + m₁.size m₁.lists v ≤ m₁.memory.limit := by
    rw [hmemory, hsize, hbinds.lists]
    dsimp only
    omega
  obtain ⟨m₂, hreverse, hback, hsize₂, hmemory₂⟩ :=
    carryOut_reverse_of_le (d := d) hname hlast hbound₁ hv hroom₁
  refine ⟨m₁, m₂, hassign, hbinds, hreverse, ⟨?_, ?_, ?_, ?_⟩, hsize₂.trans hsize, ?_⟩
  · rw [hback.bindings, hbinds.bindings, Table.insert_insert_of_get? hbound]
  · rw [hback.heap, hbinds.heap]
  · rw [hback.lists, hbinds.lists]
  · rw [hback.profile, hbinds.profile]
  · rw [hmemory₂, hmemory, hsize, hbinds.lists, heldAfter]
    congr 1
    dsimp only
    omega

end Exec

/-! ## Round after round -/

/-- `n` rounds of an assignment and its reversal. -/
def rounds (target e : Tree) (n : Nat) : List Tree :=
  (List.replicate n [.assign target e, .reverse target]).flatten

/-- `n` rounds stay within the limit: the account does not grow, or what it grows to leaves room for
the old value, in whose place the new one was charged for. -/
def StaysWithin (limit n held old new : Nat) : Prop :=
  new ≤ old ∨ held + n * new + old ≤ limit + n * old

section Arithmetic

variable {limit held old new : Nat}

theorem le_heldAfter (n : Nat) : old ≤ heldAfter n held old new :=
  Nat.le_max_right ..

/-- What is held after a round is what the other rounds start from. -/
theorem heldAfter_succ (n : Nat) (h : old ≤ held) :
    heldAfter (n + 1) held old new = heldAfter n (heldAfter 1 held old new) old new := by
  simp only [heldAfter, Nat.succ_mul]
  rcases Nat.le_total new old with hle | hle
  all_goals
    have hmul := Nat.mul_le_mul_left n hle
    omega

/-- The first of several rounds, and the others from where it has left the account. -/
theorem staysWithin_succ (n : Nat) (h : old ≤ held) :
    StaysWithin limit (n + 1) held old new ↔
      StaysWithin limit n (heldAfter 1 held old new) old new := by
  simp only [StaysWithin, heldAfter, Nat.succ_mul]
  omega

theorem staysWithin_zero (h : held + min new old ≤ limit) : StaysWithin limit 0 held old new := by
  simp only [StaysWithin]
  omega

/-- No round starts without room for the new value. -/
theorem StaysWithin.room {n : Nat} (h : StaysWithin limit (n + 1) held old new)
    (hmin : held + min new old ≤ limit) : held + new ≤ limit := by
  rcases h with hle | hle
  · omega
  · rcases Nat.le_total new old with hsizes | hsizes
    · omega
    · have hmul := Nat.mul_le_mul_left n hsizes
      simp only [Nat.succ_mul] at hle
      omega

theorem heldAfter_one_room (hheld : old ≤ held) (hroom : held + new ≤ limit) :
    heldAfter 1 held old new + min new old ≤ limit := by
  simp only [heldAfter]
  omega

/-- The account is as before if the sizes are the same, or if it has nothing left to lose. -/
theorem heldAfter_one_eq_iff (h : old ≤ held) :
    heldAfter 1 held old new = held ↔ new = old ∨ new < old ∧ held = old := by
  simp only [heldAfter]
  omega

/-- All rounds stay within the limit only if the new value is not larger. -/
theorem forall_staysWithin_iff (limit held : Nat) :
    (∀ n, StaysWithin limit n held old new) ↔ new ≤ old := by
  refine ⟨fun h => ?_, fun h n => .inl h⟩
  rcases h (limit + 1) with hle | hle
  · exact hle
  · by_contra hlt
    have hmul := Nat.mul_le_mul_left (limit + 1) (show old + 1 ≤ new by omega)
    rw [Nat.mul_add] at hmul
    omega

end Arithmetic

namespace Machine

variable {m a b mid : Machine} {name : Name} {reg : Nat → List Value} {e : Tree} {v w : Value}

/-- `a` is what may become of `m` by rounds of assignments to a name and their reversals. -/
structure Rounded (m : Machine) (name : Name) (a : Machine) : Prop where
  bindings : a.bindings = m.bindings
  lists : a.lists = { m.lists with next := a.lists.next }
  profile : a.profile = m.profile
  size : a.size = m.size
  limit : a.memory.limit = m.memory.limit
  returned : m.isEager name = true → m.Returned a

/-- Before the first round. -/
theorem Numbered.rounded (h : m.Numbered reg) : m.Rounded name m :=
  ⟨rfl, rfl, rfl, rfl, rfl, fun _ => h.returned⟩

theorem Rounded.sameStore (h : m.Rounded name a) (hb : a.SameStore b) (hsize : b.size = a.size)
    (hlimit : b.memory.limit = a.memory.limit) : m.Rounded name b where
  bindings := hb.bindings.trans h.bindings
  lists := by rw [hb.lists]; exact h.lists
  profile := hb.profile.trans h.profile
  size := hsize.trans h.size
  limit := hlimit.trans h.limit
  returned heager := (h.returned heager).sameStore hb

theorem Rounded.lookup (h : m.Rounded name a) (other : Name) :
    a.lookup other = m.lookup other := by
  rw [Machine.lookup, h.bindings, Machine.lookup]

theorem Rounded.isEager (h : m.Rounded name a) : a.isEager name = m.isEager name := by
  rw [Machine.isEager, h.profile, Machine.isEager]

/-- What an assignment binds the name to in a later round is of the same size as at first. -/
theorem Rounded.valueFor (h : m.Rounded name a) (hm : m.Numbered reg) (hsize : SizesLooks m.size)
    (hnew : Exec.valueFor Exec.unwatched name e m = .ok w mid) :
    ∃ w' b, Exec.valueFor Exec.unwatched name e a = .ok w' b ∧ m.Rounded name b ∧
      b.memory = a.memory ∧ m.size b.lists w' = m.size mid.lists w := by
  obtain ⟨w', b, hb, hlook, hreturned⟩ : ∃ w' b, Exec.valueFor Exec.unwatched name e a = .ok w' b ∧
      m.size b.lists w' = m.size mid.lists w ∧ (m.isEager name = true → m.Returned b) := by
    rw [Exec.valueFor_apply] at hnew
    simp only [Exec.valueFor_apply, h.isEager]
    by_cases heager : m.isEager name = true
    · rw [if_pos heager] at hnew ⊢
      obtain ⟨w', b, hb, hreturned, hlook⟩ := (h.returned heager).evaluate hm hnew
      exact ⟨w', b, hb, hsize.look hlook, fun _ => hreturned⟩
    · rw [if_neg heager] at hnew ⊢
      cases hnew
      exact ⟨_, _, rfl, hsize.thunk, fun h => absurd h heager⟩
  obtain ⟨hmemory, hsizes, hprofile, hlists⟩ := Exec.valueFor_aside hb
  refine ⟨w', b, hb, ⟨?_, ?_, ?_, ?_, ?_, hreturned⟩, hmemory, hlook⟩
  · exact (Exec.valueFor_frame hb).1.trans h.bindings
  · rw [hlists, h.lists]
  · exact hprofile.trans h.profile
  · exact hsizes.trans h.size
  · rw [hmemory, h.limit]

end Machine

namespace Exec

variable {d : Nat} {target e : Tree} {name : Name} {v w : Value} {m mid a : Machine}
  {reg : Nat → List Value}

section Rounds

variable (hm : m.Numbered reg) (hsize : SizesLooks m.size) (hname : Name.ofTree target = .ok name)
  (hbound : m.lookup name = some v) (hv : v ≠ .none)
  (hnew : valueFor unwatched name e m = .ok w mid)
include hm hsize hname hbound hv hnew

/-- Each round goes like the first one, as long as there is room. -/
theorem round_apply (ha : m.Rounded name a) (hheld : m.size m.lists v ≤ a.memory.held) :
    (a.memory.held + m.size mid.lists w ≤ m.memory.limit → ∃ a₁ a₂,
      carryOut (d + 1) (.assign target e) a = .ok () a₁ ∧
      carryOut (d + 1) (.reverse target) a₁ = .ok () a₂ ∧ m.Rounded name a₂ ∧
      a₂.memory.held = heldAfter 1 a.memory.held (m.size m.lists v) (m.size mid.lists w)) ∧
    (m.memory.limit < a.memory.held + m.size mid.lists w → ∃ a',
      carryOut (d + 1) (.assign target e) a = .error .memoryExceeded a') := by
  have hcounted : m.Rounded name { a with assignments := a.assignments + 1 } :=
    ha.sameStore ⟨rfl, rfl, rfl, rfl⟩ rfl rfl
  obtain ⟨w', b, hb, hrounded, hmemory, hlook⟩ := hcounted.valueFor hm hsize hnew
  have hnew' : b.size b.lists w' = m.size mid.lists w := by rw [hrounded.size, hlook]
  have hold : b.size b.lists v = m.size m.lists v := by
    rw [hrounded.size, hrounded.lists, hsize.next]
  have hheld' : b.memory.held = a.memory.held := by rw [hmemory]
  constructor
  · intro hroom
    have hbound' : b.lookup name = some v := (hrounded.lookup name).trans hbound
    obtain ⟨a₁, a₂, hassign, -, hreverse, hstore, hsizes, haccount⟩ :=
      round_ok (d := d) hname hb hbound' hv (by omega) (by rw [hrounded.limit]; omega)
    refine ⟨a₁, a₂, hassign, hreverse, hrounded.sameStore hstore hsizes ?_, ?_⟩
    · rw [haccount]
    · rw [haccount, hold, hnew', hheld']
  · intro hroom
    rw [carryOut_assign hname hb]
    exact ⟨b, replace_of_lt (by rw [hrounded.limit]; omega)⟩

/-- Any number of rounds: they come to their end, or the limit is exceeded. -/
theorem rounds_apply (n : Nat) (ha : m.Rounded name a) (hheld : m.size m.lists v ≤ a.memory.held)
    (hroom : a.memory.held + min (m.size mid.lists w) (m.size m.lists v) ≤ m.memory.limit) :
    (StaysWithin m.memory.limit n a.memory.held (m.size m.lists v) (m.size mid.lists w) →
      ∃ a', (rounds target e n).forM (carryOut (d + 1)) a = .ok () a' ∧ m.Rounded name a' ∧
        a'.memory.held = heldAfter n a.memory.held (m.size m.lists v) (m.size mid.lists w)) ∧
    (¬StaysWithin m.memory.limit n a.memory.held (m.size m.lists v) (m.size mid.lists w) →
      ∃ a', (rounds target e n).forM (carryOut (d + 1)) a = .error .memoryExceeded a') := by
  -- The rounds are taken from the front: the account after the first one is what the others start
  -- from, and it grows or falls as it did before.
  induction n generalizing a with
  | zero =>
    constructor
    · intro _
      refine ⟨a, rfl, ha, ?_⟩
      simp only [heldAfter]
      omega
    · intro hwithin
      exact absurd (staysWithin_zero hroom) hwithin
  | succ n ih =>
    rw [staysWithin_succ n hheld, heldAfter_succ n hheld]
    have hfirst : (rounds target e (n + 1)).forM (carryOut (d + 1)) a =
        (carryOut (d + 1) (.assign target e) >>= fun _ =>
          carryOut (d + 1) (.reverse target) >>= fun _ =>
            (rounds target e n).forM (carryOut (d + 1))) a := rfl
    obtain ⟨hok, hexceeded⟩ := round_apply (d := d) hm hsize hname hbound hv hnew ha hheld
    rw [hfirst]
    by_cases hfits : a.memory.held + m.size mid.lists w ≤ m.memory.limit
    · obtain ⟨a₁, a₂, hassign, hreverse, hrounded, haccount⟩ := hok hfits
      rw [bind_of_ok hassign, bind_of_ok hreverse, ← haccount]
      refine ih hrounded ?_ ?_
      · rw [haccount]
        exact le_heldAfter 1
      · rw [haccount]
        exact heldAfter_one_room hheld hfits
    · obtain ⟨a', hassign⟩ := hexceeded (Nat.not_le.1 hfits)
      rw [bind_of_error hassign]
      refine ⟨fun hwithin => ?_, fun _ => ⟨a', rfl⟩⟩
      exact absurd (((staysWithin_succ n hheld).2 hwithin).room hroom) hfits

/-- The rounds can go on without end only if the new value is not larger. -/
theorem forall_rounds_ok_iff (ha : m.Rounded name a) (hheld : m.size m.lists v ≤ a.memory.held)
    (hroom : a.memory.held + min (m.size mid.lists w) (m.size m.lists v) ≤ m.memory.limit) :
    (∀ n, ∃ a', (rounds target e n).forM (carryOut (d + 1)) a = .ok () a') ↔
      m.size mid.lists w ≤ m.size m.lists v := by
  have hrounds (n : Nat) :=
    rounds_apply (d := d) hm hsize hname hbound hv hnew n ha hheld hroom
  rw [← forall_staysWithin_iff m.memory.limit a.memory.held]
  refine ⟨fun h n => ?_, fun h n => ?_⟩
  · by_contra hn
    obtain ⟨_, hexceeded⟩ := (hrounds n).2 hn
    obtain ⟨_, hok⟩ := h n
    cases hok.symm.trans hexceeded
  · obtain ⟨a', hok, -⟩ := (hrounds n).1 (h n)
    exact ⟨a', hok⟩

end Rounds
end Exec

open Exec in
/-- **A reversal leaves the difference of the sizes on the account.**

Let a name be bound to something that the account was charged for, and an assignment to it be
carried out.  Its reversal can be carried out as well, and binds the name as before, but the account
is what it was only if the two values are of one size, or if the new one is smaller and nothing but
the old one was held.

So the assignment and its reversal can be carried out again and again only if the new value is not
larger than the old one.  If it is larger, the account grows with each round, and the first round
that has no room for the new value exceeds the limit. -/
theorem reversal_leaves_difference {d : Nat} {target e : Tree} {name : Name} {v : Value}
    {m m₁ : Machine} (hsize : ∀ l next u, m.size { l with next } u = m.size l u)
    (hname : Name.ofTree target = .ok name) (hbound : m.lookup name = some v) (hv : v ≠ .none)
    (hheld : m.size m.lists v ≤ m.memory.held)
    (hassign : carryOut (d + 1) (.assign target e) m = .ok () m₁) :
    ∃ w, m₁.lookup name = some w ∧
      (∃ m₂, carryOut (d + 1) (.reverse target) m₁ = .ok () m₂ ∧ m₂.lookup name = some v ∧
        m₂.memory.held = heldAfter 1 m.memory.held (m.size m.lists v) (m.size m₁.lists w) ∧
        (m₂.memory.held = m.memory.held ↔ m.size m₁.lists w = m.size m.lists v ∨
          m.size m₁.lists w < m.size m.lists v ∧ m.memory.held = m.size m.lists v)) ∧
      ∀ reg, m.Numbered reg → SizesLooks m.size →
        ((∀ n, ∃ m', (rounds target e n).forM (carryOut (d + 1)) m = .ok () m') ↔
          m.size m₁.lists w ≤ m.size m.lists v) ∧
        ∀ n,
          (StaysWithin m.memory.limit n m.memory.held (m.size m.lists v) (m.size m₁.lists w) →
            ∃ m', (rounds target e n).forM (carryOut (d + 1)) m = .ok () m' ∧
              m'.lookup name = some v ∧ m'.memory.held =
                heldAfter n m.memory.held (m.size m.lists v) (m.size m₁.lists w)) ∧
          (¬StaysWithin m.memory.limit n m.memory.held (m.size m.lists v) (m.size m₁.lists w) →
            ∃ m', (rounds target e n).forM (carryOut (d + 1)) m =
              .error .memoryExceeded m') := by
  obtain ⟨w, mid, hnew, hroom⟩ := exists_valueFor_of_carryOut hname hassign
  obtain ⟨hmemory, hsizes, -, hlists⟩ := valueFor_aside hnew
  have hmid : mid.lookup name = some v := by
    rw [Machine.lookup, (valueFor_frame hnew).1]
    exact hbound
  have hold : mid.size mid.lists v = m.size m.lists v := by rw [hsizes, hlists]; exact hsize ..
  obtain ⟨m₁', m₂, hassign', hbinds, hreverse, hstore, -, haccount⟩ :=
    round_ok (d := d) hname hnew hmid hv (by rw [hold, hmemory]; exact hheld) hroom
  cases hassign.symm.trans hassign'
  have hafter : m₂.memory.held =
      heldAfter 1 m.memory.held (m.size m.lists v) (m.size m₁.lists w) := by
    rw [haccount, hold, hmemory, hsizes, hbinds.lists]
  refine ⟨w, ?_, ⟨m₂, hreverse, (hstore.lookup name).trans hmid, hafter, ?_⟩,
    fun reg hreg hlooks => ?_⟩
  · rw [hbinds.lookup, if_pos BEq.rfl]
  · rw [hafter, heldAfter_one_eq_iff hheld]
  · -- An assignment is counted before its value is worked out, so the rounds are compared with the
    -- machine right after the first count.
    have hcounted : Machine.Numbered { m with assignments := m.assignments + 1 } reg :=
      ⟨hreg.known, hreg.bound, hreg.worked⟩
    have hstart : Machine.Rounded { m with assignments := m.assignments + 1 } name m :=
      hcounted.rounded.sameStore ⟨rfl, rfl, rfl, rfl⟩ rfl rfl
    have hsmaller : m.memory.held + min (m.size mid.lists w) (m.size m.lists v) ≤
        m.memory.limit := by
      rw [hmemory, hsizes] at hroom
      exact (Nat.add_le_add_left (Nat.min_le_left ..) _).trans hroom
    rw [hbinds.lists]
    have hforever := forall_rounds_ok_iff (d := d) hcounted hlooks hname hbound hv hnew hstart hheld
      hsmaller
    refine ⟨hforever, fun n => ?_⟩
    obtain ⟨hwithin, hexceeded⟩ := rounds_apply (d := d) hcounted hlooks hname hbound hv hnew n
      hstart hheld hsmaller
    refine ⟨fun h => ?_, hexceeded⟩
    obtain ⟨m', hok, hrounded, hafter⟩ := hwithin h
    exact ⟨m', hok, (hrounded.lookup name).trans hbound, hafter⟩

/-- A machine with an eager variable that is bound to zero, and another one that is bound to a
thunk. -/
def eagerZero : Machine where
  bindings := ⟨[(.ofText "x", .int 0), (.ofText "y", .thunk 0)]⟩
  heap := #[{ expression := .binary (.int 1) "plus" (.int 2) }]
  memory := { limit := 0x3200000, held := 72 }
  profile := { eager := ["x"] }

/-- `eagerZero` holds numbers and one thunk. -/
theorem eagerZero_numbered : eagerZero.Numbered fun _ => [] where
  known := ⟨fun _ _ => trivial, fun _ => trivial, fun _ _ => rfl⟩
  bound {name v} h := by
    simp only [Machine.lookup, eagerZero, Table.get?, Table.find] at h
    split_ifs at h <;> cases h
    · exact .inl trivial
    · exact .inr ⟨0, by decide, rfl⟩
  worked {id e v} h := by
    have hwaiting : ∀ t ∈ eagerZero.heap, t.value? = none := by simp [eagerZero]
    cases hwaiting _ (Array.mem_of_getElem? h)

open Exec in
/-- `x = [y, 2]`, for which a thunk is worked out in the first round and a list is made in each. -/
theorem reversal_leaves_difference_list : ∃ m₁ m₂,
    carryOut 1 (.assign (.text "x") (.list [.text "y", .int 2])) eagerZero = .ok () m₁ ∧
    carryOut 1 (.reverse (.text "x")) m₁ = .ok () m₂ ∧
    m₂.lookup (.ofText "x") = some (.int 0) ∧ m₂.memory.held = 72 + 48 ∧
    (∃ m', (rounds (.text "x") (.list [.text "y", .int 2]) 1092264).forM (carryOut 1) eagerZero =
      .ok () m' ∧ m'.lookup (.ofText "x") = some (.int 0) ∧
      m'.memory.held = 72 + 1092264 * 48) ∧
    ∃ m', (rounds (.text "x") (.list [.text "y", .int 2]) 1092265).forM (carryOut 1) eagerZero =
      .error .memoryExceeded m' := by
  obtain ⟨m₁, hassign, hlookup, hnew⟩ : ∃ m₁,
      carryOut 1 (.assign (.text "x") (.list [.text "y", .int 2])) eagerZero = .ok () m₁ ∧
      m₁.lookup (.ofText "x") = some (.list 0 [.int 3, .int 2]) ∧
      Value.size m₁.lists (.list 0 [.int 3, .int 2]) = 72 :=
    ⟨_, by cbv, by cbv, by cbv⟩
  obtain ⟨w, hw, ⟨m₂, hreverse, hback, hheld, -⟩, hrounds⟩ :=
    reversal_leaves_difference (m := eagerZero) (v := .int 0) sizesLooks_size.next rfl rfl
      (by simp) (by decide) hassign
  cases hlookup.symm.trans hw
  have hnew : eagerZero.size m₁.lists (.list 0 [.int 3, .int 2]) = 72 := hnew
  obtain ⟨-, hrounds⟩ := hrounds _ eagerZero_numbered sizesLooks_size
  rw [hnew] at hheld hrounds
  refine ⟨m₁, m₂, hassign, hreverse, hback, hheld, ?_, (hrounds 1092265).2 ?_⟩
  · obtain ⟨m', hok, hback', hheld'⟩ := (hrounds 1092264).1 (.inr (by decide))
    exact ⟨m', hok, hback', hheld'.trans (by decide)⟩
  · rintro (hle | hle)
    · exact absurd hle (by decide)
    · exact absurd hle (by decide)

open Exec in
/-- The account is not what it was after a number gave way to a text and came back, and rounds of
that exceed the limit in the end. -/
theorem account_shifts_of_reversal : ∃ m₁ m₂,
    eagerZero.lookup (.ofText "x") = some (.int 0) ∧
    eagerZero.size eagerZero.lists (.int 0) ≤ eagerZero.memory.held ∧
    eagerZero.memory.held ≤ eagerZero.memory.limit ∧
    carryOut 1 (.assign (.text "x") (.text "\"ab\"")) eagerZero = .ok () m₁ ∧
    carryOut 1 (.reverse (.text "x")) m₁ = .ok () m₂ ∧
    m₂.memory.held ≠ eagerZero.memory.held ∧
    ∃ n m', (rounds (.text "x") (.text "\"ab\"") n).forM (carryOut 1) eagerZero =
      .error .memoryExceeded m' := by
  obtain ⟨m₁, m₂, hassign, hreverse, hheld⟩ : ∃ m₁ m₂,
      carryOut 1 (.assign (.text "x") (.text "\"ab\"")) eagerZero = .ok () m₁ ∧
      carryOut 1 (.reverse (.text "x")) m₁ = .ok () m₂ ∧ m₂.memory.held = 101 :=
    ⟨_, _, by cbv, by cbv, by cbv⟩
  obtain ⟨w, mid, hnew, hsize⟩ : ∃ w mid,
      valueFor unwatched (.ofText "x") (.text "\"ab\"") eagerZero = .ok w mid ∧
      eagerZero.size mid.lists w = 53 := ⟨_, _, by cbv, by cbv⟩
  have hname : Name.ofTree (.text "x") = .ok (.ofText "x") := rfl
  have hrounds := rounds_apply (d := 0) (v := .int 0) eagerZero_numbered sizesLooks_size hname rfl
    (by simp) hnew 2000000 eagerZero_numbered.rounded (by decide) (by rw [hsize]; decide)
  rw [hsize] at hrounds
  refine ⟨m₁, m₂, rfl, by decide, by decide, hassign, hreverse, ?_, 2000000, hrounds.2 ?_⟩
  · rw [hheld]
    decide
  · rintro (hle | hle)
    · exact absurd hle (by decide)
    · exact absurd hle (by decide)

end Retrace
