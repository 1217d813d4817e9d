import Mathlib.Tactic.Ring
import Retrace.Proofs.Enough
import Retrace.Proofs.Library
import Retrace.Proofs.Words

/-!
# The values that a loop visits

A `for` loop settles at its entry which values it is going to visit, and its block is carried out
once for each of them, with the variable bound to the value.  The block may do what it likes, also
to the variable, to the names in the range, and to the name of the list; the values stay the same,
up to a `break`.  There is one way for a block to interfere: it may extend the list that the loop
goes through in its place, and then the loop visits the new items too.

Loops are carried out in different ways, depending on what they go through.  A range is counted up,
and the next number is found by adding the step to the last one.  A list of expressions is evaluated
at the entry.  A text is taken apart into its letters, and of a list the items that it was made of
come first, and then those that it was extended by, for as long as there are any.  To say the same
of all of them, what a loop finds at its entry is described apart from how it goes on (`Enters`): a
list of values, and possibly a list that it goes on holding.  The rest is about blocks and values
alone (`Visits`), and there is one lemma for each way in which loops go through values.

What a block does is said without a number of passes (`BlockEnds`).  A loop is given one number for
itself and for its block, so a number has to be found that is enough for all passes; this is what
the statements with `∃ N, ∀ n, N ≤ n` are for.

A loop over a list that has grown goes on, and what it visits then is not settled at its entry.  Of
this case it is said what it has visited if it comes to an end: one of the new items at least, and
all of them unless there was a `break` (`Visits.goes_on`).

* `progression a b d`: the numbers `a`, `a + d`, … below `b`.
* `Enters source m vs held m₀`: the values of the source, evaluated at the entry of a loop, and the
  list that it goes on holding.
* `Visits name body vs m b m'`: the block is carried out for one value after the other.  There is
  one way only in which that can be done (`Visits.unique`).
* `iterate_rangePass`: a loop over numbers is a loop over the values of its progression.
* `Visits.eachLoop`, `Visits.laterLoop`: what loops do while they visit values; with `Completes` the
  number of passes plays no part.
* `exists_visits`: if the block always comes to its end, all values are visited, or all up to a
  `break`.
* `for_visits_values`: all this of `for` loops, and what happens if the list has been extended.
-/

set_option autoImplicit false

namespace Retrace

/-! ## Progressions -/

/-- How many of the numbers `a`, `a + d`, … are below `b`, if `d` is positive. -/
def countBelow (a b d : Int) : Nat :=
  ((b - a + d - 1) / d).toNat

/-- The numbers `a`, `a + d`, … below `b`, if `d` is positive. -/
def progression (a b d : Int) : List Int :=
  (List.range (countBelow a b d)).map fun (k : Nat) => a + k * d

section Progression

variable {a b d : Int} (hd : 0 < d)
include hd

/-- A number of the progression is counted if it is below the bound. -/
theorem lt_countBelow_iff (k : Nat) : k < countBelow a b d ↔ a + k * d < b := by
  rw [countBelow, Int.lt_toNat, ← Int.add_one_le_iff, Int.le_ediv_iff_mul_le hd, add_mul, one_mul]
  constructor <;> intro h <;> omega

theorem progression_of_le (h : b ≤ a) : progression a b d = [] := by
  have hzero : ¬0 < countBelow a b d := by
    rw [lt_countBelow_iff hd]
    simpa using h
  rw [progression, Nat.eq_zero_of_not_pos hzero]
  rfl

/-- The first number, and those from the next one on. -/
theorem progression_of_lt (h : a < b) : progression a b d = a :: progression (a + d) b d := by
  have hcount : countBelow a b d = countBelow (a + d) b d + 1 := by
    refine eq_of_forall_lt_iff fun k => ?_
    rw [lt_countBelow_iff hd]
    cases k with
    | zero => simpa using h
    | succ k =>
      rw [Nat.succ_lt_succ_iff, lt_countBelow_iff hd]
      push_cast
      ring_nf
  rw [progression, hcount, List.range_succ_eq_map, List.map_cons, List.map_map, progression]
  congr 1
  · simp
  · refine List.map_congr_left fun k _ => ?_
    simp only [Function.comp_apply, Nat.succ_eq_add_one]
    push_cast
    ring

end Progression

/-- The values that a loop over numbers visits: what its start came to, which may be a truth value
that counts for `a`, and from then on numbers. -/
def Value.counted (first : Value) (a b d : Int) : List Value :=
  if a < b then first :: (progression (a + d) b d).map .int else []

theorem Value.counted_int {a b d : Int} (hd : 0 < d) :
    Value.counted (.int a) a b d = (progression a b d).map .int := by
  rw [counted]
  split
  · next h => rw [progression_of_lt hd h, List.map_cons]
  · next h => rw [progression_of_le hd (not_lt.1 h), List.map_nil]

namespace Exec

variable {run : Tree → Exec Bool} {target body : Tree} {name : Name} {m m' : Machine}

/-! ## Loops over numbers -/

/-- Whole numbers and truth values are compared as whole numbers. -/
theorem isLess_of_whole? {u v : Value} {a b : Int} (hu : u.whole? = some a)
    (hv : v.whole? = some b) (m : Machine) : isLess u v m = .ok (decide (a < b)) m := by
  have horder : (m.lists.view u).order .lt (m.lists.view v) =
      .ok (Op.lt.accepts (compare a b)) := by
    cases u with
    | bool | int =>
      cases hu
      cases v with
      | bool | int =>
        cases hv
        rfl
      | _ => cases hv
    | _ => cases hu
  rw [isLess, bind_of_ok (view_apply u m), bind_of_ok (view_apply v m), horder,
    Op.accepts_compare rfl]
  rfl

/-- Whole numbers and truth values are added as whole numbers. -/
theorem advance_of_whole? {u v : Value} {a d : Int} (hu : u.whole? = some a)
    (hv : v.whole? = some d) (m : Machine) : advance unwatched u v m = .ok (.int (a + d)) m := by
  cases u with
  | bool | int =>
    cases hu
    cases v with
    | bool | int =>
      cases hv
      rfl
    | _ => cases hv
  | _ => cases hu

/-- One pass of a loop over numbers. -/
def rangePass (run : Tree → Exec Bool) (target body : Tree) (last stride : Value) (v : Value) :
    Exec (Value ⊕ Bool) := do
  if ← isLess v last then
    if ← forPass unwatched run target body v then return .inl (← advance unwatched v stride)
    else return .inr true
  else return .inr true

/-- A loop over numbers visits the values of its progression, whatever its block does. -/
theorem iterate_rangePass {last stride : Value} {b d : Int} (hlast : last.whole? = some b)
    (hstride : stride.whole? = some d) (hd : 0 < d) {n : Nat} {u : Value} {a : Int}
    (hu : u.whole? = some a) (hn : (u.counted a b d).length < n) (m : Machine) :
    iterate (rangePass run target body last stride) n u m =
      (eachLoop unwatched run target body (u.counted a b d) >>= fun _ => pure true) m := by
  induction n generalizing u a m with
  | zero => cases hn
  | succ n ih =>
    rw [iterate, bind_apply, rangePass, bind_of_ok (isLess_of_whole? hu hlast m)]
    by_cases hab : a < b
    · have hcounted : u.counted a b d = u :: Value.counted (.int (a + d)) (a + d) b d := by
        rw [Value.counted_int hd, Value.counted, if_pos hab]
      rw [hcounted] at hn ⊢
      rw [decide_eq_true hab, if_pos rfl, bind_apply, eachLoop, bind_apply, bind_apply]
      cases forPass unwatched run target body u m with
      | error e mid => rfl
      | ok c mid =>
        cases c with
        | false => rfl
        | true =>
          simp only [if_true, bind_of_ok (advance_of_whole? hu hstride mid), pure_apply]
          rw [ih rfl (Nat.lt_of_succ_lt_succ hn), bind_apply]
          rfl
    · rw [decide_eq_false hab, Value.counted, if_neg hab]
      rfl

/-! ## One value after the other -/

/-- From `m` on the block is carried out once for each of the values, in order, each time with the
name bound to the value, and that leads to `m'`.  Either all passes were completed, or the last one
met a `break` and `b` is false. -/
inductive Visits (name : Name) (body : Tree) : List Value → Machine → Bool → Machine → Prop
  | done (m : Machine) : Visits name body [] m true m
  | broken {v : Value} {m start m' : Machine} : bind name v m = .ok () start →
    BlockEnds body start false m' → Visits name body [v] m false m'
  | next {v : Value} {vs : List Value} {m start mid m' : Machine} {b : Bool} :
    bind name v m = .ok () start → BlockEnds body start true mid → Visits name body vs mid b m' →
    Visits name body (v :: vs) m b m'

/-- The first pass: with a `break` it is the last one too. -/
theorem Visits.of_cons {v : Value} {vs : List Value} {b : Bool}
    (h : Visits name body (v :: vs) m b m') : ∃ start c mid, bind name v m = .ok () start ∧
      BlockEnds body start c mid ∧
      (c = true → Visits name body vs mid b m') ∧ (c = false → vs = [] ∧ b = false ∧ m' = mid) := by
  cases h with
  | broken hbind hblock => exact ⟨_, false, _, hbind, hblock, nofun, fun _ => ⟨rfl, rfl, rfl⟩⟩
  | next hbind hblock hrest => exact ⟨_, true, _, hbind, hblock, fun _ => hrest, nofun⟩

/-- Some values, and then others. -/
theorem Visits.append {us vs : List Value} {mid : Machine} {b : Bool}
    (hfirst : Visits name body us m true mid) (hthen : Visits name body vs mid b m') :
    Visits name body (us ++ vs) m b m' := by
  generalize hb : true = c at hfirst
  induction hfirst with
  | done => exact hthen
  | broken => cases hb
  | next hbind hblock _ ih => exact .next hbind hblock (ih hthen hb)

/-- Either the first values are visited and then the others, or there is a `break` at the last one
of the first, and no others are visited. -/
theorem Visits.of_append {us vs : List Value} {b : Bool}
    (h : Visits name body (us ++ vs) m b m') :
    (∃ mid, Visits name body us m true mid ∧ Visits name body vs mid b m') ∨
      vs = [] ∧ b = false ∧ Visits name body us m false m' := by
  induction us generalizing m with
  | nil => exact .inl ⟨m, .done m, h⟩
  | cons u us ih =>
    obtain ⟨start, c, mid, hbind, hblock, hthen, hbroken⟩ := Visits.of_cons h
    cases c with
    | false =>
      obtain ⟨hnil, rfl, rfl⟩ := hbroken rfl
      obtain ⟨rfl, rfl⟩ := List.append_eq_nil_iff.1 hnil
      exact .inr ⟨rfl, rfl, .broken hbind hblock⟩
    | true =>
      rcases ih (hthen rfl) with ⟨mid', hfirst, hrest⟩ | ⟨hnil, hb, hbroken⟩
      · exact .inl ⟨mid', .next hbind hblock hfirst, hrest⟩
      · exact .inr ⟨hnil, hb, .next hbind hblock hbroken⟩

/-- The machine decides which of the values are visited, and where that leads. -/
theorem Visits.unique {vs : List Value} {j k : Nat} {b c : Bool} {m'' : Machine}
    (h : Visits name body (vs.take j) m b m') (hall : b = true → vs.length ≤ j)
    (h' : Visits name body (vs.take k) m c m'') (hall' : c = true → vs.length ≤ k) :
    vs.take j = vs.take k ∧ b = c ∧ m' = m'' := by
  induction vs generalizing m j k with
  | nil =>
    rw [List.take_nil] at h h'
    cases h
    cases h'
    exact ⟨by rw [List.take_nil, List.take_nil], rfl, rfl⟩
  | cons v vs ih =>
    rcases j with - | j
    · cases h
      cases hall rfl
    rcases k with - | k
    · cases h'
      cases hall' rfl
    obtain ⟨start, b₁, mid, hbind, hblock, hthen, hbroken⟩ := Visits.of_cons h
    obtain ⟨start', c₁, mid', hbind', hblock', hthen', hbroken'⟩ := Visits.of_cons h'
    cases hbind.symm.trans hbind'
    obtain ⟨rfl, rfl⟩ := hblock.unique hblock'
    rw [List.take_succ_cons, List.take_succ_cons]
    cases b₁ with
    | false =>
      obtain ⟨hj, rfl, rfl⟩ := hbroken rfl
      obtain ⟨hk, rfl, rfl⟩ := hbroken' rfl
      exact ⟨by rw [hj, hk], rfl, rfl⟩
    | true =>
      obtain ⟨hsame, hb, hm⟩ := ih (hthen rfl) (fun hb => Nat.le_of_succ_le_succ (hall hb))
        (hthen' rfl) fun hc => Nat.le_of_succ_le_succ (hall' hc)
      exact ⟨by rw [hsame], hb, hm⟩

theorem Visits.ne_nil {vs : List Value} (h : Visits name body vs m false m') : vs ≠ [] := by
  rintro rfl
  cases h

/-- The name has a place for the first value. -/
theorem Visits.place {vs : List Value} {b : Bool} (h : Visits name body vs m b m')
    (hvs : vs ≠ []) : Name.findPlace m.bindings name = .ok () := by
  cases h with
  | done => exact absurd rfl hvs
  | broken hbind _ => exact (bindName_eq_ok.1 hbind).1
  | next hbind _ _ => exact (bindName_eq_ok.1 hbind).1

/-- In between lists only grow. -/
theorem Visits.grows {vs : List Value} {b : Bool} (h : Visits name body vs m b m') (id : Nat) :
    m.lists.addedTo id <+: m'.lists.addedTo id := by
  induction h with
  | done => exact List.prefix_refl _
  | broken hbind hblock =>
    obtain ⟨-, rfl⟩ := bindName_eq_ok.1 hbind
    exact hblock.keeps.2 id
  | next hbind hblock _ ih =>
    obtain ⟨-, rfl⟩ := bindName_eq_ok.1 hbind
    exact (hblock.keeps.2 id).trans ih

/-- If the name has a place among those that are bound, and the block comes to its end whenever it
is begun, then all values are visited, or all up to a `break`. -/
theorem exists_visits {vs : List Value}
    (hplace : vs ≠ [] → Name.findPlace m.bindings name = .ok ())
    (hbody : ∀ j v mid start, Visits name body (vs.take j) m true mid → vs[j]? = some v →
      bind name v mid = .ok () start → ∃ b m', BlockEnds body start b m') :
    ∃ j b m', Visits name body (vs.take j) m b m' ∧ (b = true → vs.length ≤ j) := by
  induction vs generalizing m with
  | nil => exact ⟨0, true, m, .done m, fun _ => Nat.le_refl 0⟩
  | cons v vs ih =>
    have hbind : bind name v m = .ok () { m with bindings := m.bindings.insert name v } :=
      bindName_eq_ok.2 ⟨hplace (List.cons_ne_nil v vs), rfl⟩
    obtain ⟨b, mid, hblock⟩ := hbody 0 v m _ (.done m) rfl hbind
    cases b with
    | false => exact ⟨1, false, mid, .broken hbind hblock, nofun⟩
    | true =>
      -- from now on the name is bound, and that is place enough
      have hbound : (mid.lookup name).isSome = true := by
        refine hblock.keeps.1 name ?_
        show ((m.bindings.insert name v).get? name).isSome = true
        rw [Table.get?_insert, if_pos BEq.rfl]
        rfl
      obtain ⟨j, b, m', hvisits, hall⟩ := ih (fun _ => findPlace_of_contains hbound)
        fun j u mid' start hpast hu hstart =>
          hbody (j + 1) u mid' start (.next hbind hblock hpast) hu hstart
      exact ⟨j + 1, b, m', .next hbind hblock hvisits, fun hb => Nat.succ_le_succ (hall hb)⟩

/-! ## What loops do while they visit values -/

section Loops

variable (hname : Name.ofTree target = .ok name)
include hname

theorem forPass_eq (run : Tree → Exec Bool) (v : Value) :
    forPass unwatched run target body v = (bind name v >>= fun _ => block run body) := by
  rw [forPass, hname]
  rfl

/-- A loop over values that visits the first of them goes on with the others, unless there is a
`break`. -/
theorem Visits.eachLoop {ws : List Value} {b : Bool} (h : Visits name body ws m b m') :
    ∃ N, ∀ n, N ≤ n → ∀ rest,
      eachLoop unwatched (perform unwatched n) target body (ws ++ rest) m =
        if b then Exec.eachLoop unwatched (perform unwatched n) target body rest m'
        else .ok false m' := by
  induction h with
  | done => exact ⟨0, fun _ _ _ => rfl⟩
  | broken hbind hblock =>
    obtain ⟨N, hN⟩ := hblock
    refine ⟨N, fun n hn rest => ?_⟩
    rw [List.singleton_append, Exec.eachLoop, forPass_eq hname, bind_assoc, bind_of_ok hbind,
      bind_of_ok (block_completes hn body _ _ _ hN)]
    rfl
  | next hbind hblock _ ih =>
    obtain ⟨N, hN⟩ := hblock
    obtain ⟨N', hN'⟩ := ih
    refine ⟨max N N', fun n hn rest => ?_⟩
    rw [List.cons_append, Exec.eachLoop, forPass_eq hname, bind_assoc, bind_of_ok hbind,
      bind_of_ok (block_completes ((Nat.le_max_left N N').trans hn) body _ _ _ hN), if_pos rfl]
    exact hN' n ((Nat.le_max_right N N').trans hn) rest

theorem place_of_eachLoop {vs : List Value} {b : Bool}
    (h : Exec.eachLoop unwatched run target body vs m = .ok b m') (hvs : vs ≠ []) :
    Name.findPlace m.bindings name = .ok () := by
  cases vs with
  | nil => exact absurd rfl hvs
  | cons v vs =>
    rw [Exec.eachLoop, forPass_eq hname, bind_assoc] at h
    obtain ⟨_, start, hbind, -⟩ := bind_eq_ok.1 h
    exact (bindName_eq_ok.1 hbind).1

omit hname in
/-- One pass of a loop over the items that a list is extended by. -/
def laterPass (run : Tree → Exec Bool) (target body : Tree) (id k : Nat) : Exec (Nat ⊕ Bool) := do
  match ((← get).lists.addedTo id)[k]? with
  | some v => return goOn (k + 1) (← forPass unwatched run target body v)
  | none => return .inr true

theorem laterPass_of_some {id k : Nat} {v : Value} (hv : (m.lists.addedTo id)[k]? = some v) :
    laterPass run target body id k m =
      (bind name v >>= fun _ => block run body >>= fun b => pure (goOn (k + 1) b)) m := by
  rw [laterPass, bind_of_ok (get_apply m), hv]
  show (forPass unwatched run target body v >>= fun b => pure (goOn (k + 1) b)) m = _
  rw [forPass_eq hname, bind_assoc]

omit hname in
theorem laterPass_of_none {id k : Nat} (h : (m.lists.addedTo id)[k]? = none) :
    laterPass run target body id k m = .ok (.inr true) m := by
  rw [laterPass, bind_of_ok (get_apply m), h]
  rfl

/-- A loop over the items that a list was extended by visits those that are there already; then it
looks for the next one, unless there is a `break`. -/
theorem Visits.laterLoop {id : Nat} {ws : List Value} {b : Bool}
    (h : Visits name body ws m b m') {k : Nat} (hws : ws <+: (m.lists.addedTo id).drop k) :
    ∃ N, ∀ n, N ≤ n → ∀ f,
      iterate (laterPass (perform unwatched n) target body id) (f + ws.length) k m =
        if b then
          iterate (laterPass (perform unwatched n) target body id) f (k + ws.length) m'
        else .ok true m' := by
  induction h generalizing k with
  | done => exact ⟨0, fun _ _ _ => rfl⟩
  | @broken v m start m' hbind hblock =>
    obtain ⟨later, hdrop, -⟩ := List.cons_prefix_iff.1 hws
    have hv : (m.lists.addedTo id)[k]? = some v := by
      rw [← List.head?_drop, hdrop, List.head?_cons]
    obtain ⟨N, hN⟩ := hblock
    refine ⟨N, fun n hn f => ?_⟩
    rw [List.length_singleton, iterate, bind_apply, laterPass_of_some hname hv, bind_of_ok hbind,
      bind_of_ok (block_completes hn body _ _ _ hN)]
    rfl
  | @next v ws m start mid m' b hbind hblock _ ih =>
    obtain ⟨later, hdrop, hlater⟩ := List.cons_prefix_iff.1 hws
    have hv : (m.lists.addedTo id)[k]? = some v := by
      rw [← List.head?_drop, hdrop, List.head?_cons]
    -- the block may have extended the list, but the items that were there have kept their places
    have hgrows : m.lists.addedTo id <+: mid.lists.addedTo id := by
      have hstart := (bindName_eq_ok.1 hbind).2
      rw [hstart] at hblock
      exact hblock.keeps.2 id
    have hnext : ws <+: (mid.lists.addedTo id).drop (k + 1) := by
      refine List.IsPrefix.trans ?_ (hgrows.drop (k + 1))
      rwa [← List.tail_drop, hdrop, List.tail_cons]
    obtain ⟨N, hN⟩ := hblock
    obtain ⟨N', hN'⟩ := ih hnext
    refine ⟨max N N', fun n hn f => ?_⟩
    rw [List.length_cons, ← Nat.add_assoc, iterate, bind_apply, laterPass_of_some hname hv,
      bind_of_ok hbind,
      bind_of_ok (block_completes ((Nat.le_max_left N N').trans hn) body _ _ _ hN)]
    show iterate _ (f + ws.length) (k + 1) mid = _
    rw [hN' n ((Nat.le_max_right N N').trans hn) f, Nat.add_right_comm k, Nat.add_assoc]

/-- If the values are visited, all or up to a `break`, then that is what a loop over them does. -/
theorem Visits.eachLoop_eq {vs : List Value} {j : Nat} {b : Bool}
    (h : Visits name body (vs.take j) m b m') (hall : b = true → vs.length ≤ j) :
    ∃ N, ∀ n, N ≤ n →
      Exec.eachLoop unwatched (perform unwatched n) target body vs m = .ok b m' := by
  obtain ⟨N, hN⟩ := h.eachLoop hname
  refine ⟨N, fun n hn => ?_⟩
  have hloop := hN n hn (vs.drop j)
  rw [List.take_append_drop] at hloop
  rw [hloop]
  cases b with
  | false => rfl
  | true =>
    rw [List.drop_eq_nil_of_le (hall rfl)]
    rfl

omit hname in
theorem drop_eq_cons_of_grown {l l' : List Value} {k : Nat} {v : Value} (h : l <+: l')
    (hv : l[k]? = some v) : l'.drop k = v :: l'.drop (k + 1) := by
  obtain ⟨hk, rfl⟩ := List.getElem?_eq_some_iff.1 hv
  rw [List.drop_eq_getElem_cons (hk.trans_le h.length_le), h.getElem hk]

/-- What a loop over the items that a list is extended by has visited once it has come to its end:
the first items from its start on, as the list is in the end; and all of them, unless there was a
`break`. -/
theorem visits_of_laterLoop {id n f k : Nat} {c : Bool}
    (h : iterate (laterPass (perform unwatched n) target body id) f k m = .ok c m') :
    c = true ∧ ∃ us b, Visits name body us m b m' ∧ us <+: (m'.lists.addedTo id).drop k ∧
      (b = true → us = (m'.lists.addedTo id).drop k) ∧
      (k < (m.lists.addedTo id).length → us ≠ []) := by
  induction f generalizing k m with
  | zero => cases h
  | succ f ih =>
    obtain ⟨r, mid, hpass, hrest⟩ := bind_eq_ok.1 h
    cases hv : (m.lists.addedTo id)[k]? with
    | none =>
      rw [laterPass_of_none hv] at hpass
      cases hpass
      cases hrest
      have hend : (m'.lists.addedTo id).length ≤ k := List.getElem?_eq_none_iff.1 hv
      rw [List.drop_eq_nil_of_le hend]
      exact ⟨rfl, [], true, .done m', List.nil_prefix, fun _ => rfl, fun hk => by omega⟩
    | some v =>
      rw [laterPass_of_some hname hv] at hpass
      obtain ⟨⟨⟩, start, hbind, hpass⟩ := bind_eq_ok.1 hpass
      obtain ⟨b, mid', hblock, hgoOn⟩ := bind_eq_ok.1 hpass
      cases hgoOn
      cases b with
      | false =>
        cases hrest
        have hvisits : Visits name body [v] m false m' := .broken hbind ⟨n, hblock⟩
        refine ⟨rfl, [v], false, hvisits, ?_, nofun, fun _ => List.cons_ne_nil v []⟩
        rw [drop_eq_cons_of_grown (hvisits.grows id) hv]
        exact List.cons_prefix_cons.2 ⟨rfl, List.nil_prefix⟩
      | true =>
        obtain ⟨hc, us, b, hthen, hus, hall, -⟩ := ih hrest
        have hvisits : Visits name body (v :: us) m b m' := .next hbind ⟨n, hblock⟩ hthen
        refine ⟨hc, v :: us, b, hvisits, ?_, ?_, fun _ => List.cons_ne_nil v us⟩
        · rw [drop_eq_cons_of_grown (hvisits.grows id) hv]
          exact List.cons_prefix_cons.2 ⟨rfl, hus⟩
        · intro hb
          rw [drop_eq_cons_of_grown (hvisits.grows id) hv, hall hb]

/-- A loop over a list visits the items it has at its entry; then it looks for those that the list
has been extended by in the meantime, unless there is a `break`. -/
theorem Visits.itemLoop {id : Nat} {items : List Value} {j : Nat} {b : Bool} {source : Tree}
    (h : Visits name body ((items ++ m.lists.addedTo id).take j) m b m')
    (hall : b = true → (items ++ m.lists.addedTo id).length ≤ j) :
    ∃ N, ∀ n, N ≤ n → ∃ f, 0 < f ∧
      Exec.itemLoop unwatched (perform unwatched n) n target source body (.list id items) m =
        if b then
          iterate (laterPass (perform unwatched n) target body id) f (m.lists.addedTo id).length m'
        else .ok true m' := by
  rw [List.take_append] at h
  rw [List.length_append] at hall
  rcases h.of_append with ⟨mid, hfirst, hthen⟩ | ⟨-, rfl, hbroken⟩
  · -- all items that the list was made with have been visited
    have hj : items.length ≤ j := by
      cases b with
      | true => exact (Nat.le_add_right _ _).trans (hall rfl)
      | false =>
        have hsome := hthen.ne_nil
        rw [Ne, List.take_eq_nil_iff] at hsome
        omega
    have hws : (m.lists.addedTo id).take (j - items.length) <+: (mid.lists.addedTo id).drop 0 :=
      (List.take_prefix _ _).trans (hfirst.grows id)
    obtain ⟨N, hN⟩ := hfirst.eachLoop_eq hname fun _ => hj
    obtain ⟨N', hN'⟩ := hthen.laterLoop hname hws
    generalize hsize : ((m.lists.addedTo id).take (j - items.length)).length = size at hN'
    refine ⟨max N N' + size + 1, fun n hn => ⟨n - size, by omega, ?_⟩⟩
    have hlater := hN' n (by omega) (n - size)
    rw [Nat.sub_add_cancel (by omega), Nat.zero_add] at hlater
    rw [Exec.itemLoop, bind_of_ok (hN n (by omega)), if_pos rfl]
    refine Eq.trans hlater ?_
    cases b with
    | true =>
      have hj' := hall rfl
      rw [List.take_of_length_le (by omega)] at hsize
      rw [hsize]
    | false => rfl
  · obtain ⟨N, hN⟩ := hbroken.eachLoop_eq hname nofun
    refine ⟨N, fun n hn => ⟨1, Nat.one_pos, ?_⟩⟩
    rw [Exec.itemLoop, bind_of_ok (hN n hn)]
    rfl

end Loops

end Exec

/-! ## What a loop finds at its entry -/

theorem Lists.contents_eq (l : Lists) (id : Nat) (items : List Value) :
    l.contents id items = items ++ l.addedTo id := by
  rw [contents]
  split
  · next h => rw [h, List.append_nil]
  · rfl

namespace Exec

/-- At the entry of a loop the source is evaluated, which takes the machine `m` to `m₀`, and gives
the values `vs`.  If it is a list that a name stands for, the loop goes on holding that list. -/
inductive Enters : Tree → Machine → List Value → Option Nat → Machine → Prop
  | range {start stop step : Tree} {m m₁ m₂ m₃ : Machine} {first last stride : Value}
      {a b d : Int} : evaluate start m = .ok first m₁ → first.whole? = some a →
    evaluate stop m₁ = .ok last m₂ → last.whole? = some b →
    evaluate step m₂ = .ok stride m₃ → stride.whole? = some d → step ≠ .text "" → 0 < d →
    Enters (.range start stop step) m (first.counted a b d) none m₃
  | rangeByOne {start stop : Tree} {m m₁ m₂ : Machine} {first last : Value} {a b : Int} :
    evaluate start m = .ok first m₁ → first.whole? = some a →
    evaluate stop m₁ = .ok last m₂ → last.whole? = some b →
    Enters (.range start stop .none) m (first.counted a b 1) none m₂
  | items {x : Tree} {xs : List Tree} {vs : List Value} {m m₁ : Machine} :
    x.isText "range" = false → (x :: xs).mapM evaluate m = .ok vs m₁ →
    Enters (.list (x :: xs)) m vs none m₁
  | text {x : String} {s : Text} {m m₁ : Machine} : x ≠ "" →
    evaluate (.text x) m = .ok (.text s) m₁ → Enters (.text x) m (s.letters.map .text) none m₁
  | list {x : String} {id : Nat} {items : List Value} {m m₁ : Machine} : x ≠ "" →
    evaluate (.text x) m = .ok (.list id items) m₁ →
    Enters (.text x) m (m₁.lists.contents id items) (some id) m₁

/-- An expression with a value that counts for a positive number is not taken for absent. -/
theorem isTruthy_of_evaluate {e : Tree} {m m' : Machine} {v : Value} {d : Int}
    (h : evaluate e m = .ok v m') (hv : v.whole? = some d) (he : e ≠ .text "") (hd : 0 < d) :
    e.isTruthy = true := by
  cases e with
  | none | float => cases h
  | bool c =>
    cases h
    cases c with
    | true => rfl
    | false =>
      cases hv
      cases hd
  | int n =>
    cases h
    cases hv
    exact bne_iff_ne.2 (Int.ne_of_gt hd)
  | text s =>
    rw [Tree.isTruthy, Bool.not_eq_true', Bool.eq_false_iff, Ne, String.isEmpty_iff]
    exact fun hs => he (congrArg Tree.text hs)
  | list xs =>
    cases xs with
    | nil =>
      cases h
      cases hv
    | cons => rfl
  | tuple xs =>
    cases xs with
    | nil => cases h
    | cons => rfl
  | thunk => rfl

variable {target source body : Tree} {m m₀ : Machine} {vs : List Value}

/-- A loop over numbers from `a` to `b` in steps of `d` is one over the values of a progression. -/
theorem rangeLoop_eq_each {start stop step : Tree} {m₁ m₂ : Machine} {first last stride : Value}
    {a b d : Int} (hstart : evaluate start m = .ok first m₁) (ha : first.whole? = some a)
    (hstop : evaluate stop m₁ = .ok last m₂) (hb : last.whole? = some b)
    (hstep : strideOf unwatched step m₂ = .ok stride m₀) (hd : stride.whole? = some d)
    (hpos : 0 < d) {n : Nat} (hn : (first.counted a b d).length < n) (run : Tree → Exec Bool) :
    rangeLoop unwatched run n target (.range start stop step) body m =
      (eachLoop unwatched run target body (first.counted a b d) >>= fun _ => pure true) m₀ := by
  rw [← iterate_rangePass hb hd hpos ha hn, rangeLoop, bind_of_ok (show ofExcept _ m = _ from rfl)]
  simp only [evaluateWatched_unwatched]
  rw [bind_of_ok hstart, bind_of_ok hstop, bind_of_ok hstep]
  rfl

/-- A loop over what a name stands for. -/
theorem forLoop_text {x : String} (hx : x ≠ "") (run : Tree → Exec Bool) (n : Nat) :
    forLoop unwatched run n (.tuple [.text "for", target, .text x, body]) m =
      (evaluate (.text x) >>= itemLoop unwatched run n target (.text x) body) m := by
  obtain ⟨c, hc⟩ : ∃ c, (Tree.text x).head = .ok c := by
    rw [Tree.head, Tree.items?, Tree.characters]
    cases hcs : x.toList with
    | nil => exact absurd (String.toList_eq_nil_iff.1 hcs) hx
    | cons c cs => exact ⟨_, rfl⟩
  show (ofExcept (Tree.text x).head >>= fun c =>
    if c.isText "range" then rangeLoop unwatched run n target (.text x) body
    else evaluate (.text x) >>= itemLoop unwatched run n target (.text x) body) m = _
  rw [hc]
  show (if c.isText "range" then _ else (_ : Exec Bool)) m = _
  rw [Tree.isText_of_head_text hc (by decide), if_neg Bool.false_ne_true]

/-- A loop that holds no list is one over the values found at its entry. -/
theorem Enters.forLoop_eq_each (h : Enters source m vs none m₀) (target body : Tree) :
    ∃ N, ∀ n, N ≤ n → ∀ run,
      forLoop unwatched run n (.tuple [.text "for", target, source, body]) m =
        (eachLoop unwatched run target body vs >>= fun _ => pure true) m₀ := by
  generalize hheld : none = held at h
  cases h with
  | @range start stop step _ m₁ m₂ _ first last stride a b d hstart ha hstop hb hstep hd hne hpos =>
    refine ⟨(first.counted a b d).length + 1, fun n hn run => ?_⟩
    have hstride : strideOf unwatched step m₂ = .ok stride m₀ := by
      rw [strideOf, if_pos (isTruthy_of_evaluate hstep hd hne hpos)]
      exact hstep
    exact rangeLoop_eq_each hstart ha hstop hb hstride hd hpos hn run
  | @rangeByOne start stop _ m₁ m₂ first last a b hstart ha hstop hb =>
    refine ⟨(first.counted a b 1).length + 1, fun n hn run => ?_⟩
    exact rangeLoop_eq_each hstart ha hstop hb rfl rfl Int.one_pos hn run
  | @items x xs _ _ _ hx hvs =>
    refine ⟨0, fun n _ run => ?_⟩
    show (if x.isText "range" then rangeLoop unwatched run n target (.list (x :: xs)) body
      else (x :: xs).mapM evaluate >>= fun vs =>
        eachLoop unwatched run target body vs >>= fun _ => pure true) m = _
    rw [hx, if_neg Bool.false_ne_true, bind_of_ok hvs]
  | text hx hs =>
    refine ⟨0, fun n _ run => ?_⟩
    rw [forLoop_text hx, bind_of_ok hs, itemLoop]
  | list => cases hheld

/-- A loop that holds a list goes through that list. -/
theorem Enters.forLoop_eq_item {id : Nat} (h : Enters source m vs (some id) m₀)
    (target body : Tree) : ∃ items, vs = items ++ m₀.lists.addedTo id ∧
      ∀ n run, forLoop unwatched run n (.tuple [.text "for", target, source, body]) m =
        itemLoop unwatched run n target source body (.list id items) m₀ := by
  cases h with
  | @list x _ items _ _ hx hlist =>
    refine ⟨items, Lists.contents_eq .., fun n run => ?_⟩
    rw [forLoop_text hx, bind_of_ok hlist]

section Ends

variable {name : Name} {m' : Machine} {held : Option Nat} {j : Nat}
variable (hname : Name.ofTree target = .ok name) (hentry : Enters source m vs held m₀)
include hname hentry

/-- If the values are visited, all or up to a `break`, and the list that the loop holds was not
extended, then that is what the loop does. -/
theorem Visits.ends {b : Bool} (h : Visits name body (vs.take j) m₀ b m')
    (hall : b = true → vs.length ≤ j)
    (hheld : ∀ id ∈ held, b = true → m'.lists.addedTo id = m₀.lists.addedTo id) :
    Ends (.tuple [.text "for", target, source, body]) m true m' := by
  cases held with
  | none =>
    obtain ⟨N, hloop⟩ := hentry.forLoop_eq_each target body
    obtain ⟨N', heach⟩ := h.eachLoop_eq hname hall
    refine ⟨max N N' + 1, ?_⟩
    refine (hloop (max N N') (Nat.le_max_left N N') _).trans ?_
    rw [bind_of_ok (heach (max N N') (Nat.le_max_right N N'))]
    rfl
  | some id =>
    obtain ⟨items, rfl, hloop⟩ := hentry.forLoop_eq_item target body
    obtain ⟨N, hitem⟩ := h.itemLoop hname hall
    obtain ⟨f, hf, hlater⟩ := hitem N (Nat.le_refl N)
    refine ⟨N + 1, (hloop N _).trans (hlater.trans ?_)⟩
    cases b with
    | false => rfl
    | true =>
      -- the loop looks once more for what was added on the way, and there is nothing
      have hnone : (m'.lists.addedTo id)[(m₀.lists.addedTo id).length]? = none := by
        rw [hheld id rfl rfl]
        exact List.getElem?_eq_none (Nat.le_refl _)
      rw [if_pos rfl, ← Nat.sub_add_cancel hf, iterate, bind_of_ok (laterPass_of_none hnone)]
      rfl

/-- If all values are visited, and the list that the loop holds was extended, then the loop goes on
with the new items: when it comes to its end, it has visited the first of them at least, and all of
them unless there was a `break`. -/
theorem Visits.goes_on (h : Visits name body (vs.take j) m₀ true m') (hall : vs.length ≤ j)
    {id : Nat} (hid : id ∈ held) (hgrown : m'.lists.addedTo id ≠ m₀.lists.addedTo id) {c : Bool}
    {m'' : Machine} (hends : Ends (.tuple [.text "for", target, source, body]) m c m'') :
    c = true ∧ ∃ us b, us ≠ [] ∧ Visits name body (vs ++ us) m₀ b m'' ∧
      m₀.lists.addedTo id ++ us <+: m''.lists.addedTo id ∧
      (b = true → m₀.lists.addedTo id ++ us = m''.lists.addedTo id) := by
  cases hid
  obtain ⟨items, rfl, hloop⟩ := hentry.forLoop_eq_item target body
  obtain ⟨N, hitem⟩ := h.itemLoop hname fun _ => hall
  obtain ⟨k, hk⟩ := hends
  obtain ⟨f, -, hlater⟩ := hitem (max N k) (Nat.le_max_left N k)
  have hperform := perform_completes (Nat.le_succ_of_le (Nat.le_max_right N k)) _ _ _ _ hk
  have hrest := hlater.symm.trans ((hloop (max N k) _).symm.trans hperform)
  obtain ⟨hc, us, b, hvisits, hus, hitems, hsome⟩ := visits_of_laterLoop hname hrest
  have hbefore : m₀.lists.addedTo id ++ (m''.lists.addedTo id).drop (m₀.lists.addedTo id).length =
      m''.lists.addedTo id :=
    List.prefix_iff_eq_append.1 ((h.grows id).trans (hvisits.grows id))
  rw [List.take_of_length_le hall] at h
  refine ⟨hc, us, b, hsome ?_, h.append hvisits, ?_, fun hb => ?_⟩
  · exact Nat.lt_of_not_le fun hle => hgrown ((h.grows id).eq_of_length_le hle).symm
  · rw [← hbefore]
    exact (List.prefix_append_right_inj _).2 hus
  · rw [hitems hb, hbefore]

/-- A loop that finds values comes to its end only if its name has a place among those that are
bound. -/
theorem Enters.place_of_ends {c : Bool} {m'' : Machine}
    (hends : Ends (.tuple [.text "for", target, source, body]) m c m'') (hvs : vs ≠ []) :
    Name.findPlace m₀.bindings name = .ok () := by
  obtain ⟨k, hk⟩ := hends
  cases held with
  | none =>
    obtain ⟨N, hloop⟩ := hentry.forLoop_eq_each target body
    have hperform := perform_completes (Nat.le_succ_of_le (Nat.le_max_right N k)) _ _ _ _ hk
    have heach := (hloop (max N k) (Nat.le_max_left N k) _).symm.trans hperform
    obtain ⟨b, mid, hfirst, -⟩ := bind_eq_ok.1 heach
    exact place_of_eachLoop hname hfirst hvs
  | some id =>
    obtain ⟨items, rfl, hloop⟩ := hentry.forLoop_eq_item target body
    have hperform := perform_completes (Nat.le_succ k) _ _ _ _ hk
    have hitem := (hloop k _).symm.trans hperform
    obtain ⟨b, mid, hfirst, hrest⟩ := bind_eq_ok.1 hitem
    cases items with
    | cons v items => exact place_of_eachLoop hname hfirst (List.cons_ne_nil v items)
    | nil =>
      cases hfirst
      obtain ⟨-, us, b, hvisits, -, -, hsome⟩ := visits_of_laterLoop hname hrest
      exact hvisits.place (hsome (List.length_pos_iff.2 hvs))

end Ends
end Exec

open Exec (Enters Visits BlockEnds Ends)

/-- **A loop visits the values that it finds at its entry.**  The block is carried out for each of
them, in order, with the name of the loop bound to the value, and whatever the block does, as long
as it comes to its end, with or without a `break`:

* either all values are visited, or the first `j` of them and there is a `break` at the last one;
* then the loop is at its end, unless it holds a list and all values were visited, but that list was
  extended in the meantime;
* in that case it goes on with the new items of the list.

For that the name needs a place among those that are bound; without one the loop does not come to
its end. -/
theorem for_visits_values {name : Name} {target source body : Tree} {m m₀ : Machine}
    {vs : List Value} {held : Option Nat} (hname : Name.ofTree target = .ok name)
    (hentry : Enters source m vs held m₀)
    (hbody : ∀ j v mid start, Visits name body (vs.take j) m₀ true mid → vs[j]? = some v →
      Exec.bind name v mid = .ok () start → ∃ b m', BlockEnds body start b m') :
    ((vs ≠ [] → Name.findPlace m₀.bindings name = .ok ()) →
      ∃ j b m', Visits name body (vs.take j) m₀ b m' ∧ (b = true → vs.length ≤ j) ∧
        ((∀ id ∈ held, b = true → m'.lists.addedTo id = m₀.lists.addedTo id) →
          Ends (.tuple [.text "for", target, source, body]) m true m') ∧
        (∀ id ∈ held, b = true → m'.lists.addedTo id ≠ m₀.lists.addedTo id →
          ∀ c m'', Ends (.tuple [.text "for", target, source, body]) m c m'' →
            c = true ∧ ∃ us b', us ≠ [] ∧ Visits name body (vs ++ us) m₀ b' m'' ∧
              m₀.lists.addedTo id ++ us <+: m''.lists.addedTo id ∧
              (b' = true → m₀.lists.addedTo id ++ us = m''.lists.addedTo id))) ∧
    (vs ≠ [] → Name.findPlace m₀.bindings name ≠ .ok () →
      ∀ c m'', ¬Ends (.tuple [.text "for", target, source, body]) m c m'') := by
  refine ⟨fun hplace => ?_, fun hvs hnone c m'' hends => ?_⟩
  · obtain ⟨j, b, m', hvisits, hall⟩ := Exec.exists_visits hplace hbody
    refine ⟨j, b, m', hvisits, hall, hvisits.ends hname hentry hall, ?_⟩
    rintro id hid rfl hgrown c m'' hends
    exact hvisits.goes_on hname hentry (hall rfl) hid hgrown hends
  · exact hnone (Enters.place_of_ends hname hentry hends hvs)

namespace Visiting

/-- `n` is 3. -/
def three : Machine :=
  { bindings := Table.empty.insert (.ofText "n") (.int 3) }

/-- `n = v`, `v = 5` -/
def rebinding : Tree :=
  .list [.assign (.text "n") (.text "v"), .assign (.text "v") (.int 5)]

theorem enters_three :
    Enters (.range (.int 1) (.text "n") .none) three [.int 1, .int 2] none
      { three with evaluations := 2 } := by
  have hstart : Exec.evaluate (.int 1) three = .ok (.int 1) { three with evaluations := 1 } := by
    cbv
  have hstop : Exec.evaluate (.text "n") { three with evaluations := 1 } =
      .ok (.int 3) { three with evaluations := 2 } := by cbv
  exact .rangeByOne hstart rfl hstop rfl

theorem rebinding_ends_twice : ∃ start₁ m₁ start₂ m₂,
    Exec.bind (.ofText "v") (.int 1) { three with evaluations := 2 } = .ok () start₁ ∧
    BlockEnds rebinding start₁ true m₁ ∧
    Exec.bind (.ofText "v") (.int 2) m₁ = .ok () start₂ ∧ BlockEnds rebinding start₂ true m₂ :=
  ⟨_, _, _, _, by cbv, ⟨1, by cbv⟩, by cbv, ⟨1, by cbv⟩⟩

theorem rebinding_ends (j : Nat) (v : Value) (mid start : Machine)
    (hpast : Visits (.ofText "v") rebinding ([.int 1, .int 2].take j)
      { three with evaluations := 2 } true mid)
    (hv : [.int 1, .int 2][j]? = some v) (hbind : Exec.bind (.ofText "v") v mid = .ok () start) :
    ∃ b m', BlockEnds rebinding start b m' := by
  obtain ⟨start₁, m₁, start₂, m₂, hbind₁, hends₁, hbind₂, hends₂⟩ := rebinding_ends_twice
  rcases j with - | - | j
  · cases hpast
    cases hv
    cases hbind₁.symm.trans hbind
    exact ⟨_, _, hends₁⟩
  · cases hpast with
    | next hbind' hends' hrest =>
      cases hrest
      cases hbind₁.symm.trans hbind'
      obtain ⟨-, rfl⟩ := hends₁.unique hends'
      cases hv
      cases hbind₂.symm.trans hbind
      exact ⟨_, _, hends₂⟩
  · cases hv

theorem visits_both : ∃ m', Visits (.ofText "v") rebinding [.int 1, .int 2]
    { three with evaluations := 2 } true m' := by
  obtain ⟨_, _, _, m₂, hbind₁, hends₁, hbind₂, hends₂⟩ := rebinding_ends_twice
  exact ⟨m₂, .next hbind₁ hends₁ (.next hbind₂ hends₂ (.done m₂))⟩

/-- `x` is `["a"]`. -/
def single : Machine :=
  { bindings := Table.empty.insert (.ofText "x") (.list 0 [.text (.plain "\"a\"")])
    lists := { next := 1 } }

/-- `print(v)`, and `for i in range(x, ["a", "b"], ["c"]):` `y = i` -/
def extending : Tree :=
  .list [.print [.text "v"],
    .forLoop (.text "i")
      (.range (.text "x") (.list [.text "\"a\"", .text "\"b\""]) (.list [.text "\"c\""]))
      [.assign (.text "y") (.text "i")]]

theorem evaluate_single : ∃ m₀,
    Exec.evaluate (.text "x") single = .ok (.list 0 [.text (.plain "\"a\"")]) m₀ ∧
    m₀.lists.contents 0 [.text (.plain "\"a\"")] = [.text (.plain "\"a\"")] :=
  ⟨_, by cbv, by cbv⟩

theorem perform_extending : ∃ m',
    Exec.perform Exec.unwatched 6 (.tuple [.text "for", .text "v", .text "x", extending]) single =
      .ok true m' ∧
    m'.output = "a\nc\n" :=
  ⟨_, by cbv, by cbv⟩

end Visiting

/-- `for v in range(1, n):` with a block that binds both `n` and `v` to other values: 1 and 2 are
visited all the same. -/
theorem for_visits_values_rebinding : ∃ m₀,
    Enters (.range (.int 1) (.text "n") .none) Visiting.three [.int 1, .int 2] none m₀ ∧
    ∃ m', Visits (.ofText "v") Visiting.rebinding [.int 1, .int 2] m₀ true m' ∧
      Ends (.tuple [.text "for", .text "v", .range (.int 1) (.text "n") .none, Visiting.rebinding])
        Visiting.three true m' := by
  have hname : Name.ofTree (.text "v") = .ok (.ofText "v") := rfl
  have hplace : Name.findPlace Visiting.three.bindings (.ofText "v") = .ok () := by cbv
  obtain ⟨both, hboth⟩ := Visiting.visits_both
  obtain ⟨j, b, m', hvisits, hall, hends, -⟩ :=
    (for_visits_values hname Visiting.enters_three Visiting.rebinding_ends).1 fun _ => hplace
  obtain ⟨-, -, rfl⟩ := hvisits.unique (k := 2) hall hboth fun _ => Nat.le_refl 2
  exact ⟨_, Visiting.enters_three, m', hboth, hends fun _ h => by cases h⟩

/-- A block that extends the list of the loop in its place: "c" is visited, and at the entry there
was only "a".  And a loop whose variable has no place beside one that is no text. -/
theorem for_visits_extension :
    (∃ m₀ m', Enters (.text "x") Visiting.single [.text (.plain "\"a\"")] (some 0) m₀ ∧
      Ends (.tuple [.text "for", .text "v", .text "x", Visiting.extending]) Visiting.single true
        m' ∧
      m'.output = "a\nc\n") ∧
    ∃ m m', Exec.perform Exec.unwatched 1 (.list [.text "assign", .int 5, .int 6]) {} =
        .ok true m ∧
      Exec.perform Exec.unwatched 2 (.forLoop (.text "i") (.list [.int 7]) []) m =
        .error (.unordered "<" "str" "int") m' := by
  constructor
  · obtain ⟨m₀, hx, hcontents⟩ := Visiting.evaluate_single
    obtain ⟨m', hends, hout⟩ := Visiting.perform_extending
    have hentry := Enters.list (by decide) hx
    rw [hcontents] at hentry
    exact ⟨m₀, m', hentry, ⟨6, hends⟩, hout⟩
  · exact ⟨_, _, by cbv, by cbv⟩

end Retrace
