import Retrace.Proofs.Invariant
import Retrace.Proofs.Library
import Retrace.Proofs.Observing

/-!
# Registries along a run

That reading is observing was shown for machines all of whose values conform to a registry.  Every
machine that comes up in a run is one of these, whatever the program is: a new machine is, and each
statement leaves such a machine behind.

While a statement is carried out there are values in hand that stand nowhere in the machine, such as
the items that a loop has still to go over.  They have to conform to the same registry, which grows
with each new list.  So a machine is *sound* with values in hand if there is some registry for all
of them together (`Machine.Sound`).  What a statement does is said for any values in hand: they are
still in hand afterwards, and an evaluation takes one more in hand.

This is what replaces a relation between the registries before and after a step.  With one, each
lemma would have to say that the new registry extends the old one, and whoever uses two of them
would have to put the two extensions together and carry each value along.  Here the registry is
hidden, and the values that matter are listed.  A value may be taken in hand if it stands somewhere
in the machine, such as in a variable, in a history, or among what a list was extended by; it may be
dropped at any time; and it may be put into the machine if it is in hand.

A registry may have entries for numbers that are not in use, and these may be anything.  For some
purposes all entries have to conform, which can always be had by wiping out those that are never
asked for (`Value.tidy`).

A run without a watch is compared with one under a watch that trusts sound machines, as for other
invariants, so that it is known of every moment of a run that the machine is sound and not only of
the ends of statements.

* `Value.tidy`: a registry in which all entries conform to it.
* `Machine.Sound`: the invariant, with what may happen to a machine that has it.
* `Exec.perform_sound`: statements keep it.
* `evaluate_observes`: the result, for all machines of a run.
-/

set_option autoImplicit false

namespace Retrace
namespace Value

/-! ## Tidy registries -/

variable {reg : Nat → List Value} {next : Nat}

open Classical in
/-- A registry without the entries that do not conform to it. -/
noncomputable def tidy (reg : Nat → List Value) (next id : Nat) : List Value :=
  if ConformAll reg next (reg id) then reg id else []

mutual

/-- No value that conforms to a registry needs an entry that does not. -/
theorem Conforms.tidy : ∀ {v : Value}, v.Conforms reg next → v.Conforms (tidy reg next) next
  | .none, _ => trivial
  | .bool _, _ => trivial
  | .int _, _ => trivial
  | .float _, _ => trivial
  | .text _, _ => trivial
  | .list _ _, ⟨hid, hitems, hall⟩ =>
    ⟨hid, (if_pos (hitems ▸ hall)).trans hitems, ConformAll.tidy hall⟩
  | .tuple _, h => ConformAll.tidy h

theorem ConformAll.tidy : ∀ {vs : List Value}, ConformAll reg next vs →
    ConformAll (tidy reg next) next vs
  | [], _ => trivial
  | _ :: _, ⟨hv, hrest⟩ => ⟨Conforms.tidy hv, ConformAll.tidy hrest⟩

end

theorem conformAll_tidy (id : Nat) : ConformAll (tidy reg next) next (tidy reg next id) := by
  by_cases h : ConformAll reg next (reg id)
  · have hid : tidy reg next id = reg id := if_pos h
    rw [hid]
    exact h.tidy
  · have hid : tidy reg next id = [] := if_neg h
    rw [hid]
    trivial

/-! ## How a loop goes on -/

section

variable {l lists : Lists} {u step w : Value}

/-- A loop does not go on with a thunk, neither from one nor by one. -/
theorem ne_thunk_of_advance (h : u.advance l step = .ok (w, lists)) (id : Nat) :
    u ≠ .thunk id ∧ step ≠ .thunk id := by
  refine ⟨?_, ?_⟩
  · rintro rfl
    cases h
  · rintro rfl
    cases u <;> cases h

theorem items?_conform (hl : l.Conform reg next) {vs : List Value} (hu : u.Conforms reg next)
    (h : u.items? l = some vs) : ConformAll reg next vs := by
  cases u with
  | list id xs =>
    cases h
    exact contents_conform hl hu.2.2 id
  | tuple xs =>
    cases h
    exact hu
  | text s =>
    cases h
    rw [conformAll_iff]
    intro v hv
    obtain ⟨c, -, rfl⟩ := List.mem_map.1 hv
    trivial
  | _ => cases h

end

end Value

/-- A list may be extended by what conforms to the registry. -/
theorem Lists.Known.extend {l : Lists} {reg : Nat → List Value} {n id : Nat} {more : List Value}
    (hl : l.Known reg n) (hid : id < n) (hmore : Value.ConformAll reg n more) :
    (l.extend id more).Known reg n where
  made := hl.made
  added other := by
    rw [Lists.addedTo_extend]
    split
    · exact Value.conformAll_append (hl.added id) hmore
    · exact hl.added other
  new other hother := by
    rw [Lists.addedTo_extend, if_neg (by omega)]
    exact hl.new other hother

namespace Machine

variable {m n : Machine} {reg reg' : Nat → List Value} {vs ws : List Value} {v : Value}

/-! ## Values in hand -/

/-- All values of the machine conform to the registry, those in histories and those in hand among
them. -/
structure Registered (m : Machine) (reg : Nat → List Value) (vs : List Value) : Prop
    extends m.Numbered reg where
  recorded : ∀ {name change}, change ∈ m.history.of name → m.Holds reg change.old
  inHand : ∀ v ∈ vs, m.Holds reg v

/-- There is a registry for the machine and the values in hand. -/
def Sound (m : Machine) (vs : List Value) : Prop :=
  ∃ reg, m.Registered reg vs

/-- A new machine holds no values. -/
theorem sound_withEager (clock : Clock) (eager : List String) : (withEager clock eager).Sound [] :=
  ⟨fun _ => [], {
    known := ⟨fun _ _ => trivial, fun _ => trivial, fun _ _ => rfl⟩
    bound := nofun
    worked := nofun
    recorded := nofun
    inHand := nofun }⟩

namespace Sound

/-- The values of a sound machine conform to a registry. -/
theorem numbered (h : m.Sound vs) : ∃ reg, m.Numbered reg := by
  obtain ⟨reg, hr⟩ := h
  exact ⟨reg, hr.toNumbered⟩

/-- Values may be put down. -/
theorem drop (h : m.Sound vs) (hsub : ws ⊆ vs) : m.Sound ws := by
  obtain ⟨reg, hr⟩ := h
  exact ⟨reg, { hr with inHand := fun v hv => hr.inHand v (hsub hv) }⟩

theorem tail (h : m.Sound (v :: vs)) : m.Sound vs :=
  h.drop (List.subset_cons_self v vs)

/-- What is in hand may be taken in hand once more. -/
theorem again (h : m.Sound vs) (hv : v ∈ vs) : m.Sound (v :: vs) :=
  h.drop (List.cons_subset.2 ⟨hv, List.Subset.refl vs⟩)

/-- Values of the machine may be taken in hand. -/
theorem takeAll (h : m.Sound vs) (ws : List Value)
    (hws : ∀ {reg}, m.Registered reg vs → ∀ v ∈ ws, m.Holds reg v) : m.Sound (ws ++ vs) := by
  obtain ⟨reg, hr⟩ := h
  refine ⟨reg, { hr with inHand := fun v hv => ?_ }⟩
  rcases List.mem_append.1 hv with hv | hv
  · exact hws hr v hv
  · exact hr.inHand v hv

/-- A value that stands in the machine may be taken in hand. -/
theorem take (h : m.Sound vs) (hv : ∀ {reg}, m.Registered reg vs → m.Holds reg v) :
    m.Sound (v :: vs) :=
  h.takeAll [v] fun hr _ hmem => by
    rw [List.mem_singleton.1 hmem]
    exact hv hr

theorem take_lookup (h : m.Sound vs) (name : Name) :
    m.Sound ((m.lookup name).getD .none :: vs) := by
  cases hv : m.lookup name with
  | none => exact h.take fun _ => .inl trivial
  | some v => exact h.take fun hr => hr.bound hv

theorem take_added (h : m.Sound vs) {id : Nat} (hv : v ∈ m.lists.addedTo id) :
    m.Sound (v :: vs) :=
  h.take fun hr => .inl (Value.conformAll_iff.1 (hr.known.added id) v hv)

/-- The items that a list in hand was made of may be taken in hand. -/
theorem take_items {id : Nat} {items : List Value} (h : m.Sound (.list id items :: vs)) :
    m.Sound (items ++ vs) := by
  refine (h.takeAll items fun hr u hu => ?_).drop ?_
  · rcases hr.inHand _ (List.mem_cons_self ..) with hlist | ⟨_, -, hthunk⟩
    · exact .inl (Value.conformAll_iff.1 hlist.2.2 u hu)
    · cases hthunk
  · exact List.append_subset.2 ⟨List.subset_append_left .., fun u hu =>
      List.mem_append_right items (List.mem_cons_of_mem _ hu)⟩

end Sound

/-! ## What may happen to a sound machine -/

/-- Names may be bound and changes recorded, as long as the values may stand in the machine. -/
theorem Registered.change (h : m.Registered reg vs) (hheap : n.heap = m.heap)
    (hlists : n.lists = m.lists)
    (hbound : ∀ {name v}, n.lookup name = some v → m.Holds reg v)
    (hrecorded : ∀ {name change}, change ∈ n.history.of name → m.Holds reg change.old) :
    n.Registered reg vs := by
  have hholds {v : Value} (hv : m.Holds reg v) : n.Holds reg v := by
    rwa [Holds, hlists, hheap]
  exact {
    known := hlists ▸ h.known
    bound := fun hv => hholds (hbound hv)
    worked := fun ht => by
      rw [hlists]
      exact h.worked (hheap ▸ ht)
    recorded := fun hc => hholds (hrecorded hc)
    inHand := fun v hv => hholds (h.inHand v hv) }

/-- After values were looked at the registry has the lists that were made meanwhile, and what came
of looking is in hand. -/
theorem Registered.looked (h : m.Registered reg vs) (hn : m.Visited reg' n)
    (hext : Extends reg m reg' n) (hv : v.Conforms reg' n.lists.next) : n.Sound (v :: vs) := by
  have hholds {u : Value} (hu : m.Holds reg u) : n.Holds (Value.tidy reg' n.lists.next) u := by
    rcases hu with hu | ⟨id, hid, rfl⟩
    · exact .inl (hext.conforms hu).tidy
    · exact .inr ⟨id, hn.looks.heapSize.symm ▸ hid, rfl⟩
  have hadded (id : Nat) : n.lists.addedTo id = m.lists.addedTo id := by
    rw [Lists.addedTo, hn.looks.added, Lists.addedTo]
  -- an entry that does not conform belongs to no value that is held, so it may be dropped
  exact ⟨Value.tidy reg' n.lists.next, {
    known := {
      made := fun id _ => Value.conformAll_tidy id
      added := fun id => by
        rw [hadded]
        exact ((h.known.added id).mono hext.same hext.next).tidy
      new := fun id hid => by
        rw [hadded]
        exact h.known.new id (Nat.le_trans hext.next hid) }
    bound := fun hu => by
      rw [hn.looks.lookup] at hu
      exact hholds (h.bound hu)
    worked := fun ht => (hn.worked ht).1.tidy
    recorded := fun hc => by
      rw [hn.looks.history] at hc
      exact hholds (h.recorded hc)
    inHand := fun u hu => by
      rcases List.mem_cons.1 hu with rfl | hu
      · exact .inl hv.tidy
      · exact hholds (h.inHand u hu) }⟩

namespace Sound

/-- The counts, the memory account, the clock and the output do not matter. -/
theorem congr (h : m.Sound vs) (hbindings : n.bindings = m.bindings) (hheap : n.heap = m.heap)
    (hlists : n.lists = m.lists) (hhistory : n.history = m.history) : n.Sound vs := by
  obtain ⟨reg, hr⟩ := h
  refine ⟨reg, hr.change hheap hlists (fun hv => ?_) fun hc => ?_⟩
  · rw [Machine.lookup, hbindings] at hv
    exact hr.bound hv
  · rw [hhistory] at hc
    exact hr.recorded hc

/-- What is in hand may be bound to a name. -/
theorem bind (h : m.Sound (v :: vs)) (name : Name) :
    Sound { m with bindings := m.bindings.insert name v } (v :: vs) := by
  obtain ⟨reg, hr⟩ := h
  refine ⟨reg, hr.change rfl rfl (fun {other w} hw => ?_) hr.recorded⟩
  rw [Machine.lookup, Table.get?_insert] at hw
  split at hw
  · cases hw
    exact hr.inHand v (List.mem_cons_self ..)
  · exact hr.bound hw

/-- What is in hand may be remembered. -/
theorem remember (h : m.Sound (v :: vs)) (name : Name) (now : Int) :
    Sound { m with history := m.history.push name v now } (v :: vs) := by
  obtain ⟨reg, hr⟩ := h
  refine ⟨reg, hr.change rfl rfl hr.bound fun {other change} hc => ?_⟩
  rw [History.of_push] at hc
  split at hc
  · rcases List.mem_cons.1 hc with rfl | hc
    · exact hr.inHand v (List.mem_cons_self ..)
    · exact hr.recorded hc
  · exact hr.recorded hc

/-- What a name was last bound to may be taken in hand. -/
theorem take_last (h : m.Sound vs) {name : Name} (hv : (m.history.pop name).1 = some v) :
    m.Sound (v :: vs) := by
  rw [History.pop_fst] at hv
  obtain ⟨last, hlast, rfl⟩ := Option.map_eq_some_iff.1 hv
  exact h.take fun hr => hr.recorded (List.mem_of_mem_head? hlast)

/-- An entry of the history is taken off. -/
theorem pop (h : m.Sound vs) (name : Name) :
    Sound { m with history := (m.history.pop name).2 } vs := by
  obtain ⟨reg, hr⟩ := h
  refine ⟨reg, hr.change rfl rfl hr.bound fun {other change} hc => ?_⟩
  rw [History.of_pop] at hc
  split at hc
  · exact hr.recorded (List.mem_of_mem_tail hc)
  · exact hr.recorded hc

theorem prune (h : m.Sound vs) (keep now : Int) :
    Sound { m with history := m.history.prune keep now } vs := by
  obtain ⟨reg, hr⟩ := h
  refine ⟨reg, hr.change rfl rfl hr.bound fun {other change} hc => ?_⟩
  rw [History.of_prune] at hc
  split at hc
  · exact hr.recorded (List.mem_filter.1 hc).1
  · exact hr.recorded hc

/-- A new thunk is in hand. -/
theorem suspend (h : m.Sound vs) (e : Tree) :
    Sound { m with heap := m.heap.push { expression := e } } (.thunk m.heap.size :: vs) := by
  obtain ⟨reg, hr⟩ := h
  have hholds {v : Value} (hv : m.Holds reg v) :
      Holds { m with heap := m.heap.push { expression := e } } reg v :=
    hv.mono (fun _ _ => rfl) (Nat.le_refl _) (by simp)
  exact ⟨reg, {
    known := hr.known
    bound := fun hv => hholds (hr.bound hv)
    worked := fun {id e' v} ht => by
      rw [Array.getElem?_push] at ht
      split at ht
      · cases ht
      · exact hr.worked ht
    recorded := fun hc => hholds (hr.recorded hc)
    inHand := fun v hv => by
      rcases List.mem_cons.1 hv with rfl | hv
      · exact .inr ⟨m.heap.size, by simp, rfl⟩
      · exact hholds (hr.inHand v hv) }⟩

/-- The value of an expression comes to hand. -/
theorem evaluate (h : m.Sound vs) {e : Tree} (he : Exec.evaluate e m = .ok v n) :
    n.Sound (v :: vs) := by
  obtain ⟨reg, hr⟩ := h
  obtain ⟨reg', hn, hext, hv, -⟩ := (Exec.evaluate_sees e hr.visited).ok he
  exact hr.looked hn hext hv

/-- The value of a thunk in hand comes to hand in its place, and any other value is its own. -/
theorem resolve {u : Value} (h : m.Sound (u :: vs))
    (hu : Exec.resolve Exec.force u m = .ok v n) : n.Sound (v :: vs) := by
  cases u with
  | thunk id =>
    obtain ⟨reg, hr⟩ := h
    rcases hr.inHand _ (List.mem_cons_self ..) with hfalse | ⟨_, hid, hsame⟩
    · exact hfalse.elim
    · cases hsame
      have hsees := Exec.forceWithin_sees m.heap.size id hid reg m hr.visited
      obtain ⟨reg', hn, hext, hv, -⟩ := hsees.ok hu
      exact (hr.looked hn hext hv).drop (List.cons_subset_cons v (List.subset_cons_self _ vs))
  | _ =>
    cases hu
    exact h

/-- What a name comes to is in hand. -/
theorem valueOfName (h : m.Sound vs) {name : Name} (hv : Exec.valueOfName name m = .ok v n) :
    n.Sound (v :: vs) := by
  rw [Exec.valueOfName, Exec.bind_of_ok (Exec.get_apply m)] at hv
  cases hname : m.lookup name with
  | none =>
    rw [hname] at hv
    cases hv
    exact h.take fun _ => .inl trivial
  | some u =>
    rw [hname] at hv
    exact (h.take fun hr => hr.bound hname).resolve hv

/-- What a counter goes on with is no new list. -/
theorem take_successor (h : m.Sound (v :: vs)) {w : Value}
    (hw : v.add m.lists m.lists.next (.int 1) = .ok w) : m.Sound (w :: vs) := by
  refine (h.take fun hr => ?_).drop (List.cons_subset_cons w (List.subset_cons_self v vs))
  rcases hr.inHand v (List.mem_cons_self ..) with hv | ⟨id, -, rfl⟩
  · exact .inl (Value.add_conforms (v := .int 1) hv trivial (fun _ _ _ _ _ h => by cases h) hw)
  · cases hw

/-- A loop goes on with its own list, which was extended, or with a sum that is no new list. -/
theorem advance (h : m.Sound vs) {stride w : Value} {lists : Lists} (hv : v ∈ vs)
    (hstride : stride ∈ vs) (hadvance : v.advance m.lists stride = .ok (w, lists)) :
    Sound { m with lists } (w :: vs) := by
  obtain ⟨reg, hr⟩ := h
  have hconforms {u : Value} (hu : u ∈ vs) (hne : ∀ id, u ≠ .thunk id) :
      u.Conforms reg m.lists.next := by
    rcases hr.inHand u hu with hu | ⟨id, -, hid⟩
    · exact hu
    · exact absurd hid (hne id)
  have hv' := hconforms hv fun id => (Value.ne_thunk_of_advance hadvance id).1
  have hs' := hconforms hstride fun id => (Value.ne_thunk_of_advance hadvance id).2
  by_cases hlist : ∃ id us, v = .list id us
  · obtain ⟨id, us, rfl⟩ := hlist
    cases hitems : stride.items? m.lists with
    | none =>
      rw [Value.advance, hitems] at hadvance
      cases hadvance
    | some more =>
      rw [Value.advance, hitems] at hadvance
      cases hadvance
      have hmore := Value.items?_conform hr.known.added hs' hitems
      refine ⟨reg, { hr with known := hr.known.extend hv'.1 hmore, inHand := fun u hu => ?_ }⟩
      rcases List.mem_cons.1 hu with rfl | hu
      · exact .inl hv'
      · exact hr.inHand u hu
  · obtain ⟨rfl, hadd⟩ := Value.add_of_advance (fun i us h => hlist ⟨i, us, h⟩) hadvance
    refine ⟨reg, { hr with inHand := fun u hu => ?_ }⟩
    rcases List.mem_cons.1 hu with rfl | hu
    · exact .inl (Value.add_conforms hv' hs' (fun i us _ _ h _ => hlist ⟨i, us, h⟩) hadd)
    · exact hr.inHand u hu

end Sound
end Machine

namespace Exec

variable {α : Type} {m : Machine} {vs : List Value} {v : Value}

/-! ## Looking -/

section

variable (hm : m.Sound vs)
include hm

theorem shown_sound (v : Value) : Matches m (shown v) (shown v) fun _ n => n.Sound vs :=
  matches_bind_of_ok (view_apply v m) (matches_ofExcept_bind fun _ _ => matches_pure hm)

theorem printed_sound (v : Value) : Matches m (printed v) (printed v) fun _ n => n.Sound vs := by
  cases v with
  | text s => exact matches_pure hm
  | _ => exact shown_sound hm _

theorem isLess_sound (u v : Value) :
    Matches m (isLess u v) (isLess u v) fun _ n => n.Sound vs := by
  refine matches_bind_of_ok (view_apply u m) (matches_bind_of_ok (view_apply v m) ?_)
  refine matches_refl fun h => ?_
  obtain ⟨-, rfl⟩ := ofExcept_eq_ok.1 h
  exact hm

/-! ## Single changes -/

theorem put_sound (writer : Writer) (s : String) :
    Matches m (put writer s) (put writer s) fun _ n => n.Sound vs :=
  matches_refl fun h => by
    cases h
    exact hm.congr rfl rfl rfl rfl

theorem charge_sound (v : Value) : Matches m (charge v) (charge v) fun _ n => n.Sound vs :=
  matches_refl fun h => by
    obtain ⟨memory, rfl⟩ := Invariant.charge_eq_ok h
    exact hm.congr rfl rfl rfl rfl

theorem credit_sound (v : Value) : Matches m (credit v) (credit v) fun _ n => n.Sound vs :=
  matches_refl fun h => by
    cases h
    exact hm.congr rfl rfl rfl rfl

theorem wordFor_sound (name : Name) (result : Int) :
    Matches m (wordFor name result) (wordFor name result) fun v n => n.Sound (v :: vs) := by
  refine matches_bind_of_ok (get_apply m) (matches_ite (fun _ => ?_) fun _ => ?_)
  · exact matches_pure (hm.take fun _ => .inl trivial)
  · refine matches_refl fun h => ?_
    cases h
    exact hm.suspend _

theorem prune_sound : Matches m prune prune fun _ n => n.Sound vs := by
  refine matches_bind_of_ok rfl (matches_bind_of_ok (modify_apply _ _) ?_)
  refine matches_bind_of_ok (get_apply _) ?_
  have hpruned : Machine.Sound { m with
      clock := m.clock.read.2
      history := m.history.prune History.retention m.clock.read.1 } vs :=
    (hm.prune _ _).congr rfl rfl rfl rfl
  exact matches_ite (fun _ => put_sound hpruned _ _) fun _ => matches_pure hpruned

end

theorem remember_sound (name : Name) (hm : m.Sound (v :: vs)) :
    Matches m (remember name v) (remember name v) fun _ n => n.Sound (v :: vs) := by
  refine matches_refl fun h => ?_
  rw [remember_apply] at h
  cases h
  exact (hm.remember name _).congr rfl rfl rfl rfl

/-! ## Statements without blocks -/

/-- The watch has nothing to object to as long as the machine is sound. -/
def Trusts (watch : Watch) : Prop :=
  ∀ event {m : Machine}, m.Sound [] → watch event m = .ok () m

section Watch

variable {watch : Watch} (hw : Trusts watch)
include hw

/-- An event is let through on a sound machine. -/
theorem told_sound (event : Event) {x y : Exec α} {Q : α → Machine → Prop} (hm : m.Sound vs)
    (hxy : Matches m x y Q) :
    Matches m (watch event >>= fun _ => x) (unwatched event >>= fun _ => y) Q := by
  have hwatch := hw event (hm.drop (List.nil_subset vs))
  refine ⟨?_, hxy.ok⟩
  rw [bind_of_ok hwatch]
  exact hxy.same

/-- An evaluation takes its value in hand. -/
theorem evaluate_sound (e : Tree) (hm : m.Sound vs) :
    Matches m (evaluateWatched watch e) (evaluateWatched unwatched e)
      fun v n => n.Sound (v :: vs) :=
  told_sound hw _ hm (matches_refl hm.evaluate)

/-- A value in hand is bound, and put down. -/
theorem bind_sound (name : Name) (hm : m.Sound (v :: vs)) :
    Matches m (bindWatched watch name v) (bindWatched unwatched name v)
      fun _ n => n.Sound vs := by
  refine told_sound hw _ hm (matches_refl fun h => ?_)
  obtain ⟨-, rfl⟩ := bindName_eq_ok.1 h
  exact (hm.bind name).tail

theorem replace_sound (name : Name) (hm : m.Sound (v :: vs)) :
    Matches m (replace watch name v) (replace unwatched name v) fun _ n => n.Sound vs := by
  have hold := hm.take_lookup name
  refine matches_bind_of_ok (get_apply m) ?_
  generalize (m.lookup name).getD .none = old at hold ⊢
  have last {n : Machine} (hn : n.Sound (old :: v :: vs)) :
      Matches n (do remember name old; bindWatched watch name v)
        (do remember name old; bindWatched unwatched name v) fun _ n => n.Sound vs :=
    matches_bind (remember_sound name hn) fun _ k hk => bind_sound hw name hk.tail
  refine matches_bind (charge_sound hold v) fun _ n hn => ?_
  refine matches_ite (fun _ => ?_) fun _ => last hn
  exact matches_bind (credit_sound hn old) fun _ k hk => last hk

theorem valueFor_sound (name : Name) (e : Tree) (hm : m.Sound vs) :
    Matches m (valueFor watch name e) (valueFor unwatched name e)
      fun v n => n.Sound (v :: vs) := by
  refine matches_bind_of_ok (get_apply m) (matches_ite (fun _ => ?_) fun _ => ?_)
  · exact evaluate_sound hw e hm
  · refine matches_refl fun h => ?_
    cases h
    exact hm.suspend e

/-- The value that is assigned is taken in hand, recorded over, and put down. -/
theorem assign_sound (t : Tree) (hm : m.Sound vs) :
    Matches m (assign watch t) (assign unwatched t) fun _ n => n.Sound vs := by
  refine matches_bind_of_ok (countAssignment_apply m) ?_
  refine matches_ofExcept_bind fun parts _ => matches_ofExcept_bind fun name _ => ?_
  have hcounted : Machine.Sound { m with assignments := m.assignments + 1 } vs :=
    hm.congr rfl rfl rfl rfl
  exact matches_bind (valueFor_sound hw name _ hcounted) fun v n hn => replace_sound hw name hn

theorem compound_sound (op : Compound) (t : Tree) (hm : m.Sound vs) :
    Matches m (compound watch op t) (compound unwatched op t) fun _ n => n.Sound vs := by
  refine matches_ofExcept_bind fun parts _ => matches_ofExcept_bind fun name _ => ?_
  refine matches_bind (matches_refl hm.valueOfName) fun current n hn => ?_
  refine matches_bind (evaluate_sound hw _ hn) fun v n hn => ?_
  refine matches_bind (matches_refl hn.resolve) fun operand n hn => ?_
  refine matches_bind (remember_sound name hn.tail) fun _ n hn => ?_
  cases current.whole? with
  | none => exact matches_throw
  | some a =>
    cases operand.whole? with
    | none => exact matches_throw
    | some b =>
      refine matches_bind (wordFor_sound hn.tail name _) fun new k hk => ?_
      exact bind_sound hw name hk

/-- What a reversal puts back was recorded. -/
theorem reverse_sound (t : Tree) (hm : m.Sound vs) :
    Matches m (reverse watch t) (reverse unwatched t) fun _ n => n.Sound vs := by
  refine matches_bind_of_ok (countReversal_apply m) ?_
  refine matches_ofExcept_bind fun parts _ => matches_ofExcept_bind fun name _ => ?_
  have hcounted : Machine.Sound { m with reversals := m.reversals + 1 } vs :=
    hm.congr rfl rfl rfl rfl
  refine matches_bind_of_ok (takeBack_apply name _) ?_
  cases hold : (m.history.pop name).1 with
  | none => exact matches_pure (hcounted.pop name)
  | some old =>
    have hback := (hcounted.take_last hold).pop name
    refine matches_ite (fun _ => ?_) fun _ => matches_pure hback.tail
    refine matches_bind (bind_sound hw name hback) fun _ n hn => ?_
    exact matches_bind (credit_sound hn old) fun _ k hk => charge_sound hk old

theorem revtrace_sound (t : Tree) (hm : m.Sound vs) :
    Matches m (revtrace watch t) (revtrace unwatched t) fun _ n => n.Sound vs := by
  refine matches_ofExcept_bind fun parts _ => ?_
  refine matches_bind (evaluate_sound hw _ hm) fun position n hn => ?_
  refine matches_ofExcept_bind fun name _ => matches_bind_of_ok (get_apply n) ?_
  refine matches_bind_of_ok (view_apply position n) (matches_ofExcept_bind fun old _ => ?_)
  cases old.filter fun v => !v.isNone with
  | none => exact matches_bind (shown_sound hn.tail _) fun _ k hk => put_sound hk _ _
  | some v =>
    refine matches_bind (shown_sound hn.tail _) fun _ k hk => ?_
    exact matches_bind (shown_sound hk _) fun _ k hk => put_sound hk _ _

theorem printedAll_sound (es : List Tree) (hm : m.Sound vs) :
    Matches m (printedAll watch es) (printedAll unwatched es) fun _ n => n.Sound vs := by
  induction es generalizing m with
  | nil => exact matches_pure hm
  | cons e rest ih =>
    refine matches_bind (evaluate_sound hw e hm) fun v n hn => ?_
    refine matches_bind (printed_sound hn.tail v) fun _ k hk => ?_
    exact matches_bind (ih hk) fun _ k hk => matches_pure hk

theorem print_sound (t : Tree) (hm : m.Sound vs) :
    Matches m (print watch t) (print unwatched t) fun _ n => n.Sound vs := by
  refine matches_ofExcept_bind fun parts _ => matches_ofExcept_bind fun es _ => ?_
  exact matches_bind (printedAll_sound hw es hm) fun _ n hn => put_sound hn _ _

/-! ## Parts of loops -/

theorem increment_sound (counter : Tree) (hm : m.Sound vs) :
    Matches m (increment watch counter) (increment unwatched counter) fun _ n => n.Sound vs := by
  refine matches_ofExcept_bind fun name _ => matches_bind_of_ok (get_apply m) ?_
  refine matches_bind_of_ok (view_apply _ m) ?_
  refine matches_bind (evaluate_sound hw _ hm) fun v n hn => ?_
  refine matches_bind_of_ok (get_apply n) (matches_ofExcept_bind fun w hadd => ?_)
  exact bind_sound hw name (hn.take_successor hadd)

/-- What a loop goes on with is in hand. -/
theorem advance_sound {stride : Value} (hm : m.Sound vs) (hv : v ∈ vs) (hstride : stride ∈ vs) :
    Matches m (advance watch v stride) (advance unwatched v stride)
      fun w n => n.Sound (w :: vs) := by
  have hextension : Matches m (watchExtension watch v) (watchExtension unwatched v)
      fun _ n => n = m := by
    cases v with
    | list id _ =>
      refine ⟨hw _ (hm.drop (List.nil_subset vs)), fun h => ?_⟩
      cases h
      rfl
    | _ => exact matches_pure rfl
  refine matches_bind hextension ?_
  rintro _ _ rfl
  refine matches_bind_of_ok (get_apply _) (matches_ofExcept_bind fun parts hadvance => ?_)
  obtain ⟨w, lists⟩ := parts
  refine matches_bind_of_ok (modify_apply _ _) (matches_pure ?_)
  exact hm.advance hv hstride hadvance

theorem strideOf_sound (step : Tree) (hm : m.Sound vs) :
    Matches m (strideOf watch step) (strideOf unwatched step) fun v n => n.Sound (v :: vs) :=
  matches_ite (fun _ => evaluate_sound hw step hm) fun _ =>
    matches_pure (hm.take fun _ => .inl trivial)

theorem chooseElif_sound (no : Tree) (elifs : List Tree) (hm : m.Sound vs) :
    Matches m (chooseElif watch no elifs) (chooseElif unwatched no elifs)
      fun _ n => n.Sound vs := by
  induction elifs generalizing m with
  | nil => exact matches_pure hm
  | cons x rest ih =>
    refine matches_ofExcept_bind fun parts _ => ?_
    refine matches_bind (evaluate_sound hw _ hm) fun v n hn => ?_
    refine matches_bind_of_ok (isTruthy_apply v n) ?_
    exact matches_ite (fun _ => matches_pure hn.tail) fun _ => ih hn.tail

/-- The values of expressions come to hand one after the other. -/
theorem evaluateAll_sound (es : List Tree) (hm : m.Sound vs) :
    Matches m (es.mapM (evaluateWatched watch)) (es.mapM (evaluateWatched unwatched))
      fun us n => n.Sound (us ++ vs) := by
  induction es generalizing m vs with
  | nil => exact matches_pure hm
  | cons e rest ih =>
    rw [List.mapM_cons, List.mapM_cons]
    refine matches_bind (evaluate_sound hw e hm) fun v n hn => ?_
    refine matches_bind (ih hn) fun us k hk => matches_pure ?_
    exact hk.drop List.perm_middle.symm.subset

/-! ## Blocks and loops -/

/-- Statements that are carried out in either way have the same outcome on a sound machine, and
leave it sound with the same values in hand. -/
def KeepsSound (run run' : Tree → Exec Bool) : Prop :=
  ∀ t {m : Machine} {vs : List Value}, m.Sound vs →
    Matches m (run t) (run' t) fun _ n => n.Sound vs

section Blocks

variable {run run' : Tree → Exec Bool} (hrun : KeepsSound run run')
include hrun

omit hw in
theorem block_sound (body : Tree) (hm : m.Sound vs) :
    Matches m (block run body) (block run' body) fun _ n => n.Sound vs :=
  matches_ofExcept_bind fun _ _ => matches_inOrder (fun t _ _ hm => hrun t hm) hm

theorem branch_sound (t : Tree) (hm : m.Sound vs) :
    Matches m (branch watch run t) (branch unwatched run' t) fun _ n => n.Sound vs := by
  refine matches_ofExcept_bind fun parts _ => ?_
  refine matches_bind (evaluate_sound hw _ hm) fun v n hn => ?_
  refine matches_bind_of_ok (isTruthy_apply v n) (matches_ite (fun _ => ?_) fun _ => ?_)
  · exact block_sound hrun _ hn.tail
  · refine matches_ofExcept_bind fun elifs _ => ?_
    refine matches_bind (chooseElif_sound hw _ elifs hn.tail) fun chosen k hk => ?_
    exact block_sound hrun chosen hk

theorem plainLoop_sound (n : Nat) (condition body : Tree) (hm : m.Sound vs) :
    Matches m (plainLoop watch run n condition body) (plainLoop unwatched run' n condition body)
      fun _ n => n.Sound vs := by
  refine matches_iterate (fun m _ hm => ?_) n () hm
  refine matches_bind (evaluate_sound hw condition hm) fun v k hk => ?_
  refine matches_bind_of_ok (isTruthy_apply v k) (matches_ite (fun _ => ?_) fun _ => ?_)
  · exact matches_bind (block_sound hrun body hk.tail) fun _ j hj => matches_pure hj
  · exact matches_pure hk.tail

theorem countingLoop_sound (n : Nat) (counter stop body : Tree) (hm : m.Sound vs) :
    Matches m (countingLoop watch run n counter stop body)
      (countingLoop unwatched run' n counter stop body) fun _ n => n.Sound vs := by
  refine matches_bind (evaluate_sound hw stop hm) fun last k hk => ?_
  refine matches_iterate (fun m _ hm => ?_) n () hk.tail
  refine matches_bind (evaluate_sound hw counter hm) fun v k hk => ?_
  refine matches_bind (isLess_sound hk.tail v last) fun b k hk => ?_
  refine matches_ite (fun _ => ?_) fun _ => matches_pure hk
  refine matches_bind (block_sound hrun body hk) fun b k hk => ?_
  refine matches_ite (fun _ => ?_) fun _ => matches_pure hk
  exact matches_bind (increment_sound hw counter hk) fun _ j hj => matches_pure hj

theorem whileLoop_sound (n : Nat) (t : Tree) (hm : m.Sound vs) :
    Matches m (whileLoop watch run n t) (whileLoop unwatched run' n t) fun _ n => n.Sound vs := by
  refine matches_ofExcept_bind fun parts _ => ?_
  obtain ⟨_, condition, body⟩ := parts
  dsimp only
  split
  · exact matches_ite (fun _ => countingLoop_sound hw hrun n _ _ body hm) fun _ =>
      plainLoop_sound hw hrun n _ body hm
  · exact plainLoop_sound hw hrun n condition body hm

theorem forPass_sound (target body : Tree) (hm : m.Sound (v :: vs)) :
    Matches m (forPass watch run target body v) (forPass unwatched run' target body v)
      fun _ n => n.Sound vs := by
  refine matches_ofExcept_bind fun name _ => ?_
  exact matches_bind (bind_sound hw name hm) fun _ n hn => block_sound hrun body hn

/-- The value that a loop over numbers goes on with and the step are in hand all the time. -/
theorem rangeLoop_sound (n : Nat) (target range body : Tree) (hm : m.Sound vs) :
    Matches m (rangeLoop watch run n target range body)
      (rangeLoop unwatched run' n target range body) fun _ n => n.Sound vs := by
  refine matches_ofExcept_bind fun parts _ => ?_
  refine matches_bind (evaluate_sound hw _ hm) fun first k hk => ?_
  refine matches_bind (evaluate_sound hw _ hk) fun last k hk => ?_
  have hfirst := hk.tail
  refine matches_bind (strideOf_sound hw _ hfirst) fun stride k hk => ?_
  refine matches_iterate_carrying (I := fun v m => m.Sound (v :: stride :: vs))
    (J := fun m => m.Sound vs) (fun m v hm => ?_) n first (hk.drop ?_)
  · refine matches_bind (isLess_sound hm v last) fun b k hk => ?_
    refine matches_ite (fun _ => ?_) fun _ => matches_pure hk.tail.tail
    have hagain := hk.again (List.mem_cons_self ..)
    refine matches_bind (forPass_sound hw hrun target body hagain) fun b k hk => ?_
    refine matches_ite (fun _ => ?_) fun _ => matches_pure hk.tail.tail
    have hadvance := advance_sound hw hk (List.mem_cons_self ..)
      (List.mem_cons_of_mem v (List.mem_cons_self ..))
    refine matches_bind hadvance fun w j hj => matches_pure ?_
    exact hj.drop (List.cons_subset_cons w (List.subset_cons_self v _))
  · exact (List.Perm.swap ..).subset

/-- The values that a loop has still to go over are in hand. -/
theorem eachLoop_sound (target body : Tree) {us : List Value} (hm : m.Sound (us ++ vs)) :
    Matches m (eachLoop watch run target body us) (eachLoop unwatched run' target body us)
      fun _ n => n.Sound vs := by
  induction us generalizing m with
  | nil => exact matches_pure hm
  | cons u rest ih =>
    refine matches_bind (forPass_sound hw hrun target body hm) fun b n hn => ?_
    refine matches_ite (fun _ => ih hn) fun _ => matches_pure ?_
    exact hn.drop (List.subset_append_right rest vs)

theorem laterLoop_sound (n id : Nat) (target body : Tree) (hm : m.Sound vs) :
    Matches m (laterLoop watch run n target body id) (laterLoop unwatched run' n target body id)
      fun _ n => n.Sound vs := by
  refine matches_iterate (fun m k hm => ?_) n 0 hm
  refine matches_bind_of_ok (get_apply m) ?_
  cases hv : (m.lists.addedTo id)[k]? with
  | none => exact matches_pure hm
  | some v =>
    have hadded := hm.take_added (List.mem_of_getElem? hv)
    exact matches_bind (forPass_sound hw hrun target body hadded) fun _ j hj => matches_pure hj

/-- The items of a list in hand are taken in hand. -/
theorem itemLoop_sound (n : Nat) (target source body : Tree) (hm : m.Sound (v :: vs)) :
    Matches m (itemLoop watch run n target source body v)
      (itemLoop unwatched run' n target source body v) fun _ n => n.Sound vs := by
  cases v with
  | list id items =>
    refine matches_bind (eachLoop_sound hw hrun target body hm.take_items) fun b k hk => ?_
    exact matches_ite (fun _ => laterLoop_sound hw hrun n id target body hk) fun _ =>
      matches_pure hk
  | text s =>
    have hletters : m.Sound (s.letters.map .text ++ vs) := by
      refine hm.tail.takeAll _ fun _ u hu => ?_
      obtain ⟨c, -, rfl⟩ := List.mem_map.1 hu
      exact .inl trivial
    exact matches_bind (eachLoop_sound hw hrun target body hletters) fun _ k hk => matches_pure hk
  | _ => exact matches_throw

theorem forLoop_sound (n : Nat) (t : Tree) (hm : m.Sound vs) :
    Matches m (forLoop watch run n t) (forLoop unwatched run' n t) fun _ n => n.Sound vs := by
  refine matches_ofExcept_bind fun parts _ => ?_
  obtain ⟨_, target, source, body⟩ := parts
  refine matches_ofExcept_bind fun first _ => ?_
  refine matches_ite (fun _ => rangeLoop_sound hw hrun n target source body hm) fun _ => ?_
  split
  · refine matches_bind (evaluateAll_sound hw _ hm) fun us k hk => ?_
    exact matches_bind (eachLoop_sound hw hrun target body hk) fun _ j hj => matches_pure hj
  · refine matches_bind (evaluate_sound hw _ hm) fun v k hk => ?_
    exact itemLoop_sound hw hrun n target _ body hk

/-- One statement leaves a machine sound if those inside of it do. -/
theorem statement_sound (n : Nat) (t : Tree) (hm : m.Sound vs) :
    Matches m (statement watch run n t) (statement unwatched run' n t) fun _ n => n.Sound vs := by
  have simple {x y : Exec Unit} (hxy : Matches m x y fun _ n => n.Sound vs) :
      Matches m (simply x) (simply y) fun _ n => n.Sound vs :=
    matches_bind hxy fun _ n hn => matches_pure hn
  refine matches_ofExcept_bind fun tag _ => ?_
  split
  · exact simple (assign_sound hw t hm)
  · exact simple (compound_sound hw _ t hm)
  · exact simple (reverse_sound hw t hm)
  · exact simple (revtrace_sound hw t hm)
  · exact branch_sound hw hrun t hm
  · exact forLoop_sound hw hrun n t hm
  · exact whileLoop_sound hw hrun n t hm
  · exact simple (print_sound hw t hm)
  · exact matches_pure hm
  · exact matches_throw

end Blocks

/-- **Every statement leaves a sound machine sound.** -/
theorem perform_sound : ∀ n, KeepsSound (perform watch n) (perform unwatched n)
  | 0 => fun _ _ _ _ => matches_throw
  | n + 1 => fun t _ _ hm => statement_sound hw (perform_sound n) n t hm

end Watch
end Exec

/-! ## Runs -/

namespace Run

variable {m : Machine}

theorem topLevel_sound {watch : Exec.Watch} (hw : Exec.Trusts watch) (n : Nat) (t : Tree)
    (hm : m.Sound []) :
    Exec.Matches m (topLevel watch n t) (topLevel Exec.unwatched n t) fun _ k => k.Sound [] := by
  have hcarried : Exec.Matches m (Exec.carryOutWatched watch n t)
      (Exec.carryOutWatched Exec.unwatched n t) fun _ k => k.Sound [] := by
    refine Exec.matches_bind (Exec.perform_sound hw n t hm) fun b k hk => ?_
    exact Exec.matches_ite (fun _ => Exec.matches_throw) fun _ => Exec.matches_pure hk
  exact Exec.matches_bind hcarried fun _ k hk => Exec.prune_sound hk

/-- A program goes under a watch that trusts sound machines as it goes without one, and leaves a
sound machine after each of its statements. -/
theorem statements_sound {watch : Exec.Watch} (hw : Exec.Trusts watch) (n : Nat)
    (program : List Tree) (hm : m.Sound []) :
    statementsWatched watch n program m = statements n program m ∧
      ∀ k ∈ (statements n program m).1, k.Sound [] := by
  induction program generalizing m with
  | nil => exact ⟨rfl, List.forall_mem_nil _⟩
  | cons t rest ih =>
    have htop := topLevel_sound hw n t hm
    rw [statements, statementsWatched, statementsWatched, htop.same]
    cases hend : topLevel Exec.unwatched n t m with
    | error e k => exact ⟨rfl, List.forall_mem_nil _⟩
    | ok _ k =>
      have hk := htop.ok hend
      obtain ⟨hsame, hsteps⟩ := ih hk
      refine ⟨?_, fun j hj => ?_⟩
      · dsimp only
        rw [hsame, statements]
      · rcases List.mem_cons.1 hj with rfl | hj
        · exact hk
        · exact hsteps j hj

/-- **There is a registry whenever something happens in a run.** -/
theorem everywhere_numbered (n : Nat) (program : List Tree) (hm : m.Sound []) :
    Everywhere (fun m => ∃ reg, m.Numbered reg) n program m := by
  classical
  have hguard : Exec.Trusts (Exec.guarded fun _ m => decide (∃ reg, m.Numbered reg)) :=
    fun _ _ hm => Exec.guarded_eq_ok.2 ⟨decide_eq_true hm.numbered, rfl⟩
  exact (statements_sound hguard n program hm).1

end Run

/-- **Reading is observing.**  On a machine whose values conform to a registry, the evaluation of an
expression gives a value or ends in a fault, and either way nothing but the values of thunks, the
count of evaluations and the number for the next list is changed by it; any expression comes to the
same value or to the same fault after it as before it.  All machines of a run are such machines: a
new one is, with any eager names, and from there on there is a registry whenever something happens,
and after each statement. -/
theorem evaluate_observes :
    (∀ clock eager, (Machine.withEager clock eager).Sound []) ∧
    (∀ n program (m : Machine), m.Sound [] →
      Run.Everywhere (fun m => ∃ reg, m.Numbered reg) n program m ∧
      ∀ m' ∈ (Run.statements n program m).1, m'.Sound []) ∧
    ∀ (m : Machine) (reg : Nat → List Value), m.Numbered reg → ∀ first second : Tree,
      m.Looks (Exec.machineAfter (Exec.evaluate first m)) ∧
      Exec.outcomeSince m.lists.next
          (Exec.evaluate second (Exec.machineAfter (Exec.evaluate first m))) =
        Exec.outcomeSince m.lists.next (Exec.evaluate second m) := by
  refine ⟨Machine.sound_withEager, fun n program m hm => ⟨?_, ?_⟩, fun m reg hm first second => ?_⟩
  · exact Run.everywhere_numbered n program hm
  · have hunwatched : Exec.Trusts Exec.unwatched := fun _ _ _ => rfl
    exact (Run.statements_sound hunwatched n program hm).2
  · obtain ⟨reg', hafter⟩ := hm.visited.machineAfter first
    refine ⟨hafter.looks, ?_⟩
    rw [hafter.outcomeSince, hm.visited.outcomeSince]

/-- Two thunks that share a third one, one that depends on itself, and a list that has come to hold
itself. -/
def tangled : Machine where
  bindings := ⟨[(.ofText "a", .list 0 [.int 1]), (.ofText "x", .thunk 0), (.ofText "y", .thunk 1),
    (.ofText "z", .thunk 2), (.ofText "w", .thunk 3)]⟩
  heap := #[
    { expression := .list [.text "a", .int 7] },
    { expression := .tuple [.text "x", .text "plus", .text "z"] },
    { expression := .list [.text "x", .text "x"] },
    { expression := .tuple [.tuple [.text "y", .text "eq", .text "y"], .text "plus", .text "w"] }]
  lists := { next := 1, added := ⟨[(0, [.list 0 [.int 1], .int 2])]⟩ }

/-- `tangled` holds one list, which has grown. -/
theorem tangled_numbered : tangled.Numbered fun _ => [.int 1] where
  known := {
    made := fun _ _ => ⟨trivial, trivial⟩
    added := by
      intro id
      simp only [Lists.addedTo, tangled, Table.get?, Table.find]
      split
      · exact ⟨⟨Nat.one_pos, rfl, trivial, trivial⟩, trivial, trivial⟩
      · trivial
    new := by
      intro id hid
      have hne : ((0 : Nat) == id) = false := beq_false_of_ne (Nat.ne_of_lt hid)
      simp [Lists.addedTo, tangled, Table.get?, Table.find, hne] }
  bound {name v} h := by
    simp only [Machine.lookup, tangled, Table.get?, Table.find] at h
    split_ifs at h <;> cases h
    · exact .inl ⟨Nat.one_pos, rfl, trivial, trivial⟩
    · exact .inr ⟨0, by decide, rfl⟩
    · exact .inr ⟨1, by decide, rfl⟩
    · exact .inr ⟨2, by decide, rfl⟩
    · exact .inr ⟨3, by decide, rfl⟩
  worked {id e v} h := by
    have hwaiting : ∀ t ∈ tangled.heap, t.value? = none := by simp [tangled]
    have hnone := hwaiting _ (Array.mem_of_getElem? h)
    cases hnone

/-- `w` depends on itself; the thunks that are worked out before that shows keep their values, and
nothing else reads differently. -/
theorem evaluate_observes_tangled :
    tangled.Numbered (fun _ => [.int 1]) ∧
    Exec.outcomeSince 1 (Exec.evaluate (.text "w") tangled) = .error .circular ∧
    (Exec.machineAfter (Exec.evaluate (.text "w") tangled)).heap.map (·.value?.isSome) =
      #[true, true, true, false] ∧
    tangled.Looks (Exec.machineAfter (Exec.evaluate (.text "w") tangled)) ∧
    Exec.outcomeSince 1
        (Exec.evaluate (.text "y") (Exec.machineAfter (Exec.evaluate (.text "w") tangled))) =
      Exec.outcomeSince 1 (Exec.evaluate (.text "y") tangled) :=
  ⟨tangled_numbered, by cbv, by cbv,
    evaluate_observes.2.2 tangled _ tangled_numbered (.text "w") (.text "y")⟩

end Retrace
