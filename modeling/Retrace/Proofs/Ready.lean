import Retrace.Proofs.Agreement
import Retrace.Proofs.Calm
import Retrace.Proofs.Scope
import Retrace.Proofs.Strict

/-!
# Strict steps

The invariant of a settled run (`Machine.Ready`) is about a place in the program: the names that are
said to be bound there are bound, all that waiting thunks read is bound as well, and the counters of
the loops around the place are bound to what reads no names when it is taken for an expression.
With the invariant, an evaluation that reads bound names only goes strictly as it goes, and so do
the statements without blocks.

What waiting thunks read is a part of it, since an evaluation may work out any thunk, and the names
in its expression are looked up then and not when it was made.  They were bound when it was made,
because the statement that made it was settled, and names never become unbound.

The counters are another matter.  After a pass of a counting loop, what the counter is bound to is
taken for an expression and evaluated, and one is added to the result.  If the counter were bound to
a text, this expression would read a name, which nobody has checked.  The test of the loop makes
sure that it does not come to this: it compares the counter with a number, and fails at a text.  But
between the test and the step there is the block, which may assign to the counter.  So the invariant
has the counters of all loops around a place, and settled statements may bind them to numbers and
thunks only.  A thunk that is taken for an expression ends in a fault, and reads no name.

To know that what is assigned to a counter is a number, expressions have to be looked at: `isScalar`
is a condition on the text of an expression, and such an expression comes to a number if it comes to
anything.

* `Machine.Ready`: the invariant, with what may happen to a machine that has it.
* `Exec.alone_matches`: a settled statement that changes a variable.
* `Exec.evaluate_isScalar`: expressions that come to numbers.
* `Exec.test_ready`, `Exec.increment_matches`: the test of a counting loop makes sure that its
  counter is a number, and it stays one.
-/

set_option autoImplicit false

namespace Retrace

open Name (within every isOneOf)
open Phrase

theorem Lists.number?_view (l : Lists) (v : Value) : (l.view v).number? = v.number? := by
  cases v <;> rfl

/-- A tree that is not a text has another name than all texts. -/
theorem Name.text_of_ofTree {t : Tree} {name : Name} {x : String} (h : Name.ofTree t = .ok name)
    (hkey : name.key = .text x) : t = .text x := by
  unfold ofTree at h
  split at h
  · cases h
    cases hkey
    rfl
  · split at h
    · cases h
    · cases h
      cases hkey

/-! ## The invariant -/

/-- Is the value a number, a thunk or nothing?  As an expression it reads no names. -/
def Value.isQuiet : Value → Bool
  | .none => true
  | .bool _ => true
  | .int _ => true
  | .float _ => true
  | .thunk _ => true
  | _ => false

theorem Value.isQuiet_of_isNumber {v : Value} (h : v.isNumber = true) : v.isQuiet = true := by
  cases v <;> first | rfl | cases h

/-- The given names are bound, and so are all that waiting thunks read.  The counters are bound to
numbers or thunks, if they are bound. -/
structure Machine.Ready (bound counters : List String) (m : Machine) : Prop where
  supplied : m.Supplied
  bound : ∀ x ∈ bound, (m.lookup (.ofText x)).isSome = true
  texts : ∀ name, (m.lookup name).isSome = true → ∃ x, (name == .ofText x) = true
  quiet : ∀ x ∈ counters, ∀ v, m.lookup (.ofText x) = some v → v.isQuiet = true

namespace Machine.Ready

variable {D K : List String} {m m' : Machine}

theorem mono {D' K' : List String} (h : m.Ready D' K') (hD : D ⊆ D') (hK : K ⊆ K') :
    m.Ready D K where
  supplied := h.supplied
  bound x hx := h.bound x (hD hx)
  texts := h.texts
  quiet x hx := h.quiet x (hK hx)

theorem of_lookup (h : m.Ready D K) (hlookup : ∀ name, m'.lookup name = m.lookup name)
    (hwaiting : ∀ {id : Nat} {e : Tree},
      m'.heap[id]? = some ⟨e, none⟩ → m.heap[id]? = some ⟨e, none⟩) : m'.Ready D K where
  supplied ht name hn := by
    rw [hlookup]
    exact h.supplied (hwaiting ht) name hn
  bound x hx := by
    rw [hlookup]
    exact h.bound x hx
  texts name hn := by
    rw [hlookup] at hn
    exact h.texts name hn
  quiet x hx v hv := by
    rw [hlookup] at hv
    exact h.quiet x hx v hv

/-- Looking at values leaves fewer thunks waiting. -/
theorem looks (h : m.Ready D K) (hl : m.Looks m') : m'.Ready D K :=
  h.of_lookup hl.lookup hl.waiting

/-- Nothing but names and thunks matters. -/
theorem congr (h : m.Ready D K) (hbindings : m'.bindings = m.bindings)
    (hheap : m'.heap = m.heap) : m'.Ready D K := by
  refine h.of_lookup (fun name => ?_) fun ht => ?_
  · rw [lookup, hbindings, lookup]
  · rwa [hheap] at ht

/-- The names that an expression reads are bound. -/
theorem reads (h : m.Ready D K) {names : List Name} (hs : within every D names = true) :
    ∀ name ∈ names, (m.lookup name).isSome = true := by
  intro name hn
  obtain ⟨x, hx, hname⟩ := List.any_eq_true.1 (Name.within_every hs name hn)
  rw [lookup_congr m hname]
  exact h.bound x hx

/-- A thunk may be put off if all that it reads is bound. -/
theorem suspend (h : m.Ready D K) {e : Tree} (he : within every D e.reads = true) :
    Ready D K { m with heap := m.heap.push { expression := e } } where
  supplied := by
    intro id e' ht name hn
    change (m.heap.push { expression := e })[id]? = _ at ht
    rw [Array.getElem?_push] at ht
    split at ht
    · cases ht
      exact h.reads he name hn
    · exact h.supplied ht name hn
  bound := h.bound
  texts := h.texts
  quiet := h.quiet

/-- A name may be bound to anything if it is not a counter. -/
theorem binds (h : m.Ready D K) {x : String} {v : Value}
    (hbindings : m'.bindings = m.bindings.insert (.ofText x) v) (hheap : m'.heap = m.heap)
    (hv : x ∈ K → v.isQuiet = true) : m'.Ready (x :: D) K := by
  have hlookup (name : Name) :
      m'.lookup name = if Name.ofText x == name then some v else m.lookup name := by
    rw [lookup, hbindings, Table.get?_insert]
    rfl
  have hkept {name : Name} (hn : (m.lookup name).isSome = true) :
      (m'.lookup name).isSome = true := by
    rw [hlookup]
    split
    · rfl
    · exact hn
  constructor
  · intro id e ht name hn
    exact hkept (h.supplied (hheap ▸ ht) name hn)
  · intro y hy
    rcases List.mem_cons.1 hy with rfl | hy
    · rw [hlookup, if_pos BEq.rfl]
      rfl
    · exact hkept (h.bound y hy)
  · intro name hn
    rw [hlookup] at hn
    split at hn
    · next hname => exact ⟨x, BEq.symm hname⟩
    · exact h.texts name hn
  · intro y hy w hw
    rw [hlookup] at hw
    split at hw
    · next hxy =>
      cases hw
      have hkey : Name.Key.text x = .text y := eq_of_beq hxy
      cases hkey
      exact hv hy
    · exact h.quiet y hy w hw

end Machine.Ready

/-- In a new machine nothing is bound and nothing waits. -/
theorem Machine.ready_withEager (clock : Clock) (eager : List String) :
    (withEager clock eager).Ready [] [] where
  supplied := nofun
  bound := nofun
  texts := nofun
  quiet := nofun

namespace Exec

variable {α : Type} {m : Machine}

/-! ## Evaluations -/

variable {D K : List String}

/-- The same step, after which nothing has changed but what was looked at. -/
theorem matches_looking {x : Exec α} (hx : Keeps Machine.Looks x) (hm : m.Ready D K) :
    Matches m x x fun _ n => n.Ready D K :=
  matches_refl fun h => hm.looks (hx.ok h)

/-- What reads bound names goes strictly as it goes. -/
theorem evaluate_matches {e : Tree} (hm : m.Ready D K) (he : within every D e.reads = true) :
    Matches m (evaluateWatched strictly e) (evaluateWatched unwatched e) fun _ n => n.Ready D K :=
  ⟨evaluateWatched_strictly hm.supplied (hm.reads he), fun h => hm.looks ((evaluate_looks e).ok h)⟩

theorem resolve_matches (v : Value) (hm : m.Ready D K) :
    Matches m (resolve forceStrictly v) (resolve force v) fun _ n => n.Ready D K where
  same := by
    cases v with
    | thunk id => exact forceStrictly_eq hm.supplied id (looks_refl m)
    | _ => rfl
  ok h := hm.looks ((resolve_looks force_looks v).ok h)

theorem resolve?_matches (v? : Option Value) (hm : m.Ready D K) :
    Matches m (resolve? forceStrictly v?) (resolve? force v?) fun _ n => n.Ready D K := by
  cases v? with
  | none => exact matches_pure hm
  | some v => exact resolve_matches v hm

theorem valueOfName_matches (name : Name) (hm : m.Ready D K) :
    Matches m (valueStrictly name) (valueOfName name) fun _ n => n.Ready D K :=
  matches_bind_of_ok (get_apply m) (resolve?_matches _ hm)

/-! ## Statements without blocks -/

/-- The name is bound from here on. -/
theorem bind_matches {x : String} {v : Value} (hm : m.Ready D K) (hv : x ∈ K → v.isQuiet = true) :
    Matches m (bindWatched strictly (.ofText x) v) (bindWatched unwatched (.ofText x) v)
      fun _ n => n.Ready (x :: D) K where
  same := rfl
  ok h := by
    obtain ⟨-, rfl⟩ := bindWatched_binds silent_unwatched h
    exact hm.binds rfl rfl hv

theorem replace_matches {x : String} {v : Value} (hm : m.Ready D K)
    (hv : x ∈ K → v.isQuiet = true) :
    Matches m (replace strictly (.ofText x) v) (replace unwatched (.ofText x) v)
      fun _ n => n.Ready (x :: D) K where
  same := rfl
  ok h := by
    obtain ⟨hbinds, -⟩ := replace_binds silent_unwatched h
    exact hm.binds hbinds.bindings hbinds.heap hv

theorem wordFor_matches (name : Name) (result : Int) (hm : m.Ready D K) :
    Matches m (wordFor name result) (wordFor name result)
      fun v n => n.Ready D K ∧ v.isQuiet = true := by
  refine matches_refl fun h => ?_
  have hword := wordFor_eq_ok.1 h
  split at hword
  · obtain ⟨rfl, rfl⟩ := hword
    exact ⟨hm, rfl⟩
  · obtain ⟨rfl, rfl⟩ := hword
    exact ⟨hm.suspend rfl, rfl⟩

section

variable {t tag e : Tree} {x : String} (hm : m.Ready D K) (he : within every D e.reads = true)
include hm he

theorem valueFor_matches (name : Name) {P : Value → Prop}
    (hvalue : ∀ {v n}, evaluate e m = .ok v n → P v) (hthunk : ∀ id, P (.thunk id)) :
    Matches m (valueFor strictly name e) (valueFor unwatched name e)
      fun v n => n.Ready D K ∧ P v := by
  refine matches_bind_of_ok (get_apply m) (matches_ite (fun _ => ?_) fun _ => ?_)
  · have heval := evaluate_matches hm he
    exact ⟨heval.same, fun h => ⟨heval.ok h, hvalue h⟩⟩
  · refine matches_refl fun h => ?_
    cases h
    exact ⟨hm.suspend he, hthunk _⟩

/-- An assignment, to a counter only of what comes to a number. -/
theorem assign_matches (ht : t.unpack3 = .ok (tag, .text x, e))
    (hk : x ∈ K → ∀ {m v n}, evaluate e m = .ok v n → v.isQuiet = true) :
    Matches m (assign strictly t) (assign unwatched t) fun _ n => n.Ready (x :: D) K := by
  have hcounted : Machine.Ready D K { m with assignments := m.assignments + 1 } :=
    hm.congr rfl rfl
  refine matches_bind_of_ok (countAssignment_apply m) ?_
  rw [ht]
  refine matches_bind_of_ok rfl (matches_bind_of_ok rfl ?_)
  refine matches_bind (valueFor_matches hcounted he _ (P := fun v => x ∈ K → v.isQuiet = true)
    (fun h hx => hk hx h) fun _ _ => rfl) ?_
  rintro v n ⟨hn, hv⟩
  exact replace_matches hn hv

theorem compound_matches (op : Compound) (ht : t.unpack3 = .ok (tag, .text x, e)) :
    Matches m (compoundStrictly op t) (compound unwatched op t)
      fun _ n => n.Ready (x :: D) K := by
  rw [compoundStrictly, compound, ht]
  refine matches_bind_of_ok rfl (matches_bind_of_ok rfl ?_)
  refine matches_bind (valueOfName_matches _ hm) fun current n hn => ?_
  refine matches_bind (evaluate_matches hn he) fun v n hn => ?_
  refine matches_bind (resolve_matches v hn) fun operand n hn => ?_
  refine matches_bind_of_ok (remember_apply _ current n) ?_
  have hremembered : Machine.Ready D K { n with
      clock := n.clock.read.2
      history := n.history.push (.ofText x) current n.clock.read.1 } := hn.congr rfl rfl
  cases current.whole? with
  | none => exact matches_throw
  | some a =>
    cases operand.whole? with
    | none => exact matches_throw
    | some b =>
      refine matches_bind (wordFor_matches _ _ hremembered) ?_
      rintro new k ⟨hk, hnew⟩
      exact bind_matches hk fun _ => hnew

end

/-- What a reversal puts back is not known, so it must not be a counter. -/
theorem reverse_matches {t tag : Tree} {x : String} (hm : m.Ready D K)
    (ht : t.unpack2 = .ok (tag, .text x)) (hx : x ∉ K) :
    Matches m (reverse strictly t) (reverse unwatched t) fun _ n => n.Ready D K := by
  have hpopped : Machine.Ready D K { m with
      reversals := m.reversals + 1
      history := (m.history.pop (.ofText x)).2 } := hm.congr rfl rfl
  refine matches_bind_of_ok (countReversal_apply m) ?_
  rw [ht]
  refine matches_bind_of_ok rfl (matches_bind_of_ok rfl ?_)
  refine matches_bind_of_ok (takeBack_apply _ _) ?_
  cases (m.history.pop (.ofText x)).1 with
  | none => exact matches_pure hpopped
  | some old =>
    refine matches_ite (fun _ => ?_) fun _ => matches_pure hpopped
    refine matches_bind (bind_matches hpopped fun hx' => absurd hx' hx) fun _ n hn => ?_
    have hback : n.Ready D K := hn.mono (List.subset_cons_self x D) (List.Subset.refl K)
    refine matches_bind_of_ok (credit_apply old n) (matches_refl fun h => ?_)
    rw [charge_apply] at h
    split at h
    · cases h
      exact hback.congr rfl rfl
    · cases h

theorem revtrace_matches {t tag target e : Tree} (hm : m.Ready D K)
    (ht : t.unpack3 = .ok (tag, target, e)) (he : within every D e.reads = true) :
    Matches m (revtrace strictly t) (revtrace unwatched t) fun _ n => n.Ready D K where
  same := by
    rw [revtrace, revtrace, ht]
    refine bind_congr_at rfl fun _ _ h => ?_
    cases h
    exact bind_congr_at (evaluate_matches hm he).same fun _ _ _ => rfl
  ok h := by
    obtain ⟨_, _, _, v, mid, s, ht', hev, rfl⟩ := revtrace_writes h
    rw [ht] at ht'
    cases ht'
    exact ((evaluate_matches hm he).ok hev).congr rfl rfl

theorem printedAll_matches {es : List Tree} (hm : m.Ready D K)
    (hes : ∀ e ∈ es, within every D e.reads = true) :
    Matches m (printedAll strictly es) (printedAll unwatched es) fun _ n => n.Ready D K := by
  induction es generalizing m with
  | nil => exact matches_pure hm
  | cons e rest ih =>
    rw [List.forall_mem_cons] at hes
    refine matches_bind (evaluate_matches hm hes.1) fun v n hn => ?_
    refine matches_bind (matches_looking (printed_looks v) hn) fun s n hn => ?_
    refine matches_bind (ih hn hes.2) fun more n hn => ?_
    exact matches_pure hn

theorem print_matches {t tag : Tree} {es : List Tree} (hm : m.Ready D K)
    (ht : t.unpack2 = .ok (tag, .list es)) (hes : ∀ e ∈ es, within every D e.reads = true) :
    Matches m (print strictly t) (print unwatched t) fun _ n => n.Ready D K := by
  rw [print, print, ht]
  refine matches_bind_of_ok rfl (matches_bind_of_ok rfl ?_)
  refine matches_bind (printedAll_matches hm hes) fun texts n hn => matches_refl fun h => ?_
  cases h
  exact hn.congr rfl rfl

/-! ## Numbers -/

theorem resolve_isNumber {force : Nat → Exec Value} {v w : Value} {n : Machine}
    (h : resolve force v m = .ok w n) (hv : v.isNumber = true) : w.isNumber = true := by
  cases v with
  | thunk id => cases hv
  | _ =>
    cases h
    exact hv

theorem apply_isNumber {op : Op} {u v w : Value} {n : Machine} (h : apply op u v m = .ok w n)
    (huv : op.isNumeric u.isNumber v.isNumber = true) : w.isNumber = true := by
  rcases words_or_values u v with ⟨a, b, ha, hb⟩ | hvalues
  · rw [apply_of_words ha hb] at h
    cases h
    rfl
  · rw [apply_of_values hvalues] at h
    exact Op.onValues_isNumber (ofExcept_eq_ok.1 h).1 huv

theorem operate_isNumber {force : Nat → Exec Value} {op : Op} {u v w : Value} {n : Machine}
    (h : operate force (.text op.tag) u v m = .ok w n)
    (huv : op.isNumeric u.isNumber v.isNumber = true) : w.isNumber = true := by
  obtain ⟨u', mid, hu, h⟩ := bind_eq_ok.1 h
  obtain ⟨v', mid', hv, h⟩ := bind_eq_ok.1 h
  rw [Op.ofTree?_tag] at h
  exact apply_isNumber h (op.isNumeric_mono huv (resolve_isNumber hu) (resolve_isNumber hv))

/-- An expression of numbers comes to a number. -/
theorem evaluateWith_isScalar (force : Nat → Exec Value) : ∀ (e : Expression),
    e.isScalar = true → ∀ {m n : Machine} {v : Value}, evaluateWith force e.tree m = .ok v n →
    v.isNumber = true
  | .literal (.int _), _, _, _, _, h => by
    cases h
    rfl
  | .literal (.bool _), _, _, _, _, h => by
    cases h
    rfl
  | .length e, _, m, _, _, h => by
    change (countEvaluation >>= fun _ => evaluateWith force e.tree >>= lengthOf) m = _ at h
    obtain ⟨_, _, -, hlength⟩ := bind_eq_ok.1 h
    obtain ⟨u, mid, -, hlength⟩ := bind_eq_ok.1 hlength
    cases u with
    | text t =>
      cases hlength
      rfl
    | list id items =>
      cases hlength
      rfl
    | _ => cases hlength
  | .binary left (.known op) right, hs, m, _, _, h => by
    change evaluateWith force (.tuple [left.tree, .text op.tag, right.tree]) m = _ at h
    rw [evaluateWith, bind_of_ok (countEvaluation_apply m)] at h
    obtain ⟨u, mid, hu, h⟩ := bind_eq_ok.1 h
    obtain ⟨v, mid', hv, h⟩ := bind_eq_ok.1 h
    rw [op.isText_tag] at h
    have hleft := fun hl => evaluateWith_isScalar force left hl hu
    have hright := fun hr => evaluateWith_isScalar force right hr hv
    exact operate_isNumber h (op.isNumeric_mono hs hleft hright)
  | .binary left .dot right, _, m, _, _, h => by
    -- no operator has this name
    change evaluateWith force (.tuple [left.tree, .text "dot", right.tree]) m = _ at h
    rw [evaluateWith, bind_of_ok (countEvaluation_apply m)] at h
    obtain ⟨u, mid, -, h⟩ := bind_eq_ok.1 h
    obtain ⟨v, mid', -, h⟩ := bind_eq_ok.1 h
    obtain ⟨u', mid, -, h⟩ := bind_eq_ok.1 h
    obtain ⟨v', mid', -, h⟩ := bind_eq_ok.1 h
    cases h

theorem evaluate_isScalar {e : Expression} (he : e.isScalar = true) {v : Value} {n : Machine}
    (h : evaluate e.tree m = .ok v n) : v.isNumber = true :=
  evaluateWith_isScalar _ e he h

/-! ## Counters -/

/-- Only numbers compare with numbers. -/
theorem isLess_isNumber {u v : Value} {b : Bool} {n : Machine} (h : isLess u v m = .ok b n)
    (hv : v.isNumber = true) : u.isNumber = true := by
  have horder : (m.lists.view u).order .lt (m.lists.view v) = .ok b := (ofExcept_eq_ok.1 h).1
  rw [Value.isNumber, ← m.lists.number?_view] at hv ⊢
  unfold View.order View.orderBy at horder
  split at horder
  · next hs ht =>
    rw [ht] at hv
    cases hv
  · next hs ht =>
    rw [ht] at hv
    cases hv
  · next hs ht =>
    rw [ht] at hv
    cases hv
  · split at horder
    · next ha hb =>
      rw [ha]
      rfl
    · cases horder

/-- A counter whose value is a number is bound to a number or a thunk. -/
theorem isQuiet_of_evaluate {x : String} {v w : Value} {n : Machine}
    (h : evaluate (.text x) m = .ok v n) (hv : v.isNumber = true)
    (hw : m.lookup (.ofText x) = some w) : w.isQuiet = true := by
  rw [evaluate, bind_of_ok (get_apply m), evaluateWith,
    bind_of_ok (countEvaluation_apply m)] at h
  split at h
  · cases h
    cases hv
  · rw [bind_of_ok (get_apply _)] at h
    change resolve? _ (m.lookup (.ofText x)) _ = _ at h
    rw [hw] at h
    cases w with
    | thunk id => rfl
    | _ =>
      cases h
      exact Value.isQuiet_of_isNumber hv

/-- What reads no names as an expression has a number for its value, if it has one. -/
theorem evaluate_quiet {w : Value} (hw : w.isQuiet = true) (l : Lists) :
    (l.view w).toTree.reads = [] ∧ ∀ {m n : Machine} {v : Value},
      evaluate (l.view w).toTree m = .ok v n → v.isNumber = true := by
  cases w with
  | int k =>
    refine ⟨rfl, fun h => ?_⟩
    cases h
    rfl
  | bool b =>
    refine ⟨rfl, fun h => ?_⟩
    cases h
    rfl
  | none => exact ⟨rfl, fun h => by cases h⟩
  | float y => exact ⟨rfl, fun h => by cases h⟩
  | thunk id => exact ⟨rfl, fun h => by cases h⟩
  | _ => cases hw

/-- A counter is bound to what reads no names as an expression; one that is not a text is not
bound. -/
theorem quiet_counter {counter : Tree} {name : Name} (hm : m.Ready D K)
    (hcounter : ∀ x, counter = .text x → x ∈ K) (hname : Name.ofTree counter = .ok name) :
    ((m.lookup name).getD .none).isQuiet = true := by
  cases hw : m.lookup name with
  | none => rfl
  | some w =>
    obtain ⟨x, hx⟩ := hm.texts name (by rw [hw]; rfl)
    obtain rfl := Name.text_of_ofTree hname (eq_of_beq hx)
    cases hname
    exact hm.quiet x (hcounter x rfl) w hw

/-- A counter goes on as a number. -/
theorem increment_matches {counter : Tree} (hm : m.Ready D K)
    (hcounter : ∀ x, counter = .text x → x ∈ K) :
    Matches m (increment strictly counter) (increment unwatched counter)
      fun _ n => n.Ready D K := by
  refine matches_ofExcept_bind fun name hname => ?_
  refine matches_bind_of_ok (get_apply m) (matches_bind_of_ok (view_apply _ m) ?_)
  obtain ⟨hreads, hnumber⟩ := evaluate_quiet (quiet_counter hm hcounter hname) m.lists
  have hwithin : within every D
      (m.lists.view ((m.lookup name).getD .none)).toTree.reads = true := by
    rw [hreads]
    rfl
  have heval := evaluate_matches hm hwithin
  refine matches_bind (P := fun v n => n.Ready D K ∧ v.isNumber = true ∧ ∃ x, counter = .text x)
    ⟨heval.same, fun h => ⟨heval.ok h, hnumber h, ?_⟩⟩ ?_
  · -- nothing is not an expression, so the counter is bound
    have hsome : (m.lookup name).isSome = true := by
      cases hw : m.lookup name with
      | none =>
        rw [hw] at h
        cases h
      | some w => rfl
    obtain ⟨x, hx⟩ := hm.texts name hsome
    exact ⟨x, Name.text_of_ofTree hname (eq_of_beq hx)⟩
  · rintro v n ⟨hn, hv, x, rfl⟩
    cases hname
    refine matches_bind_of_ok (get_apply n) (matches_ofExcept_bind fun w hw => ?_)
    have hw : w.isNumber = true := Value.add_isNumber hw (by rw [hv]; rfl)
    refine (bind_matches hn fun _ => Value.isQuiet_of_isNumber hw).imp fun _ k hk => ?_
    exact hk.mono (List.subset_cons_self x D) (List.Subset.refl K)

/-- A number as an expression. -/
theorem evaluate_whole {stop : Tree} (hstop : stop.whole?.isSome = true) :
    stop.reads = [] ∧ ∀ {m n : Machine} {v : Value},
      evaluate stop m = .ok v n → v.isNumber = true := by
  cases stop with
  | int k =>
    refine ⟨rfl, fun h => ?_⟩
    cases h
    rfl
  | bool b =>
    refine ⟨rfl, fun h => ?_⟩
    cases h
    rfl
  | _ => cases hstop

/-- After the test of a loop that counts, its counter is bound to a number or a thunk. -/
theorem test_ready {counter : Tree} {counters : List String} {v last : Value} {b : Bool}
    {n k : Machine} (hm : m.Ready D K) (hcounters : ∀ x ∈ counters, counter = .text x)
    (hv : evaluate counter m = .ok v n) (hless : isLess v last n = .ok b k)
    (hlast : last.isNumber = true) : k.Ready D (counters ++ K) := by
  have hl : m.Looks k :=
    onward_looks.trans ((evaluate_looks counter).ok hv) ((isLess_looks v last).ok hless)
  have hk := hm.looks hl
  refine ⟨hk.supplied, hk.bound, hk.texts, fun x hx w hw => ?_⟩
  rcases List.mem_append.1 hx with hx | hx
  · obtain rfl := hcounters x hx
    rw [hl.lookup] at hw
    exact isQuiet_of_evaluate hv (isLess_isNumber hless hlast) hw
  · exact hk.quiet x hx w hw

theorem simply_matches {D' : List String} {x y : Exec Unit}
    (h : Matches m x y fun _ n => n.Ready D' K) :
    Matches m (simply x) (simply y) fun b n => n.Ready (if b then D' else D) K :=
  matches_bind h fun _ _ hn => matches_pure hn

/-- Statements that only change a variable, lists of literals among them. -/
theorem alone_matches {run run' : Tree → Exec Bool} {s : Statement} (n : Nat)
    (hs : s.settledAlone D K = true) (hm : m.Ready D K) :
    Matches m (statementStrictly run n s.tree) (statement unwatched run' n s.tree)
      fun b n => n.Ready (if b then s.after D else D) K := by
  have htree {items : List Tree} (hplain : s.plain.tree = .tuple items) :
      s.tree = .tuple items ∨ s.tree = .list items := by
    rcases s.tree_plain with heq | ⟨items', hlist, htuple⟩
    · exact .inl (heq ▸ hplain)
    · rw [hplain] at htuple
      cases htuple
      exact .inr hlist
  rw [Statement.after_of_alone hs, Statement.bound?]
  rw [Statement.settledAlone] at hs
  cases hp : s.plain with
  | assign x e =>
    rw [hp, Bool.and_eq_true] at hs
    have hk : x ∈ K → ∀ {m v n}, evaluate e.tree m = .ok v n → v.isQuiet = true := by
      intro hx m v n hv
      have hscalar : e.isScalar = true := by simpa [hx] using hs.2
      exact Value.isQuiet_of_isNumber (evaluate_isScalar hscalar hv)
    have hitems : s.plain.tree = .tuple [.text "assign", .text x, e.tree] := by
      rw [hp]
      rfl
    rcases htree hitems with ht | ht
    · rw [ht]
      exact simply_matches (assign_matches hm hs.1 rfl hk)
    · rw [ht]
      exact simply_matches (assign_matches hm hs.1 rfl hk)
  | compound op x e =>
    rw [hp] at hs
    have hitems : s.plain.tree = .tuple [.text op.tag, .text x, e.tree] := by
      rw [hp]
      rfl
    have hparts : s.tree.unpack3 = .ok (.text op.tag, .text x, e.tree) := by
      rcases htree hitems with ht | ht
      · rw [ht]
        rfl
      · rw [ht]
        rfl
    have hcompound := simply_matches (D := D) (compound_matches hm hs op hparts)
    rcases htree hitems with ht | ht
    · rw [ht] at hcompound ⊢
      cases op <;> exact hcompound
    · rw [ht] at hcompound ⊢
      cases op <;> exact hcompound
  | reverse x =>
    rw [hp] at hs
    have hx : x ∉ K := by simpa using hs
    have hitems : s.plain.tree = .tuple [.text "reverse", .text x] := by
      rw [hp]
      rfl
    rcases htree hitems with ht | ht
    · rw [ht]
      exact simply_matches (reverse_matches hm rfl hx)
    · rw [ht]
      exact simply_matches (reverse_matches hm rfl hx)
  | _ =>
    rw [hp] at hs
    cases hs

end Exec
end Retrace
