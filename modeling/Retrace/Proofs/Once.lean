import Retrace.Proofs.Data
import Retrace.Proofs.Faults
import Retrace.Proofs.Registering

/-!
# Every thunk is worked out once

While a thunk is being worked out it has no value yet, so it may be asked for again on the way.  If
that came to an end, the thunk would be given a value twice.  It never does: to have a value, a
thunk must not depend on itself.

How often a thunk is given a value cannot be read off a machine, which has room for one value only.
So there is another way to work thunks out, which goes as `forceWithin` does but gives up if a thunk
that is to be given a value has got one in the meantime (`forceOnceWithin`).  That both are the same
on all machines of a run says that it never happens.

The reason is a rank: the least depth at which the thunk reads as a value (`Machine.readThunk`).
What a thunk of rank `r + 1` reads are names of thunks of ranks up to `r`, so working it out changes
no other thunks (`evaluateWith_steady`, with `Machine.Ranked`); the thunk itself is not among them.
A thunk without a rank never gets a value at all.  The rank is taken in the machine from which the
evaluation starts, and not in the one at which a thunk is asked for, where some thunks have values
already and all ranks are less.  This is why the machines on the way are compared with the first
one, as visited machines are.

`Steady` puts the two parts together, that both ways have the same outcome and that they change only
thunks of a given set.  Neither can be shown without the other: that the thunk is still waiting when
its own expression has been evaluated follows from the second, and it is what makes the outcomes the
same.

Statements evaluate expressions at many places, but nearly all of these are watched.  So the other
way to evaluate is brought in by a watch that tries it first and lets the evaluation pass if it did
not give up (`onlyOnce`).  Only compound assignments look a variable up without a watch, and have
their own version.

* `forceOnceWithin`, `evaluateOnce`, `performOnce`, `Run.statementsOnce`: values are given once.
* `Steady`: two steps have the same outcome, and change only thunks of a given set.
* `evaluateOnce_eq`: expressions; `Run.statementsOnce_eq`: programs.
-/

set_option autoImplicit false

namespace Retrace

namespace Tree

variable {l : Lists} {n : Nat} {names : Name → Except Fault Value}

mutual

/-- If an expression comes to a value, all names that it reads do. -/
theorem reads_of_outcome : ∀ {e : Tree} {v : Value}, e.outcome l n names = .ok v →
    ∀ name ∈ e.reads, ∃ w, names name = .ok w
  | .list es, v, h, name, hn => by
    rw [outcome] at h
    obtain ⟨vs, hvs, -⟩ := ok_of_bind h
    exact reads_of_outcomes hvs name hn
  | .tuple [left, op, right], v, h, name, hn => by
    rw [outcome] at h
    obtain ⟨u, hu, h⟩ := ok_of_bind h
    obtain ⟨w, hw, -⟩ := ok_of_bind h
    rcases List.mem_append.1 hn with hn | hn
    · exact reads_of_outcome hu name hn
    · exact reads_of_outcome hw name hn
  | .tuple [first, e], v, h, name, hn => by
    rw [outcome] at h
    rw [reads] at hn
    split at h
    · next hlen =>
      rw [if_pos hlen] at hn
      obtain ⟨u, hu, -⟩ := ok_of_bind h
      exact reads_of_outcome hu name hn
    · cases h
  | .text s, v, h, name, hn => by
    rw [outcome] at h
    rw [reads] at hn
    split at h
    · next hs => simp [hs] at hn
    · next hs =>
      rw [if_neg hs, List.mem_singleton] at hn
      exact ⟨v, hn ▸ h⟩

/-- If expressions come to values, all names that they read do. -/
theorem reads_of_outcomes : ∀ {es : List Tree} {vs : List Value},
    outcomes l n names es = .ok vs → ∀ name ∈ readsOf es, ∃ w, names name = .ok w
  | e :: rest, vs, h, name, hn => by
    rw [outcomes] at h
    obtain ⟨u, hu, h⟩ := ok_of_bind h
    obtain ⟨us, hus, -⟩ := ok_of_bind h
    rcases List.mem_append.1 hn with hn | hn
    · exact reads_of_outcome hu name hn
    · exact reads_of_outcomes hus name hn

end

end Tree

namespace Exec

/-! ## Giving values once -/

/-- The fault of a thunk that is to be given a second value.  It comes up in no run. -/
def secondValue : Fault :=
  .notAThunk "value"

/-- Enters the value of a thunk, which must have none. -/
def settleOnce (id : Nat) (v : Value) : Exec Unit := do
  match (← get).heap[id]? with
  | some ⟨_, some _⟩ => throw secondValue
  | _ => settle id v

/-- The value of a thunk.  No thunk is given a second value on the way. -/
def forceOnceWithin : Nat → Nat → Exec Value
  | 0, _ => throw .circular
  | depth + 1, id => do
    match (← get).heap[id]? with
    | none => return .none
    | some thunk =>
      match thunk.value? with
      | some v => return v
      | none => do
        let v ← evaluateWith (forceOnceWithin depth) thunk.expression
        settleOnce id v
        return v

/-- The value of a thunk.  No thunk is given a second value on the way. -/
def forceOnce (id : Nat) : Exec Value := do
  forceOnceWithin (← get).heap.size id

/-- The value of an expression.  No thunk is given a second value on the way. -/
def evaluateOnce (e : Tree) : Exec Value := do
  evaluateWith (forceOnceWithin (← get).heap.size) e

/-- The value that a name is bound to.  No thunk is given a second value on the way. -/
def valueOnce (name : Name) : Exec Value := do
  resolve? forceOnce ((← get).lookup name)

/-! ## Steps that change few thunks -/

/-- The heap stays as it is. -/
abbrev SameHeap (a b : Machine) : Prop :=
  b.heap = a.heap

theorem onward_sameHeap : Onward SameHeap where
  refl _ := rfl
  trans hab hbc := hbc.trans hab

theorem newId_sameHeap : Keeps SameHeap newId :=
  keepsOn_of_apply newId_apply fun _ => rfl

/-- On the machine `a` the two steps have the same outcome, and they change only thunks in `D`. -/
structure Steady {α : Type} (D : Nat → Prop) (a : Machine) (x y : Exec α) : Prop where
  same : x a = y a
  frame : ∀ j, ¬ D j → (machineAfter (y a)).heap[j]? = a.heap[j]?

section

variable {α β : Type} {D : Nat → Prop} {a : Machine}

/-- One step after another. -/
theorem steady_bind {x y : Exec α} {f g : α → Exec β} (hx : Steady D a x y)
    (hf : ∀ v b, y a = .ok v b → Steady D b (f v) (g v)) : Steady D a (x >>= f) (y >>= g) where
  same := bind_congr_at hx.same fun v b hv => (hf v b hv).same
  frame j hj := by
    have hfirst := hx.frame j hj
    rw [bind_apply]
    cases hy : y a with
    | ok v b =>
      rw [hy] at hfirst
      exact ((hf v b hy).frame j hj).trans hfirst
    | error e b =>
      rw [hy] at hfirst
      exact hfirst

/-- A step that does not change the heap. -/
theorem steady_of_heap {x : Exec α} (hx : Keeps SameHeap x) : Steady D a x x where
  same := rfl
  frame j _ := by
    cases hr : x a with
    | ok v b => exact congrArg (·[j]?) (hx.ok hr)
    | error e b => exact congrArg (·[j]?) (hx.error trivial hr)

end

section

open Machine (Visited)

variable {m : Machine} {D : Nat → Prop} {force force' : Nat → Exec Value}
variable {low high : Nat → Except Fault Value}

/-- All thunks that the names of an expression are bound to are in `D`. -/
def ReadsWithin (m : Machine) (D : Nat → Prop) (names : List Name) : Prop :=
  ∀ name ∈ names, ∀ j, m.lookup name = some (.thunk j) → D j

/-- Working out thunks of `D` has the same outcome in both ways, and changes only thunks of `D`. -/
def ForcesSteadily (m : Machine) (D : Nat → Prop) (force force' : Nat → Exec Value) : Prop :=
  ∀ id, D id → ∀ reg a, m.Visited reg a → Steady D a (force id) (force' id)

theorem steady_counted {α : Type} {a : Machine} {reg : Nat → List Value} {f g : Unit → Exec α}
    (ha : m.Visited reg a) (hf : ∀ b, m.Visited reg b → Steady D b (f ()) (g ())) :
    Steady D a (countEvaluation >>= f) (countEvaluation >>= g) := by
  refine steady_bind (steady_of_heap (keepsOn_of_apply countEvaluation_apply fun _ => rfl))
    fun _ b hb => ?_
  have hl := countEvaluation_looks.ok hb
  cases hb
  exact hf _ (ha.of_heap_eq hl rfl ⟨fun _ _ => rfl, Nat.le_refl _⟩)

mutual

/-- An expression that reads thunks of the set only, if they are worked out steadily. -/
theorem evaluateWith_steady (hsees : ForcesBetween m force' low high)
    (hforce : ForcesSteadily m D force force') : ∀ (e : Tree) {reg : Nat → List Value}
    {a : Machine}, m.Visited reg a → ReadsWithin m D e.reads →
    Steady D a (evaluateWith force e) (evaluateWith force' e)
  | .thunk _, _, _, ha, _ => steady_counted ha fun _ _ =>
    steady_of_heap (keepsOn_throw onward_sameHeap _)
  | .list es, _, _, ha, he => steady_counted ha fun _ hb =>
    steady_bind (evaluateItems_steady hsees hforce es hb he) fun vs _ _ =>
      steady_of_heap (keepsOn_newList onward_sameHeap newId_sameHeap vs)
  | .tuple [left, op, right], _, _, ha, he => steady_counted ha fun b hb => by
    have hleft : ReadsWithin m D left.reads := fun name hn => he name (List.mem_append_left _ hn)
    have hright : ReadsWithin m D right.reads := fun name hn => he name (List.mem_append_right _ hn)
    refine steady_bind (evaluateWith_steady hsees hforce left hb hleft) fun u c hu => ?_
    obtain ⟨reg₁, hc, -, hu, -⟩ := (evaluateWith_sees hsees left hb).ok hu
    refine steady_bind (evaluateWith_steady hsees hforce right hc hright) fun v d hv => ?_
    obtain ⟨reg₂, hd, hext, hv, -⟩ := (evaluateWith_sees hsees right hc).ok hv
    split
    · exact steady_of_heap (keepsOn_item onward_sameHeap u v)
    · -- neither operand is a thunk
      rw [operate_of_conforms (hext.conforms hu) hv, operate_of_conforms (hext.conforms hu) hv]
      split
      · exact steady_of_heap (keepsOn_apply onward_sameHeap newId_sameHeap _ u v)
      · exact steady_of_heap (keepsOn_throw onward_sameHeap _)
  | .tuple [first, e], _, _, ha, he => steady_counted ha fun b hb => by
    rw [Tree.reads] at he
    split
    · next hlen =>
      rw [if_pos hlen] at he
      exact steady_bind (evaluateWith_steady hsees hforce e hb he) fun v _ _ =>
        steady_of_heap (keepsOn_lengthOf onward_sameHeap v)
    · exact steady_of_heap (keepsOn_throw onward_sameHeap _)
  | .tuple [], _, _, ha, _ => steady_counted ha fun _ _ =>
    steady_of_heap (keepsOn_throw onward_sameHeap _)
  | .tuple [_], _, _, ha, _ => steady_counted ha fun _ _ =>
    steady_of_heap (keepsOn_throw onward_sameHeap _)
  | .tuple (_ :: _ :: _ :: _ :: _), _, _, ha, _ => steady_counted ha fun _ _ =>
    steady_of_heap (keepsOn_throw onward_sameHeap _)
  | .int _, _, _, ha, _ => steady_counted ha fun _ _ =>
    steady_of_heap (keepsOn_pure onward_sameHeap _)
  | .bool _, _, _, ha, _ => steady_counted ha fun _ _ =>
    steady_of_heap (keepsOn_pure onward_sameHeap _)
  | .text s, _, _, ha, he => steady_counted ha fun b hb => by
    rw [Tree.reads] at he
    split
    · exact steady_of_heap (keepsOn_pure onward_sameHeap _)
    · next hs =>
      rw [if_neg hs] at he
      refine steady_bind (steady_of_heap (keepsOn_get onward_sameHeap)) fun _ c hc => ?_
      cases hc
      rw [hb.looks.lookup]
      cases hv : m.lookup (.ofText s) with
      | none => exact steady_of_heap (keepsOn_pure onward_sameHeap _)
      | some v =>
        cases v with
        | thunk j => exact hforce j (he _ (List.mem_singleton_self _) j hv) _ b hb
        | _ => exact steady_of_heap (keepsOn_pure onward_sameHeap _)
  | .none, _, _, ha, _ => steady_counted ha fun _ _ =>
    steady_of_heap (keepsOn_throw onward_sameHeap _)
  | .float _, _, _, ha, _ => steady_counted ha fun _ _ =>
    steady_of_heap (keepsOn_throw onward_sameHeap _)

theorem evaluateItems_steady (hsees : ForcesBetween m force' low high)
    (hforce : ForcesSteadily m D force force') : ∀ (es : List Tree) {reg : Nat → List Value}
    {a : Machine}, m.Visited reg a → ReadsWithin m D (Tree.readsOf es) →
    Steady D a (evaluateItems force es) (evaluateItems force' es)
  | [], _, _, _, _ => steady_of_heap (keepsOn_pure onward_sameHeap _)
  | e :: rest, _, _, ha, he => by
    have hhead : ReadsWithin m D e.reads := fun name hn => he name (List.mem_append_left _ hn)
    have htail : ReadsWithin m D (Tree.readsOf rest) :=
      fun name hn => he name (List.mem_append_right _ hn)
    refine steady_bind (evaluateWith_steady hsees hforce e ha hhead) fun v b hv => ?_
    obtain ⟨reg₁, hb, -⟩ := (evaluateWith_sees hsees e ha).ok hv
    exact steady_bind (evaluateItems_steady hsees hforce rest hb htail) fun _ _ _ =>
      steady_of_heap (keepsOn_pure onward_sameHeap _)

end

end

end Exec

/-! ## Ranks -/

namespace Machine

variable {m : Machine}

/-- The thunk reads as a value, if at most `r` thunks depend on each other. -/
def Ranked (m : Machine) (r id : Nat) : Prop :=
  ∃ v, m.readThunk r id = .ok v

theorem not_ranked_zero (id : Nat) : ¬ m.Ranked 0 id := by
  rintro ⟨v, h⟩
  cases h

theorem Ranked.succ {r id : Nat} (h : m.Ranked r id) : m.Ranked (r + 1) id := by
  obtain ⟨v, hv⟩ := h
  exact ⟨v, (hv ▸ readThunk_mono (Nat.le_succ r) id).eq_of_ok⟩

/-- What a waiting thunk reads has a lower rank than the thunk. -/
theorem Ranked.reads {r id : Nat} {e : Tree} (h : m.Ranked (r + 1) id)
    (ht : m.heap[id]? = some ⟨e, none⟩) : Exec.ReadsWithin m (m.Ranked r) e.reads := by
  obtain ⟨v, hv⟩ := h
  rw [readThunk_of_waiting ht] at hv
  intro name hn j hj
  obtain ⟨w, hw⟩ := Tree.reads_of_outcome hv name hn
  exact ⟨w, by rwa [readName, hj] at hw⟩

/-- If a thunk has a rank, there is a least one. -/
theorem Ranked.least {r id : Nat} (h : m.Ranked r id) :
    ∃ k, m.Ranked (k + 1) id ∧ ¬ m.Ranked k id := by
  induction r with
  | zero => exact absurd h (not_ranked_zero id)
  | succ k ih =>
    by_cases hk : m.Ranked k id
    · exact ih hk
    · exact ⟨k, h, hk⟩

/-- With a thunk, the set has all that the thunk reads, as long as it waits. -/
def IsClosed (m : Machine) (D : Nat → Prop) : Prop :=
  ∀ (id : Nat) (e : Tree), D id → m.heap[id]? = some ⟨e, none⟩ → Exec.ReadsWithin m D e.reads

theorem isClosed_univ : m.IsClosed fun _ => True :=
  fun _ _ _ _ _ _ _ _ => trivial

/-- The thunks up to a rank read thunks up to that rank only. -/
theorem isClosed_ranked (r : Nat) : m.IsClosed (m.Ranked r) := by
  intro id e hid ht name hn j hj
  cases r with
  | zero => exact absurd hid (not_ranked_zero id)
  | succ r => exact (hid.reads ht name hn j hj).succ

end Machine

namespace Exec

open Machine (Visited)

variable {m : Machine}

/-- A thunk that is being worked out has no value before its own is found. -/
theorem still_waiting {depth id : Nat} {e : Tree} {reg : Nat → List Value} {a : Machine}
    (hforce : ∀ r, ForcesSteadily m (m.Ranked r) (forceOnceWithin depth) (forceWithin depth))
    (ha : m.Visited reg a) (ht : a.heap[id]? = some ⟨e, none⟩) :
    (machineAfter (evaluateWith (forceWithin depth) e a)).heap[id]? = some ⟨e, none⟩ := by
  have hsees := evaluateWith_sees (forceWithin_sees depth) e ha
  obtain ⟨reg', hb⟩ :
      ∃ reg', m.Visited reg' (machineAfter (evaluateWith (forceWithin depth) e a)) := by
    cases hr : evaluateWith (forceWithin depth) e a with
    | ok v b =>
      obtain ⟨reg', hb, -⟩ := hsees.ok hr
      exact ⟨reg', hb⟩
    | error f b =>
      obtain ⟨reg', hb, -⟩ := hsees.error hr
      exact ⟨reg', hb⟩
  have hwaiting := ha.looks.waiting ht
  rcases hb.looks.fills id _ hwaiting with hsame | ⟨-, v, hv⟩
  · exact hsame
  · -- it would have a rank, and only thunks of lower ranks have been changed
    have hrank : m.Ranked m.heap.size id := ⟨_, (hb.worked hv).2⟩
    obtain ⟨r, hr, hnot⟩ := hrank.least
    have hsteady := evaluateWith_steady (forceWithin_sees depth) (hforce r) e ha (hr.reads hwaiting)
    exact (hsteady.frame id hnot).trans ht

/-- No thunk is given a second value, at any depth. -/
theorem forceOnceWithin_steady (depth : Nat) {D : Nat → Prop} (hD : m.IsClosed D) :
    ForcesSteadily m D (forceOnceWithin depth) (forceWithin depth) := by
  induction depth generalizing D with
  | zero => exact fun _ _ _ _ _ => steady_of_heap (keepsOn_throw onward_sameHeap _)
  | succ depth ih =>
    intro id hid reg a ha
    rw [forceOnceWithin, forceWithin]
    refine steady_bind (steady_of_heap (keepsOn_get onward_sameHeap)) fun _ b hb => ?_
    cases hb
    cases ht : a.heap[id]? with
    | none => exact steady_of_heap (keepsOn_pure onward_sameHeap _)
    | some thunk =>
      obtain ⟨e, _ | v⟩ := thunk
      · have hreads := hD id e hid (ha.looks.waiting ht)
        have hevaluate := evaluateWith_steady (forceWithin_sees depth) (ih hD) e ha hreads
        -- the thunks that were asked for on the way are of lower rank than this one
        have hstill := still_waiting (fun r => ih (Machine.isClosed_ranked r)) ha ht
        refine steady_bind hevaluate fun v b hb => ?_
        rw [hb] at hstill
        refine steady_bind ⟨?_, fun j hj => ?_⟩ fun _ _ _ =>
          steady_of_heap (keepsOn_pure onward_sameHeap _)
        · rw [settleOnce, bind_of_ok (get_apply b)]
          change b.heap[id]? = _ at hstill
          rw [hstill]
        · have hne : id ≠ j := fun h => hj (h ▸ hid)
          rw [settle_apply]
          exact (Array.getElem?_modify ..).trans (if_neg hne)
      · exact steady_of_heap (keepsOn_pure onward_sameHeap _)

/-- Giving a value once is giving it. -/
theorem forceOnce_eq {reg : Nat → List Value} (hm : m.Numbered reg) (id : Nat) :
    forceOnce id m = force id m :=
  (forceOnceWithin_steady m.heap.size Machine.isClosed_univ id trivial reg m hm.visited).same

/-- No evaluation gives a thunk a second value. -/
theorem evaluateOnce_eq {reg : Nat → List Value} (hm : m.Numbered reg) (e : Tree) :
    evaluateOnce e m = evaluate e m :=
  (evaluateWith_steady (forceWithin_sees m.heap.size)
    (forceOnceWithin_steady m.heap.size Machine.isClosed_univ) e hm.visited
    fun _ _ _ _ => trivial).same

theorem valueOnce_eq {reg : Nat → List Value} (hm : m.Numbered reg) (name : Name) :
    valueOnce name m = valueOfName name m := by
  rw [valueOnce, valueOfName, bind_of_ok (get_apply m), bind_of_ok (get_apply m)]
  cases m.lookup name with
  | none => rfl
  | some v =>
    cases v with
    | thunk id => exact forceOnce_eq hm id
    | _ => rfl

/-! ## Statements -/

/-- Stops if a step would give a thunk a second value, and does nothing else. -/
def rehearse (x : Exec Value) : Exec Unit := fun m =>
  match x m with
  | .error (.notAThunk s) _ => .error (.notAThunk s) m
  | _ => .ok () m

/-- A watch under which no evaluation may give a thunk a second value. -/
def onlyOnce : Watch
  | .evaluation e => rehearse (evaluateOnce e)
  | _ => return ()

/-- `name += value` and the like, where no thunk may be given a second value for the value that the
variable had. -/
def compoundOnce (op : Compound) (t : Tree) : Exec Unit := do
  let (_, target, e) ← ofExcept t.unpack3
  let name ← ofExcept (Name.ofTree target)
  let current ← valueOnce name
  let operand ← resolve forceOnce (← evaluateWatched onlyOnce e)
  remember name current
  match current.whole? with
  | none => throw (.notAnInteger current.typeName)
  | some a =>
    match operand.whole? with
    | none => throw .wrongOperand
    | some b =>
      let new ← wordFor name (op.onWords a b)
      bindWatched onlyOnce name new

/-- A statement, given how those inside of it are carried out and how often a loop may be
repeated.  Only compound assignments ask thunks for their values other than by evaluating. -/
def statementOnce (run : Tree → Exec Bool) (n : Nat) (t : Tree) : Exec Bool := do
  let tag ← ofExcept t.head
  match Form.ofTree? tag with
  | some (.compound op) => simply (compoundOnce op t)
  | _ => statement onlyOnce run n t

/-- Carries out a statement.  Each evaluation is tried out before, and the run stops if it gives a
thunk a second value. -/
def performOnce : Nat → Tree → Exec Bool
  | 0, _ => throw .outOfFuel
  | n + 1, t => statementOnce (performOnce n) n t

/-- The watch has nothing to object to on machines of a run. -/
theorem trusts_onlyOnce : Trusts onlyOnce := by
  intro event m hm
  cases event with
  | evaluation e =>
    obtain ⟨reg, hreg⟩ := hm.numbered
    rw [onlyOnce, rehearse, evaluateOnce_eq hreg]
    split
    · next s n hfault => cases evaluate_stops e m n _ hfault
    · rfl
  | _ => rfl

variable {vs : List Value}

/-- A compound assignment, which looks its variable up without a watch. -/
theorem compoundOnce_sound (op : Compound) (t : Tree) (hm : m.Sound vs) :
    Matches m (compoundOnce op t) (compound unwatched op t) fun _ n => n.Sound vs := by
  refine matches_ofExcept_bind fun parts _ => matches_ofExcept_bind fun name _ => ?_
  obtain ⟨reg, hreg⟩ := hm.numbered
  refine matches_bind ⟨valueOnce_eq hreg name, hm.valueOfName⟩ fun current n hn => ?_
  refine matches_bind (evaluate_sound trusts_onlyOnce _ hn) fun v n hn => ?_
  have hresolve : resolve forceOnce v n = resolve force v n := by
    obtain ⟨reg, hreg⟩ := hn.numbered
    cases v with
    | thunk id => exact forceOnce_eq hreg id
    | _ => rfl
  refine matches_bind ⟨hresolve, hn.resolve⟩ fun operand n hn => ?_
  refine matches_bind (remember_sound name hn.tail) fun _ n hn => ?_
  cases current.whole? with
  | none => exact matches_throw
  | some a =>
    cases operand.whole? with
    | none => exact matches_throw
    | some b =>
      refine matches_bind (wordFor_sound hn.tail name _) fun new k hk => ?_
      exact bind_sound trusts_onlyOnce name hk

theorem head_of_form? {t : Tree} {form : Form} (h : t.form? = some form) :
    ∃ tag, t.head = .ok tag ∧ Form.ofTree? tag = some form := by
  rw [Tree.form?] at h
  split at h
  · next tag htag => exact ⟨tag, htag, h⟩
  · cases h

theorem statementOnce_of_compound {run : Tree → Exec Bool} {n : Nat} {t : Tree} {op : Compound}
    (h : t.form? = some (.compound op)) :
    statementOnce run n t m = simply (compoundOnce op t) m := by
  obtain ⟨tag, htag, hform⟩ := head_of_form? h
  rw [statementOnce, htag, bind_of_ok (ofExcept_ok tag m), hform]

theorem statement_of_compound {watch : Watch} {run : Tree → Exec Bool} {n : Nat} {t : Tree}
    {op : Compound} (h : t.form? = some (.compound op)) :
    statement watch run n t m = simply (compound watch op t) m := by
  obtain ⟨tag, htag, hform⟩ := head_of_form? h
  rw [statement, htag, bind_of_ok (ofExcept_ok tag m), hform]

theorem statementOnce_of_other {run : Tree → Exec Bool} {n : Nat} {t : Tree}
    (h : ∀ op, t.form? ≠ some (.compound op)) :
    statementOnce run n t m = statement onlyOnce run n t m := by
  rw [statementOnce]
  cases htag : t.head with
  | error e =>
    rw [statement, htag]
    rfl
  | ok tag =>
    rw [bind_of_ok (ofExcept_ok tag m)]
    rw [Tree.form?, htag] at h
    cases hform : Form.ofTree? tag with
    | none => rfl
    | some form =>
      cases form with
      | compound op => exact absurd hform (h op)
      | _ => rfl

theorem statementOnce_sound {run run' : Tree → Exec Bool} (hrun : KeepsSound run run') (n : Nat)
    (t : Tree) (hm : m.Sound vs) :
    Matches m (statementOnce run n t) (statement unwatched run' n t) fun _ n => n.Sound vs := by
  have hstatement := statement_sound trusts_onlyOnce hrun n t hm
  refine ⟨?_, hstatement.ok⟩
  by_cases hform : ∃ op, t.form? = some (.compound op)
  · obtain ⟨op, hop⟩ := hform
    have hcompound : Matches m (simply (compoundOnce op t)) (simply (compound unwatched op t))
        fun _ n => n.Sound vs :=
      matches_bind (compoundOnce_sound op t hm) fun _ n hn => matches_pure hn
    rw [statementOnce_of_compound hop, hcompound.same, statement_of_compound hop]
  · rw [statementOnce_of_other fun op hop => hform ⟨op, hop⟩]
    exact hstatement.same

/-- All statements, by the number of passes. -/
theorem performOnce_sound : ∀ n, KeepsSound (performOnce n) (perform unwatched n)
  | 0 => fun _ _ _ _ => matches_throw
  | n + 1 => fun t _ _ hm => statementOnce_sound (performOnce_sound n) n t hm

/-- Carries out a statement.  A `break` that no loop takes up is a fault, and no thunk is given a
second value on the way. -/
def carryOutOnce (n : Nat) (t : Tree) : Exec Unit := do
  if !(← performOnce n t) then throw .breakOutsideLoop

end Exec

/-! ## Runs -/

namespace Run

variable {m : Machine}

/-- Carries out a statement of the outermost level.  No thunk is given a second value. -/
def topLevelOnce (n : Nat) (t : Tree) : Exec Unit := do
  Exec.carryOutOnce n t
  Exec.prune

/-- Carries out statements, with the machine after each of them.  No thunk is given a second
value. -/
def statementsOnce (n : Nat) : List Tree → Machine → List Machine × Option Fault × Machine
  | [], m => ([], none, m)
  | t :: rest, m =>
    match topLevelOnce n t m with
    | .ok _ m =>
      let (steps, fault?, final) := statementsOnce n rest m
      (m :: steps, fault?, final)
    | .error e m => ([], some e, m)

theorem topLevelOnce_sound (n : Nat) (t : Tree) (hm : m.Sound []) :
    Exec.Matches m (topLevelOnce n t) (topLevel Exec.unwatched n t) fun _ k => k.Sound [] := by
  have hcarried : Exec.Matches m (Exec.carryOutOnce n t)
      (Exec.carryOutWatched Exec.unwatched n t) fun _ k => k.Sound [] := by
    refine Exec.matches_bind (Exec.performOnce_sound n t hm) fun b k hk => ?_
    exact Exec.matches_ite (fun _ => Exec.matches_throw) fun _ => Exec.matches_pure hk
  exact Exec.matches_bind hcarried fun _ k hk => Exec.prune_sound hk

/-- **No thunk is given a second value in a run.** -/
theorem statementsOnce_eq (n : Nat) (program : List Tree) (hm : m.Sound []) :
    statementsOnce n program m = statements n program m := by
  induction program generalizing m with
  | nil => rfl
  | cons t rest ih =>
    have htop := topLevelOnce_sound n t hm
    rw [statementsOnce, statements, statementsWatched, htop.same]
    cases hend : topLevel Exec.unwatched n t m with
    | error e k => rfl
    | ok u k =>
      have hrest := ih (htop.ok hend)
      rw [statements] at hrest
      simp only [hrest]

/-- The fault for which a run would stop at a second value comes up in no run. -/
theorem statements_ne_secondValue {n : Nat} {program : List Tree} :
    (statements n program m).2.1 ≠ some Exec.secondValue := by
  intro h
  rcases statements_stops h with hbreak | hrun
  · cases hbreak
  · cases hrun

end Run
end Retrace
