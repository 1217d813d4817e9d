import Retrace.Proofs.Meaning

/-!
# Evaluating gives the meaning

Evaluating is right: what comes out is what the expression means, and after it everything means what
it meant before (`evaluate_finds`).  And it is complete: an expression that has a meaning is
evaluated without a fault, within the depth at which it has the meaning (`evaluate_reaches`).  For
both the values of the machine have to conform to a registry, and no list may have grown.

A meaning is a value without numbers of lists, and it is given by a function of the machine that
works nothing out.  An evaluation does: it counts, gives numbers to lists, and writes the values of
thunks into the heap.  So the second half of being right, that nothing has got another meaning, is
as important as the first one, and has to be known within the first.  The operands of an operator
are evaluated one after the other, and the second one on a machine on which the first one has left
its traces.

What is left behind is described by `Machine.Later`.  Meanings go with a depth, namely with how many
thunks may be opened one inside of the other.  A thunk that was worked out needs no depth any more,
so afterwards a meaning may be there at a lesser depth than before.  The relation says both: what
had a meaning has it at the same depth, and what has a meaning had it at some depth, which is larger
by at most a number that is the same for all.

Right and complete are proved apart.  Being right is by induction on the expression, inside of an
induction on the depth of thunks, and goes through equations of steps that came to their end.  For
being complete, the same two inductions show that no step fails; there the first half is used to
know which values the operands have come to.

* `Machine.Fit`: a machine with a registry that its values conform to.
* `Machine.Later`: what becomes of such a machine when values are looked at.
* `Exec.Finds`: a step that gives a value which something means.
* `Exec.Reaches`: a step that does not fail where something has a meaning.
-/

set_option autoImplicit false

namespace Retrace
namespace Machine

/-- A value that may stand in a machine: it conforms to the registry or is a thunk of the heap. -/
def Holds (m : Machine) (reg : Nat → List Value) (v : Value) : Prop :=
  v.Conforms reg m.lists.next ∨ ∃ id < m.heap.size, v = .thunk id

/-- No list has grown, and all values conform to the registry. -/
structure Fit (m : Machine) (reg : Nat → List Value) : Prop where
  fresh : m.lists.Fresh
  bound : ∀ {name v}, m.lookup name = some v → m.Holds reg v
  worked : ∀ {id : Nat} {e : Tree} {v : Value}, m.heap[id]? = some ⟨e, some v⟩ →
    v.Conforms reg m.lists.next
  recorded : ∀ {name change}, change ∈ m.history.of name → m.Holds reg change.old

/-- `m'` is `m` after values were looked at.  New lists are in the registry of `m'`, and all thunks
mean what they meant. -/
structure Later (m : Machine) (reg reg' : Nat → List Value) (m' : Machine) : Prop where
  looks : m.Looks m'
  registry : ∀ i < m.lists.next, reg' i = reg i
  fit : m'.Fit reg'
  /-- No meaning is lost, and none needs more depth. -/
  keeps : ∀ {d id w}, m.thunks d id = some w → m'.thunks d id = some w
  /-- What has a meaning had it before, if at more depth. -/
  adds : ∃ k, ∀ {d id w}, m'.thunks d id = some w → m.thunks (d + k) id = some w

section

variable {m m' m'' : Machine} {reg reg' reg'' : Nat → List Value}

theorem Holds.mono {v : Value} (h : m.Holds reg v) (hreg : ∀ i < m.lists.next, reg' i = reg i)
    (hnext : m.lists.next ≤ m'.lists.next) (hsize : m.heap.size ≤ m'.heap.size) :
    m'.Holds reg' v := by
  rcases h with h | ⟨id, hid, rfl⟩
  · exact .inl (h.mono hreg hnext)
  · exact .inr ⟨id, Nat.lt_of_lt_of_le hid hsize, rfl⟩

/-- Looking at values keeps a machine fit, if the thunks that were worked out conform. -/
theorem Fit.looks (h : m.Fit reg) (hl : m.Looks m') (hreg : ∀ i < m.lists.next, reg' i = reg i)
    (hworked : ∀ {id : Nat} {e : Tree} {v : Value}, m'.heap[id]? = some ⟨e, some v⟩ →
      v.Conforms reg' m'.lists.next) :
    m'.Fit reg' where
  fresh := by
    rw [Lists.Fresh, hl.added]
    exact h.fresh
  bound {name v} hv := by
    rw [hl.lookup] at hv
    exact (h.bound hv).mono hreg hl.next (Nat.le_of_eq hl.heapSize.symm)
  worked := hworked
  recorded {name change} hc := by
    rw [hl.history] at hc
    exact (h.recorded hc).mono hreg hl.next (Nat.le_of_eq hl.heapSize.symm)

/-- If no thunk was worked out, there is nothing more to show. -/
theorem Fit.later (h : m.Fit reg) (hl : m.Looks m') (hheap : m'.heap = m.heap)
    (hreg : ∀ i < m.lists.next, reg' i = reg i) : m.Later reg reg' m' where
  looks := hl
  registry := hreg
  fit := h.looks hl hreg fun ht => (h.worked (hheap ▸ ht)).mono hreg hl.next
  keeps hw := by rwa [thunks_congr hl.lookup hheap]
  adds := ⟨0, fun hw => by rwa [thunks_congr hl.lookup hheap] at hw⟩

theorem Fit.refl (h : m.Fit reg) : m.Later reg reg m :=
  h.later (Exec.looks_refl m) rfl fun _ _ => rfl

namespace Later

variable (h : m.Later reg reg' m')
include h

theorem trans (h' : m'.Later reg' reg'' m'') : m.Later reg reg'' m'' where
  looks := Exec.onward_looks.trans h.looks h'.looks
  registry i hi :=
    (h'.registry i (Nat.lt_of_lt_of_le hi h.looks.next)).trans (h.registry i hi)
  fit := h'.fit
  keeps hw := h'.keeps (h.keeps hw)
  adds := by
    obtain ⟨k, hk⟩ := h.adds
    obtain ⟨k', hk'⟩ := h'.adds
    refine ⟨k' + k, fun hw => ?_⟩
    rw [← Nat.add_assoc]
    exact hk (hk' hw)

theorem conforms {v : Value} (hv : v.Conforms reg m.lists.next) :
    v.Conforms reg' m'.lists.next :=
  hv.mono h.registry h.looks.next

/-- What an expression means it goes on to mean. -/
theorem means_keeps {d : Nat} {e : Tree} {w : Value} (hw : m.means d e = some w) :
    m'.means d e = some w :=
  means_mono h.looks.lookup h.keeps hw

/-- What it means afterwards it has meant before, at some depth. -/
theorem means_adds {d : Nat} {e : Tree} {w : Value} (hw : m'.means d e = some w) :
    ∃ k, m.means k e = some w := by
  obtain ⟨k, hk⟩ := h.adds
  exact ⟨d + k, means_mono (fun name => (h.looks.lookup name).symm) hk hw⟩

end Later

end
end Machine

namespace Exec

open Machine (Fit Later Looks)

variable {m m' : Machine} {reg : Nat → List Value}

/-! ## Parts of an evaluation -/

theorem item_map {α β : Type} (f : α → β) (xs : List α) (n : Int) :
    Sequence.item (xs.map f) n = (Sequence.item xs n).map f := by
  simp only [Sequence.item, List.length_map, List.getElem?_map]
  generalize (if n < 0 then n + (xs.length : Int) else n) = p
  split
  · rfl
  · split
    · rfl
    · cases xs[p.toNat]? <;> rfl

theorem mem_of_item {α : Type} {xs : List α} {n : Int} {x : α} (h : Sequence.item xs n = .ok x) :
    x ∈ xs := by
  simp only [Sequence.item] at h
  generalize (if n < 0 then n + (xs.length : Int) else n) = p at h
  split at h
  · cases h
  · split at h
    · cases h
    · cases hx : xs[p.toNat]? with
      | none => simp [hx] at h
      | some y =>
        simp only [hx, Except.ok.injEq] at h
        exact h ▸ List.mem_of_getElem? hx

section

variable (hm : m.Fit reg) {u v : Value} (hu : u.Conforms reg m.lists.next)
include hm hu

/-- An item of a list is that of its shape. -/
theorem item_eq_ok {w : Value} (h : item u v m = .ok w m') :
    m' = m ∧ w.Conforms reg m.lists.next ∧ u.shape.itemAt? v.shape = some w.shape := by
  cases u with
  | list id items =>
    cases hn : v.whole? with
    | none =>
      simp only [item, hn] at h
      cases h
    | some n =>
      simp only [item, hn] at h
      rw [bind_of_ok (get_apply m), hm.fresh.contents] at h
      obtain ⟨hw, rfl⟩ := ofExcept_eq_ok.1 h
      refine ⟨rfl, Value.conformAll_iff.1 hu.2.2 w (mem_of_item hw), ?_⟩
      simp only [Value.shape, Value.itemAt?, Value.whole?_shape, hn, Value.shapes_eq_map, item_map,
        hw]
      rfl
  | _ =>
    obtain ⟨_, _, _, h⟩ := bind_eq_ok.1 h
    cases h

theorem item_ok {w : Value} (h : u.shape.itemAt? v.shape = some w) :
    ∃ w', item u v m = .ok w' m := by
  cases u with
  | list id items =>
    simp only [Value.shape, Value.itemAt?, Value.whole?_shape, Value.shapes_eq_map] at h
    cases hn : v.whole? with
    | none => simp [hn] at h
    | some n =>
      simp only [hn, item_map] at h
      cases hw : Sequence.item items n with
      | error e => simp [hw, Except.map, Except.toOption] at h
      | ok w' =>
        refine ⟨w', ?_⟩
        simp only [item, hn]
        rw [bind_of_ok (get_apply m), hm.fresh.contents, hw]
        rfl
  | _ => cases h

omit hu in
/-- The length of a value is that of its shape. -/
theorem lengthOf_eq_ok {w : Value} :
    lengthOf u m = .ok w m' ↔ m' = m ∧ u.shape.length? = some w := by
  cases u with
  | text s => simp [lengthOf, Value.shape, Value.length?, eq_comm, and_comm]
  | list id items =>
    simp only [lengthOf, bind_of_ok (get_apply m), hm.fresh.contents, Value.shape, Value.length?,
      Value.length_shapes, pure_apply, EStateM.Result.ok.injEq, Option.some.injEq]
    rw [eq_comm (a := m), and_comm]
  | _ => simp [lengthOf, fail, Value.shape, Value.length?]

end

theorem int_of_length? {v w : Value} (h : v.length? = some w) : ∃ n, w = .int n := by
  cases v <;> cases h <;> exact ⟨_, rfl⟩

/-- Two whole numbers are combined as words. -/
theorem apply_of_words {op : Op} {u v : Value} {a b : Int} (hu : u.whole? = some a)
    (hv : v.whole? = some b) : apply op u v m = .ok (.int (op.onWords a b)) m := by
  simp only [apply, hu, hv]
  rfl

theorem apply_of_values {op : Op} {u v : Value} (h : u.whole? = none ∨ v.whole? = none) :
    apply op u v m =
      ofExcept (op.onValues { m.lists with next := m.lists.next + 1 } m.lists.next u v)
        { m with lists := { m.lists with next := m.lists.next + 1 } } := by
  have hmatch : apply op u v = (do
      let new ← newId
      ofExcept (op.onValues (← get).lists new u v)) := by
    rw [apply]
    split
    · next a b ha hb => simp [ha, hb] at h
    · rfl
  rw [hmatch, bind_of_ok (newId_apply m), bind_of_ok (get_apply _)]

/-- Two values are words or they are not. -/
theorem words_or_values (u v : Value) :
    (∃ a b, u.whole? = some a ∧ v.whole? = some b) ∨ u.whole? = none ∨ v.whole? = none := by
  cases u.whole? <;> cases v.whole? <;> simp

theorem result?_of_words {op : Op} {u v : Value} {a b : Int} (hu : u.whole? = some a)
    (hv : v.whole? = some b) : op.result? u v = some (.int (op.onWords a b)) := by
  simp only [Op.result?, hu, hv]

theorem result?_of_values {op : Op} {u v : Value} (h : u.whole? = none ∨ v.whole? = none) :
    op.result? u v = (op.onShapes u v).toOption := by
  rw [Op.result?]
  split
  · next a b ha hb => simp [ha, hb] at h
  · rfl

section

variable (hm : m.Fit reg) {u v : Value} (hu : u.Conforms reg m.lists.next)
variable (hv : v.Conforms reg m.lists.next) {op : Op}
include hm hu hv

private theorem onValues_next (op : Op) (hvalues : u.whole? = none ∨ v.whole? = none) :
    ((op.onValues { m.lists with next := m.lists.next + 1 } m.lists.next u v).map
      Value.shape).toOption = op.result? u.shape v.shape := by
  have hfresh : Lists.Fresh { m.lists with next := m.lists.next + 1 } := hm.fresh
  rw [Value.onValues_shape hfresh hu hv,
    result?_of_values (by rwa [Value.whole?_shape, Value.whole?_shape])]

/-- The result of an operator is that on shapes; if it is a new list, it is entered in the
registry. -/
theorem apply_finds {w : Value} (h : apply op u v m = .ok w m') :
    ∃ reg', m.Later reg reg' m' ∧ w.Conforms reg' m'.lists.next ∧
      op.result? u.shape v.shape = some w.shape := by
  rcases words_or_values u v with ⟨a, b, ha, hb⟩ | hvalues
  · rw [apply_of_words ha hb] at h
    cases h
    refine ⟨reg, hm.refl, trivial, ?_⟩
    rw [result?_of_words (by rwa [Value.whole?_shape]) (by rwa [Value.whole?_shape])]
    rfl
  · have hshape := onValues_next hm hu hv op hvalues
    rw [apply_of_values hvalues] at h
    obtain ⟨hw, rfl⟩ := ofExcept_eq_ok.1 h
    have hfresh : Lists.Fresh { m.lists with next := m.lists.next + 1 } := hm.fresh
    obtain ⟨reg', hreg, hconforms⟩ := (Value.onValues_built hfresh.conform hu hv hw).register
    refine ⟨reg', hm.later (newId_looks.ok (newId_apply m)) rfl hreg, hconforms, ?_⟩
    rw [← hshape, hw]
    rfl

/-- An operator that has a result does not fail. -/
theorem apply_ok {w : Value} (h : op.result? u.shape v.shape = some w) :
    ∃ w' m', apply op u v m = .ok w' m' := by
  rcases words_or_values u v with ⟨a, b, ha, hb⟩ | hvalues
  · exact ⟨_, _, apply_of_words ha hb⟩
  · rw [← onValues_next hm hu hv op hvalues] at h
    rw [apply_of_values hvalues]
    cases hw : op.onValues { m.lists with next := m.lists.next + 1 } m.lists.next u v with
    | error e =>
      rw [hw] at h
      cases h
    | ok w' => exact ⟨w', _, rfl⟩

end

/-- Conforming values are no thunks, so an operator finds its operands as they are. -/
theorem operate_of_conforms {force : Nat → Exec Value} {op : Tree} {u v : Value} {next : Nat}
    (hu : u.Conforms reg next) (hv : v.Conforms reg next) :
    operate force op u v = match Op.ofTree? op with
      | some op => apply op u v
      | none => fail (.unknownOperator op) := by
  have hresolve {v : Value} (h : v.Conforms reg next) : resolve force v = pure v := by
    cases v with
    | thunk id => cases h
    | _ => rfl
  rewrite [operate, hresolve hu, hresolve hv, pure_bind, pure_bind]
  rfl

/-! ## Evaluating finds the meaning -/

/-- A step gives a value which something means, and changes no meanings. -/
structure Finds (x : Exec Value) (meaning : Machine → Nat → Option Value) : Prop where
  found : ∀ {reg m w m'}, m.Fit reg → x m = .ok w m' →
    ∃ reg', m.Later reg reg' m' ∧ w.Conforms reg' m'.lists.next ∧ ∃ k, meaning m k = some w.shape

theorem finds_pure {v : Value} {f : Machine → Nat → Option Value}
    (hv : ∀ reg next, v.Conforms reg next) (hf : ∀ m, f m 0 = some v.shape) : Finds (pure v) f := by
  refine ⟨fun {reg m w m'} hm h => ?_⟩
  cases h
  exact ⟨reg, hm.refl, hv _ _, 0, hf m⟩

theorem finds_throw {e : Fault} {f : Machine → Nat → Option Value} : Finds (throw e) f :=
  ⟨fun _ h => by cases h⟩

/-- Every expression is counted before anything else is done. -/
theorem finds_counted {x : Exec Value} {e : Tree} (hx : Finds x fun m k => m.means k e) :
    Finds (countEvaluation >>= fun _ => x) fun m k => m.means k e := by
  refine ⟨fun {reg m w m'} hm h => ?_⟩
  have hl : m.Later reg reg { m with evaluations := m.evaluations + 1 } :=
    hm.later (countEvaluation_looks.ok rfl) rfl fun _ _ => rfl
  obtain ⟨reg', hl', hw, k, hk⟩ := hx.found hl.fit h
  exact ⟨reg', hl.trans hl', hw, hl.means_adds hk⟩

section

variable {force : Nat → Exec Value} (hf : ∀ id, Finds (force id) fun m k => m.thunks k id)
include hf

/-- A name has the value that it means. -/
theorem lookup_finds (name : Name) :
    Finds (get >>= fun m => resolve? force (m.lookup name)) fun m k =>
      m.names (m.thunks k) name := by
  refine ⟨fun {reg m w m'} hm h => ?_⟩
  rw [bind_of_ok (get_apply m)] at h
  simp only [Machine.names]
  cases hv : m.lookup name with
  | none =>
    rw [hv] at h
    cases h
    exact ⟨reg, hm.refl, trivial, 0, rfl⟩
  | some v =>
    rw [hv] at h
    cases v with
    | thunk id => exact (hf id).found hm h
    | _ =>
      cases h
      rcases hm.bound hv with hc | ⟨id, -, hid⟩
      · exact ⟨reg, hm.refl, hc, 0, rfl⟩
      · cases hid

end

/-- The result of an operator on the values of two expressions. -/
theorem binary_finds {force : Nat → Exec Value} {x y : Exec Value} {left op right : Tree}
    (hx : Finds x fun m k => m.means k left) (hy : Finds y fun m k => m.means k right) :
    Finds (do
      let u ← x
      let v ← y
      if op.isText "index" then item u v else operate force op u v) fun m k =>
        m.means k (.tuple [left, op, right]) := by
  refine ⟨fun {reg m w m'} hm h => ?_⟩
  obtain ⟨u, m1, h1, h⟩ := bind_eq_ok.1 h
  obtain ⟨v, m2, h2, h⟩ := bind_eq_ok.1 h
  obtain ⟨reg1, hl1, hu, k1, hk1⟩ := hx.found hm h1
  obtain ⟨reg2, hl2, hv, k, hk⟩ := hy.found hl1.fit h2
  -- the right operand meant the same before the left one was evaluated, if at another depth
  obtain ⟨k2, hk2⟩ := hl1.means_adds hk
  have hl := hl1.trans hl2
  have hu2 := hl2.conforms hu
  have hleft : m.means (max k1 k2) left = some u.shape := Machine.means_of_le (by omega) hk1
  have hright : m.means (max k1 k2) right = some v.shape := Machine.means_of_le (by omega) hk2
  have hmeans : m.means (max k1 k2) (.tuple [left, op, right]) =
      if op.isText "index" then u.shape.itemAt? v.shape
      else (Op.ofTree? op).bind fun op => op.result? u.shape v.shape := by
    rw [Machine.means] at hleft hright
    rw [Machine.means, Tree.meaning, hleft, hright]
    rfl
  split at h
  · next hop =>
    obtain ⟨rfl, hw, hitem⟩ := item_eq_ok hl.fit hu2 h
    exact ⟨reg2, hl, hw, max k1 k2, hmeans.trans (by rw [if_pos hop, hitem])⟩
  · next hop =>
    rw [operate_of_conforms hu2 hv] at h
    cases ho : Op.ofTree? op with
    | none =>
      rw [ho] at h
      cases h
    | some o =>
      rw [ho] at h
      obtain ⟨reg3, hl3, hw, hresult⟩ := apply_finds hl.fit hu2 hv h
      refine ⟨reg3, hl.trans hl3, hw, max k1 k2, hmeans.trans ?_⟩
      rw [if_neg hop, ho]
      exact hresult

/-- The meanings of expressions are those of a list of them. -/
theorem means_cons {d : Nat} {e : Tree} {rest : List Tree} {v : Value} {vs : List Value}
    (he : m.means d e = some v) (hrest : m.means d (.list rest) = some (.list 0 vs)) :
    m.means d (.list (e :: rest)) = some (.list 0 (v :: vs)) := by
  rw [Machine.means] at he
  rw [Machine.means, Tree.meaning, Option.map_eq_some_iff] at hrest ⊢
  obtain ⟨ws, hws, heq⟩ := hrest
  cases heq
  refine ⟨v :: vs, ?_, rfl⟩
  rw [Tree.meanings, he, hws]
  rfl

mutual

/-- Evaluating is right, if working out a thunk is. -/
theorem evaluateWith_finds {force : Nat → Exec Value}
    (hf : ∀ id, Finds (force id) fun m k => m.thunks k id) :
    ∀ e : Tree, Finds (evaluateWith force e) fun m k => m.means k e
  | .thunk _ => finds_counted finds_throw
  | .list es => finds_counted <| .mk fun {reg m w m'} hm h => by
    obtain ⟨vs, m1, h1, h⟩ := bind_eq_ok.1 h
    obtain ⟨reg1, hl, hvs, hk⟩ := evaluateItems_finds hf es hm h1
    cases h
    have hbuilt : (Value.list m1.lists.next vs).Built reg1 m1.lists.next m1.lists.next :=
      .inr ⟨vs, rfl, hvs⟩
    obtain ⟨reg', hreg, hconforms⟩ := hbuilt.register
    exact ⟨reg', hl.trans (hl.fit.later (newId_looks.ok (newId_apply m1)) rfl hreg), hconforms, hk⟩
  | .tuple [left, op, right] => finds_counted
    (binary_finds (evaluateWith_finds hf left) (evaluateWith_finds hf right))
  | .tuple [first, e] => finds_counted <| .mk fun {reg m w m'} hm h => by
    split at h
    · next hlen =>
      obtain ⟨v, m1, h1, h⟩ := bind_eq_ok.1 h
      obtain ⟨reg1, hl, hv, k, hk⟩ := (evaluateWith_finds hf e).found hm h1
      obtain ⟨rfl, hw⟩ := (lengthOf_eq_ok hl.fit).1 h
      obtain ⟨n, rfl⟩ := int_of_length? hw
      refine ⟨reg1, hl, trivial, k, ?_⟩
      rw [Machine.means] at hk
      rw [Machine.means, Tree.meaning, if_pos hlen, hk]
      exact hw
    · cases h
  | .tuple [] => finds_counted finds_throw
  | .tuple [_] => finds_counted finds_throw
  | .tuple (_ :: _ :: _ :: _ :: _) => finds_counted finds_throw
  | .int n => finds_counted (finds_pure (v := .int n) (fun _ _ => trivial) fun _ => rfl)
  | .bool b => finds_counted (finds_pure (v := .bool b) (fun _ _ => trivial) fun _ => rfl)
  | .text s => finds_counted <| .mk fun {reg m w m'} hm h => by
    simp only [Machine.means, Tree.meaning]
    split at h
    · next hs =>
      simp only [if_pos hs]
      cases h
      exact ⟨reg, hm.refl, trivial, 0, rfl⟩
    · next hs =>
      simp only [if_neg hs]
      exact (lookup_finds hf (.ofText s)).found hm h
  | .none => finds_counted finds_throw
  | .float _ => finds_counted finds_throw

/-- The items of a list are evaluated from left to right. -/
theorem evaluateItems_finds {force : Nat → Exec Value}
    (hf : ∀ id, Finds (force id) fun m k => m.thunks k id) :
    ∀ (es : List Tree) {reg : Nat → List Value} {m m' : Machine} {ws : List Value}, m.Fit reg →
      evaluateItems force es m = .ok ws m' →
      ∃ reg', m.Later reg reg' m' ∧ Value.ConformAll reg' m'.lists.next ws ∧
        ∃ k, m.means k (.list es) = some (.list 0 (Value.shapes ws))
  | [], reg, m, m', ws, hm, h => by
    cases h
    exact ⟨reg, hm.refl, trivial, 0, rfl⟩
  | e :: rest, reg, m, m', ws, hm, h => by
    obtain ⟨v, m1, h1, h⟩ := bind_eq_ok.1 h
    obtain ⟨vs, m2, h2, h⟩ := bind_eq_ok.1 h
    cases h
    obtain ⟨reg1, hl1, hv, k1, hk1⟩ := (evaluateWith_finds hf e).found hm h1
    obtain ⟨reg2, hl2, hvs, k, hk⟩ := evaluateItems_finds hf rest hl1.fit h2
    obtain ⟨k2, hk2⟩ := hl1.means_adds hk
    refine ⟨reg2, hl1.trans hl2, ⟨hl2.conforms hv, hvs⟩, max k1 k2, ?_⟩
    exact means_cons (Machine.means_of_le (by omega) hk1) (Machine.means_of_le (by omega) hk2)

end

/-- A thunk is given the value that it means. -/
theorem forceWithin_finds : ∀ depth id, Finds (forceWithin depth id) fun m k => m.thunks k id
  | 0, _ => finds_throw
  | depth + 1, id => by
    refine ⟨fun {reg m w m'} hm h => ?_⟩
    have hlooks := (forceWithin_looks (depth + 1) id).ok h
    cases ht : m.heap[id]? with
    | none =>
      rw [forceWithin_of_none ht] at h
      cases h
      exact ⟨reg, hm.refl, trivial, 1, Machine.thunks_of_none ht⟩
    | some t =>
      obtain ⟨e, _ | v⟩ := t
      · rw [forceWithin_succ ht] at h
        obtain ⟨v, mid, h1, h2⟩ := bind_eq_ok.1 h
        obtain ⟨reg', hl, hv, k, hk⟩ :=
          (evaluateWith_finds (forceWithin_finds depth) e).found hm h1
        have hid : id < mid.heap.size := by
          rw [hl.looks.heapSize]
          exact (Array.getElem?_eq_some_iff.1 ht).1
        have hthunk : m.thunks (k + 1) id = some v.shape :=
          (Machine.thunks_of_waiting ht).trans hk
        have hmid := hl.keeps hthunk
        cases h2
        have hlookup (name : Name) : Machine.lookup
            { mid with heap := mid.heap.modify id fun t => { t with value? := some w } } name =
              mid.lookup name := rfl
        -- The thunk is given the value that it means, so that no meaning is changed by it.
        refine ⟨reg', ⟨hlooks, hl.registry, ?_, fun hw => ?_, ?_⟩, hv, k + 1, hthunk⟩
        · refine hm.looks hlooks hl.registry fun {j e' u} hj => ?_
          rw [Array.getElem?_modify] at hj
          split at hj
          · obtain ⟨t, -, heq⟩ := Option.map_eq_some_iff.1 hj
            cases heq
            exact hv
          · exact hl.fit.worked hj
        · exact Machine.thunks_settle rfl hid hlookup hmid (hl.keeps hw)
        · obtain ⟨k', hk'⟩ := hl.adds
          refine ⟨(k + 1) + k', fun hw => ?_⟩
          rw [← Nat.add_assoc]
          exact hk' (Machine.thunks_of_settle rfl hid hlookup hmid hw)
      · rw [forceWithin_of_value ht] at h
        cases h
        exact ⟨reg, hm.refl, hm.worked ht, 1, Machine.thunks_of_value ht⟩

/-- **Evaluating gives the meaning of an expression, and leaves all meanings as they are.** -/
theorem evaluate_finds (e : Tree) : Finds (evaluate e) fun m k => m.means k e :=
  ⟨fun hm h => (evaluateWith_finds (forceWithin_finds _) e).found hm h⟩

theorem force_finds (id : Nat) : Finds (force id) fun m k => m.thunks k id :=
  ⟨fun hm h => (forceWithin_finds _ id).found hm h⟩

theorem valueOfName_finds (name : Name) :
    Finds (valueOfName name) fun m k => m.names (m.thunks k) name :=
  lookup_finds force_finds name

/-! ## What has a meaning can be evaluated -/

/-- A step comes to its end if something has a meaning. -/
structure Reaches {α : Type} (x : Exec α) (meaning : Machine → Option Value) : Prop where
  reached : ∀ {reg m w}, m.Fit reg → meaning m = some w → ∃ a m', x m = .ok a m'

theorem reaches_of_none {α : Type} {x : Exec α} {e : Tree} {d : Nat}
    (he : ∀ names, e.meaning names = none) : Reaches x fun m => m.means d e :=
  ⟨fun {_ m _} _ h => by rw [Machine.means, he] at h; cases h⟩

theorem reaches_counted {x : Exec Value} {e : Tree} {d : Nat}
    (hx : Reaches x fun m => m.means d e) :
    Reaches (countEvaluation >>= fun _ => x) fun m => m.means d e := by
  refine ⟨fun {reg m w} hm h => ?_⟩
  have hl : m.Later reg reg { m with evaluations := m.evaluations + 1 } :=
    hm.later (countEvaluation_looks.ok rfl) rfl fun _ _ => rfl
  exact hx.reached hl.fit (hl.means_keeps h)

theorem lookup_reaches {force : Nat → Exec Value} {d : Nat}
    (hf : ∀ id, Reaches (force id) fun m => m.thunks d id) (name : Name) :
    Reaches (get >>= fun m => resolve? force (m.lookup name)) fun m =>
      m.names (m.thunks d) name := by
  refine ⟨fun {reg m w} hm h => ?_⟩
  rw [bind_of_ok (get_apply m)]
  rw [Machine.names] at h
  cases hv : m.lookup name with
  | none => exact ⟨_, _, rfl⟩
  | some v =>
    rw [hv] at h
    cases v with
    | thunk id => exact (hf id).reached hm h
    | _ => exact ⟨_, _, rfl⟩

theorem binary_reaches {force : Nat → Exec Value} {x y : Exec Value} {left op right : Tree}
    {d : Nat}
    (hx : Finds x fun m k => m.means k left) (hy : Finds y fun m k => m.means k right)
    (hx' : Reaches x fun m => m.means d left) (hy' : Reaches y fun m => m.means d right) :
    Reaches (do
      let u ← x
      let v ← y
      if op.isText "index" then item u v else operate force op u v) fun m =>
        m.means d (.tuple [left, op, right]) := by
  refine ⟨fun {reg m w} hm h => ?_⟩
  rw [Machine.means, Tree.meaning] at h
  obtain ⟨a, ha, h⟩ := Option.bind_eq_some_iff.1 h
  obtain ⟨b, hb, h⟩ := Option.bind_eq_some_iff.1 h
  obtain ⟨u, m1, h1⟩ := hx'.reached hm ha
  obtain ⟨reg1, hl1, hu, k1, hk1⟩ := hx.found hm h1
  obtain ⟨v, m2, h2⟩ := hy'.reached hl1.fit (hl1.means_keeps hb)
  obtain ⟨reg2, hl2, hv, k2, hk2⟩ := hy.found hl1.fit h2
  obtain rfl : u.shape = a := Machine.means_unique hk1 ha
  obtain rfl : v.shape = b := Machine.means_unique hk2 (hl1.means_keeps hb)
  have hu2 := hl2.conforms hu
  rw [bind_of_ok h1, bind_of_ok h2]
  split
  · next hop =>
    rw [if_pos hop] at h
    obtain ⟨w', hw'⟩ := item_ok hl2.fit hu2 h
    exact ⟨w', _, hw'⟩
  · next hop =>
    rw [if_neg hop] at h
    obtain ⟨o, ho, h⟩ := Option.bind_eq_some_iff.1 h
    rw [operate_of_conforms hu2 hv, ho]
    exact apply_ok hl2.fit hu2 hv h

mutual

/-- Evaluating is complete, if working out a thunk is. -/
theorem evaluateWith_reaches {force : Nat → Exec Value} {d : Nat}
    (hf : ∀ id, Finds (force id) fun m k => m.thunks k id)
    (hr : ∀ id, Reaches (force id) fun m => m.thunks d id) :
    ∀ e : Tree, Reaches (evaluateWith force e) fun m => m.means d e
  | .thunk _ => reaches_of_none fun _ => rfl
  | .list es => reaches_counted <| .mk fun {reg m w} hm h => by
    obtain ⟨vs, m1, h1⟩ := (evaluateItems_reaches hf hr es).reached hm h
    exact ⟨_, _, bind_of_ok h1⟩
  | .tuple [left, op, right] => reaches_counted <|
    binary_reaches (evaluateWith_finds hf left) (evaluateWith_finds hf right)
      (evaluateWith_reaches hf hr left) (evaluateWith_reaches hf hr right)
  | .tuple [first, e] => reaches_counted <| .mk fun {reg m w} hm h => by
    rw [Machine.means, Tree.meaning] at h
    split at h
    · next hlen =>
      obtain ⟨a, ha, h⟩ := Option.bind_eq_some_iff.1 h
      obtain ⟨v, m1, h1⟩ := (evaluateWith_reaches hf hr e).reached hm ha
      obtain ⟨reg1, hl, hv, k, hk⟩ := (evaluateWith_finds hf e).found hm h1
      obtain rfl : v.shape = a := Machine.means_unique hk ha
      rw [if_pos hlen]
      exact ⟨_, _, (bind_of_ok h1).trans ((lengthOf_eq_ok hl.fit).2 ⟨rfl, h⟩)⟩
    · cases h
  | .tuple [] => reaches_of_none fun _ => rfl
  | .tuple [_] => reaches_of_none fun _ => rfl
  | .tuple (_ :: _ :: _ :: _ :: _) => reaches_of_none fun _ => rfl
  | .int n => .mk fun _ _ => ⟨_, _, rfl⟩
  | .bool b => .mk fun _ _ => ⟨_, _, rfl⟩
  | .text s => reaches_counted <| .mk fun {reg m w} hm h => by
    rw [Machine.means, Tree.meaning] at h
    split
    · exact ⟨_, _, rfl⟩
    · next hs =>
      rw [if_neg hs] at h
      exact (lookup_reaches hr (.ofText s)).reached hm h
  | .none => reaches_of_none fun _ => rfl
  | .float _ => reaches_of_none fun _ => rfl

theorem evaluateItems_reaches {force : Nat → Exec Value} {d : Nat}
    (hf : ∀ id, Finds (force id) fun m k => m.thunks k id)
    (hr : ∀ id, Reaches (force id) fun m => m.thunks d id) :
    ∀ es : List Tree, Reaches (evaluateItems force es) fun m => m.means d (.list es)
  | [] => .mk fun _ _ => ⟨_, _, rfl⟩
  | e :: rest => .mk fun {reg m w} hm h => by
    rw [Machine.means, Tree.meaning, Option.map_eq_some_iff] at h
    obtain ⟨ws, h, -⟩ := h
    obtain ⟨a, ha, h⟩ := Option.bind_eq_some_iff.1 h
    obtain ⟨as, has, -⟩ := Option.bind_eq_some_iff.1 h
    have hrest : m.means d (.list rest) = some (.list 0 as) := by
      rw [Machine.means, Tree.meaning, has]
      rfl
    obtain ⟨v, m1, h1⟩ := (evaluateWith_reaches hf hr e).reached hm ha
    obtain ⟨reg1, hl, -⟩ := (evaluateWith_finds hf e).found hm h1
    obtain ⟨vs, m2, h2⟩ :=
      (evaluateItems_reaches hf hr rest).reached hl.fit (hl.means_keeps hrest)
    exact ⟨_, _, (bind_of_ok h1).trans (bind_of_ok h2)⟩

end

/-- A thunk with a meaning at some depth is worked out within that depth. -/
theorem forceWithin_reaches : ∀ d id, Reaches (forceWithin d id) fun m => m.thunks d id
  | 0, _ => .mk fun _ h => by cases h
  | d + 1, id => by
    refine ⟨fun {reg m w} hm h => ?_⟩
    cases ht : m.heap[id]? with
    | none => exact ⟨_, _, forceWithin_of_none ht⟩
    | some t =>
      obtain ⟨e, _ | v⟩ := t
      · rw [Machine.thunks_of_waiting ht] at h
        obtain ⟨v, m1, h1⟩ :=
          (evaluateWith_reaches (forceWithin_finds d) (forceWithin_reaches d) e).reached hm h
        rw [forceWithin_succ ht, bind_of_ok h1]
        exact ⟨_, _, rfl⟩
      · exact ⟨_, _, forceWithin_of_value ht⟩

/-- **An expression that has a meaning within the size of the heap is evaluated without a
fault.** -/
theorem evaluate_reaches (e : Tree) : Reaches (evaluate e) fun m => m.means m.heap.size e :=
  ⟨fun hm h => (evaluateWith_reaches (forceWithin_finds _) (forceWithin_reaches _) e).reached hm h⟩

end Exec
end Retrace
