import Retrace.Machine.Statement

/-!
# Reasoning about steps

A step of a machine either comes to its end or stops with a fault, and there is a machine after it
in both cases.  A statement is a sequence of many steps, most of which change one part of the
machine or none.  Nothing that is proved of statements goes into the functions they are made of more
than once: each function has its lemma here or in a module that is about it, and proofs about larger
functions go by those.

Two kinds of statement about steps are used throughout.

* *What a step did, if it came to its end.*  `bind_eq_ok` takes a sequence of steps apart, and one
  lemma for each of the single changes says what the machine is after it.
* *What a step keeps.*  `KeepsOn C R x` says that `R` holds between the machine before the step `x`
  and the machine after it, also if the step stops with a fault of the sort `C`.

The first kind is for results: which value, which binding, which entry.  It follows a step along its
equations, and is about steps that end well.  The second kind is for everything that is true of all
statements, whatever they do.  There the equations are of no use, since a loop has as many as it has
passes; what counts is that `R` can be chained.  So the relation is put first: for one that holds
between a machine and itself and that can be chained (`Onward R`), what the parts of a step keep,
the step keeps, and all that is left to show is about single changes.

After a fault a machine may be in the midst of a change, with the old value recorded and the new one
not yet bound.  Some relations hold even then, and others only after steps that came to their end.
So the faults after which a relation is claimed are a parameter.  `Keeps R x` is the case that all
faults count, `KeepsOk R x` the case that none does, and what goes by the way in which steps are put
together is proved for both at once.

* `bind_eq_ok`, `bind_of_ok`, `bind_of_error`, `bind_congr_at`: sequences of steps.
* `put_apply`, `suspend_apply`, …: the single changes.
* `findPlace_of_contains`, `bindName_eq_ok`: binding a name.
* `KeepsOn`, `Onward` and the lemmas `keepsOn_…`: what steps keep, by how they are put together.
-/

set_option autoImplicit false

namespace Retrace
namespace Exec

variable {α β σ : Type}

/-! ## The monad, applied to a machine -/

@[simp] theorem pure_apply (a : α) (m : Machine) : (pure a : Exec α) m = .ok a m := rfl

@[simp] theorem throw_apply (e : Fault) (m : Machine) : (throw e : Exec α) m = .error e m := rfl

@[simp] theorem get_apply (m : Machine) : (get : Exec Machine) m = .ok m m := rfl

@[simp] theorem modify_apply (f : Machine → Machine) (m : Machine) :
    (modify f : Exec Unit) m = .ok () (f m) := rfl

/-- A sequence of two steps, applied to a machine. -/
theorem bind_apply (x : Exec α) (f : α → Exec β) (m : Machine) :
    (x >>= f) m = match x m with
      | .ok a m' => f a m'
      | .error e m' => .error e m' := by
  show EStateM.bind x f m = _
  unfold EStateM.bind
  cases x m <;> rfl

/-- A sequence of two steps comes to its end if both do. -/
theorem bind_eq_ok {x : Exec α} {f : α → Exec β} {m m' : Machine} {b : β} :
    (x >>= f) m = .ok b m' ↔ ∃ a mid, x m = .ok a mid ∧ f a mid = .ok b m' := by
  rw [bind_apply]
  cases h : x m with
  | ok a mid =>
    constructor
    · intro hf
      exact ⟨a, mid, rfl, hf⟩
    · rintro ⟨a', mid', hx, hf⟩
      cases hx
      exact hf
  | error e mid => simp

/-- If the first step comes to its end, the second one goes on from there. -/
theorem bind_of_ok {x : Exec α} {f : α → Exec β} {m mid : Machine} {a : α}
    (h : x m = .ok a mid) : (x >>= f) m = f a mid := by
  rw [bind_apply, h]

/-- If the first step stops, so does the sequence, with the same fault and the same machine. -/
theorem bind_of_error {x : Exec α} {f : α → Exec β} {m mid : Machine} {e : Fault}
    (h : x m = .error e mid) : (x >>= f) m = .error e mid := by
  rw [bind_apply, h]

/-- Sequences agree at a machine if their first steps do there, and their second ones do at what
these lead to. -/
theorem bind_congr_at {m : Machine} {x y : Exec α} {f g : α → Exec β} (h : x m = y m)
    (hfg : ∀ a n, y m = .ok a n → f a n = g a n) : (x >>= f) m = (y >>= g) m := by
  rw [bind_apply, bind_apply, h]
  split
  · next a n hy => exact hfg a n hy
  · rfl

/-- Statements of two lists are carried out one list after the other. -/
theorem forM_append_apply (xs ys : List α) (f : α → Exec Unit) (m : Machine) :
    (xs ++ ys).forM f m = (xs.forM f >>= fun _ => ys.forM f) m := by
  induction xs generalizing m with
  | nil => rfl
  | cons x rest ih =>
    show (f x >>= fun _ => (rest ++ ys).forM f) m =
      ((f x >>= fun _ => rest.forM f) >>= fun _ => ys.forM f) m
    rw [bind_apply, bind_apply, bind_apply]
    cases f x m with
    | ok _ mid => exact (ih mid).trans (bind_apply ..)
    | error _ _ => rfl

/-- A result that may be a fault changes nothing. -/
theorem ofExcept_eq_ok {r : Except Fault α} {m m' : Machine} {a : α} :
    ofExcept r m = .ok a m' ↔ r = .ok a ∧ m' = m := by
  cases r with
  | ok b => simp [ofExcept, eq_comm]
  | error e => simp [ofExcept]

@[simp] theorem ofExcept_ok (a : α) (m : Machine) : ofExcept (.ok a) m = .ok a m := rfl

@[simp] theorem ofExcept_error (e : Fault) (m : Machine) :
    (ofExcept (.error e) : Exec α) m = .error e m := rfl

/-! ## The single changes -/

@[simp] theorem countAssignment_apply (m : Machine) :
    countAssignment m = .ok () { m with assignments := m.assignments + 1 } := rfl

@[simp] theorem countEvaluation_apply (m : Machine) :
    countEvaluation m = .ok () { m with evaluations := m.evaluations + 1 } := rfl

@[simp] theorem countReversal_apply (m : Machine) :
    countReversal m = .ok () { m with reversals := m.reversals + 1 } := rfl

@[simp] theorem put_apply (writer : Writer) (s : String) (m : Machine) :
    put writer s m = .ok () { m with pieces := ⟨writer, s⟩ :: m.pieces } := rfl

@[simp] theorem suspend_apply (e : Tree) (m : Machine) :
    suspend e m = .ok (.thunk m.heap.size) { m with heap := m.heap.push { expression := e } } := rfl

@[simp] theorem settle_apply (id : Nat) (v : Value) (m : Machine) :
    settle id v m =
      .ok () { m with heap := m.heap.modify id fun t => { t with value? := some v } } := rfl

@[simp] theorem remember_apply (name : Name) (old : Value) (m : Machine) :
    remember name old m = .ok () { m with
      clock := m.clock.read.2
      history := m.history.push name old m.clock.read.1 } := rfl

@[simp] theorem takeBack_apply (name : Name) (m : Machine) :
    takeBack name m =
      .ok (m.history.pop name).1 { m with history := (m.history.pop name).2 } := rfl

@[simp] theorem newId_apply (m : Machine) :
    newId m = .ok m.lists.next
      { m with lists := { m.lists with next := m.lists.next + 1 } } := rfl

@[simp] theorem view_apply (v : Value) (m : Machine) : view v m = .ok (m.lists.view v) m := rfl

@[simp] theorem isTruthy_apply (v : Value) (m : Machine) :
    isTruthy v m = .ok (m.lists.isTruthy v) m := rfl

/-- A name that is bound already has a place. -/
theorem findPlace_of_contains {γ : Type} {t : Table Name γ} {name : Name}
    (h : t.contains name = true) : Name.findPlace t name = .ok () := by
  unfold Name.findPlace
  split
  · rfl
  · simp [h]

theorem bindName_apply (name : Name) (v : Value) (m : Machine) :
    bind name v m = match Name.findPlace m.bindings name with
      | .ok _ => .ok () { m with bindings := m.bindings.insert name v }
      | .error e => .error e m := by
  show (do ofExcept (Name.findPlace m.bindings name); _ : Exec Unit) m = _
  rw [bind_apply]
  cases Name.findPlace m.bindings name <;> rfl

/-- A name is bound exactly if it has a place, and then nothing else changes. -/
theorem bindName_eq_ok {name : Name} {v : Value} {m m' : Machine} :
    bind name v m = .ok () m' ↔
      Name.findPlace m.bindings name = .ok () ∧
        m' = { m with bindings := m.bindings.insert name v } := by
  rw [bindName_apply]
  cases Name.findPlace m.bindings name <;> simp [eq_comm]

@[simp] theorem evaluateWatched_unwatched (e : Tree) :
    evaluateWatched unwatched e = evaluate e := rfl

@[simp] theorem bindWatched_unwatched (name : Name) (v : Value) :
    bindWatched unwatched name v = bind name v := rfl

@[simp] theorem credit_apply (v : Value) (m : Machine) :
    credit v m = .ok () { m with memory := m.memory.credit (m.size m.lists v) } := rfl

/-- A charge that the limit does not allow leaves the machine as it was. -/
theorem charge_apply (v : Value) (m : Machine) :
    charge v m = match m.memory.charge (m.size m.lists v) with
      | .ok memory => .ok () { m with memory }
      | .error e => .error e m := by
  show (do let memory ← ofExcept (m.memory.charge (m.size m.lists v)); _ : Exec Unit) m = _
  rw [bind_apply]
  cases m.memory.charge (m.size m.lists v) <;> rfl

/-! ## What a step keeps -/

/-- The relation holds between the machines before and after the step, if the step comes to its end
or stops with a fault of the given sort. -/
structure KeepsOn (C : Fault → Prop) (R : Machine → Machine → Prop) (x : Exec α) : Prop where
  ok : ∀ {m m' a}, x m = .ok a m' → R m m'
  error : ∀ {m m' e}, C e → x m = .error e m' → R m m'

/-- The relation holds between the machines before and after the step, whatever happens. -/
abbrev Keeps (R : Machine → Machine → Prop) (x : Exec α) : Prop :=
  KeepsOn (fun _ => True) R x

/-- The relation holds between the machines before and after the step, if it comes to its end. -/
abbrev KeepsOk (R : Machine → Machine → Prop) (x : Exec α) : Prop :=
  KeepsOn (fun _ => False) R x

/-- A relation between a machine and what may become of it: it can be chained, and nothing need
become of a machine. -/
structure Onward (R : Machine → Machine → Prop) : Prop where
  refl : ∀ m, R m m
  trans : ∀ {a b c}, R a b → R b c → R a c

variable {C : Fault → Prop} {R : Machine → Machine → Prop}

/-- Less may be said of fewer faults. -/
theorem KeepsOn.mono {D : Fault → Prop} {S : Machine → Machine → Prop} {x : Exec α}
    (hx : KeepsOn C R x) (hD : ∀ e, D e → C e) (h : ∀ m m', R m m' → S m m') : KeepsOn D S x :=
  ⟨fun ho => h _ _ (hx.ok ho), fun hd he => h _ _ (hx.error (hD _ hd) he)⟩

/-- A step that has one outcome only. -/
theorem keepsOn_of_apply {x : Exec α} {f : Machine → α} {g : Machine → Machine}
    (hx : ∀ m, x m = .ok (f m) (g m)) (h : ∀ m, R m (g m)) : KeepsOn C R x := by
  constructor
  · intro m m' a hm
    rw [hx] at hm
    cases hm
    exact h m
  · intro m m' e _ hm
    rw [hx] at hm
    cases hm

/-- After a look at the machine a step may depend on what was seen. -/
theorem keepsOn_get_bind {f : Machine → Exec β}
    (hok : ∀ {m m' b}, f m m = .ok b m' → R m m')
    (herror : ∀ {m m' e}, C e → f m m = .error e m' → R m m') : KeepsOn C R (get >>= f) :=
  ⟨hok, herror⟩

theorem keepsOn_ite {c : Prop} [Decidable c] {x y : Exec α} (hx : KeepsOn C R x)
    (hy : KeepsOn C R y) : KeepsOn C R (if c then x else y) := by
  split
  · exact hx
  · exact hy

section Onward

variable (hR : Onward R)
include hR

theorem keepsOn_pure (a : α) : KeepsOn C R (pure a : Exec α) :=
  keepsOn_of_apply (pure_apply a) hR.refl

theorem keepsOn_get : KeepsOn C R (get : Exec Machine) :=
  keepsOn_of_apply get_apply hR.refl

theorem keepsOn_ofExcept (r : Except Fault α) : KeepsOn C R (ofExcept r) := by
  cases r with
  | ok a => exact keepsOn_pure hR a
  | error e => exact ⟨nofun, fun _ h => by cases h; exact hR.refl _⟩

theorem keepsOn_throw (e : Fault) : KeepsOn C R (throw e : Exec α) :=
  keepsOn_ofExcept hR (.error e)

/-- Of the second step only those results of the first one count that it can have. -/
theorem keepsOn_bind_of_ok {x : Exec α} {f : α → Exec β} (hx : KeepsOn C R x)
    (hf : ∀ {m mid a}, x m = .ok a mid → KeepsOn C R (f a)) : KeepsOn C R (x >>= f) := by
  constructor
  · intro m m' b h
    obtain ⟨a, mid, h1, h2⟩ := bind_eq_ok.1 h
    exact hR.trans (hx.ok h1) ((hf h1).ok h2)
  · intro m m' e he h
    rw [bind_apply] at h
    split at h
    · next a mid h1 => exact hR.trans (hx.ok h1) ((hf h1).error he h)
    · next e' mid h1 =>
      cases h
      exact hx.error he h1

/-- What two steps keep, their sequence keeps. -/
theorem keepsOn_bind {x : Exec α} {f : α → Exec β} (hx : KeepsOn C R x)
    (hf : ∀ a, KeepsOn C R (f a)) : KeepsOn C R (x >>= f) :=
  keepsOn_bind_of_ok hR hx fun _ => hf _

/-- For a result that may be a fault, only the step after a good one counts. -/
theorem keepsOn_ofExcept_bind {r : Except Fault α} {f : α → Exec β}
    (hf : ∀ a, r = .ok a → KeepsOn C R (f a)) : KeepsOn C R (ofExcept r >>= f) := by
  cases r with
  | ok a => exact hf a rfl
  | error e => exact keepsOn_throw hR e

/-- What every item of a list keeps, all of them keep, one after the other. -/
theorem keepsOn_mapM {xs : List β} {f : β → Exec α} (hf : ∀ x, KeepsOn C R (f x)) :
    KeepsOn C R (xs.mapM f) := by
  induction xs with
  | nil => exact keepsOn_pure hR []
  | cons x rest ih =>
    rw [List.mapM_cons]
    exact keepsOn_bind hR (hf x) fun _ => keepsOn_bind hR ih fun _ => keepsOn_pure hR _

/-- A loop keeps what each of its passes keeps. -/
theorem keepsOn_iterate {pass : σ → Exec (σ ⊕ Bool)} (hp : ∀ s, KeepsOn C R (pass s)) :
    ∀ n s, KeepsOn C R (iterate pass n s)
  | 0, _ => keepsOn_throw hR _
  | n + 1, s => by
    refine keepsOn_bind hR (hp s) fun r => ?_
    cases r with
    | inl s' => exact keepsOn_iterate hp n s'
    | inr b => exact keepsOn_pure hR b

/-- A block keeps what each of its statements keeps. -/
theorem keepsOn_inOrder {run : Tree → Exec Bool} {ts : List Tree}
    (hrun : ∀ t ∈ ts, KeepsOn C R (run t)) : KeepsOn C R (inOrder run ts) := by
  induction ts with
  | nil => exact keepsOn_pure hR true
  | cons t rest ih =>
    refine keepsOn_bind hR (hrun t (List.mem_cons_self ..)) fun b => ?_
    refine keepsOn_ite (ih fun u hu => ?_) (keepsOn_pure hR false)
    exact hrun u (List.mem_cons_of_mem _ hu)

end Onward
end Exec
end Retrace
