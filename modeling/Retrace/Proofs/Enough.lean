import Retrace.Proofs.Moments

/-!
# As many passes as are needed

Statements are carried out within a number of passes, and one that needs more stops with a fault.
If a statement comes to its end, more passes than it needs do not change anything.  So it can be
said what a statement does without saying how many passes it is given: `Ends t m b m'`, and of a
block `BlockEnds body m b m'`.

This is the way to speak of blocks of a loop.  The passes of a loop are carried out with one number,
and each of the statements in its block may need another one; to say that the block did this or that
for some number is to say it for every number that is at least as large, and the largest of finitely
many is as good as all.

The relation between two numbers of passes is `Completes x y`: where `x` comes to its end, `y` comes
to the same one.  It says nothing where `x` stops with a fault, since the fault may be that the
passes ran out.  It goes through sequences and choices, and so it is an instance of `Watching`,
which knows what a statement is made of.  What is left are the loops, in which the number of passes
is used twice: for the loop itself, and for the statements in its block.

Two more facts are had from the same source and are needed where loops are taken apart.  A name that
is bound stays bound, whatever a statement does, and a list only grows.

* `Completes x y`: where the step `x` comes to its end, `y` comes to the same one.
* `perform_completes`: a statement with more passes completes the same statement with less.
* `Ends`, `BlockEnds`: what a statement or a block does, given passes enough.
* `BlockEnds.keeps`: names that are bound stay bound, and lists only grow.
-/

set_option autoImplicit false

namespace Retrace
namespace Exec

variable {α β σ : Type} {watch : Watch} {run : Tree → Exec Bool}

/-! ## More passes -/

/-- Where `x` comes to its end, `y` comes to the same one. -/
def Completes {α : Type} (x y : Exec α) : Prop :=
  ∀ m a m', x m = .ok a m' → y m = .ok a m'

theorem completes_refl (x : Exec α) : Completes x x :=
  fun _ _ _ h => h

theorem Completes.trans {x y z : Exec α} (hxy : Completes x y) (hyz : Completes y z) :
    Completes x z :=
  fun m a m' h => hyz m a m' (hxy m a m' h)

/-- One step after another. -/
theorem completes_bind {x y : Exec α} {f g : α → Exec β} (hx : Completes x y)
    (hf : ∀ a, Completes (f a) (g a)) : Completes (x >>= f) (y >>= g) := by
  intro m b m' h
  obtain ⟨a, mid, hfirst, hrest⟩ := bind_eq_ok.1 h
  rw [bind_of_ok (hx m a mid hfirst)]
  exact hf a mid b m' hrest

/-- The parts of a statement, under one watch. -/
theorem watching_completes (watch : Watch) : Watching Completes watch watch where
  bind := completes_bind
  watched _ := completes_refl _
  looking _ := completes_refl _
  countAssignment := completes_refl _
  countReversal := completes_refl _
  put _ _ := completes_refl _
  suspend _ := completes_refl _
  charge _ := completes_refl _
  credit _ := completes_refl _
  remember _ _ := completes_refl _
  takeBack _ := completes_refl _
  binding _ _ := completes_refl _
  extending _ _ := completes_refl _
  prune := completes_refl _

/-- A loop that comes to its end may be given one more pass. -/
theorem iterate_completes (pass : σ → Exec (σ ⊕ Bool)) (n : Nat) (s : σ) :
    Completes (iterate pass n s) (iterate pass (n + 1) s) := by
  induction n generalizing s with
  | zero => exact fun _ _ _ h => by cases h
  | succ n ih =>
    refine completes_bind (completes_refl (pass s)) fun r => ?_
    cases r with
    | inl s' => exact ih s'
    | inr b => exact completes_refl _

theorem whileLoop_completes (n : Nat) (t : Tree) :
    Completes (whileLoop watch run n t) (whileLoop watch run (n + 1) t) := by
  refine completes_bind (completes_refl _) fun (_, condition, body) => ?_
  have hplain : Completes (plainLoop watch run n condition body)
      (plainLoop watch run (n + 1) condition body) := iterate_completes _ n ()
  dsimp only
  split
  · refine Watching.ite (completes_bind (completes_refl _) fun last => ?_) hplain
    exact iterate_completes _ n ()
  · exact hplain

theorem forLoop_completes (n : Nat) (t : Tree) :
    Completes (forLoop watch run n t) (forLoop watch run (n + 1) t) := by
  refine completes_bind (completes_refl _) fun (_, target, source, body) => ?_
  refine completes_bind (completes_refl _) fun first => Watching.ite ?_ ?_
  · refine completes_bind (completes_refl _) fun (_, start, stop, step) => ?_
    refine completes_bind (completes_refl _) fun first => ?_
    refine completes_bind (completes_refl _) fun last => ?_
    exact completes_bind (completes_refl _) fun stride => iterate_completes _ n first
  · split
    · exact completes_refl _
    · refine completes_bind (completes_refl _) fun v => ?_
      cases v with
      | list id items =>
        refine completes_bind (completes_refl _) fun b => ?_
        exact Watching.ite (iterate_completes _ n 0) (completes_refl _)
      | _ => exact completes_refl _

/-- Only loops count their passes. -/
theorem statement_completes (n : Nat) (t : Tree) :
    Completes (statement watch run n t) (statement watch run (n + 1) t) := by
  refine completes_bind (completes_refl _) fun tag => ?_
  cases Form.ofTree? tag with
  | none => exact completes_refl _
  | some form =>
    cases form with
    | forLoop => exact forLoop_completes n t
    | whileLoop => exact whileLoop_completes n t
    | _ => exact completes_refl _

/-- One pass more: for the loop, and by induction for the statements in its block. -/
theorem perform_completes_succ (n : Nat) (t : Tree) :
    Completes (perform watch n t) (perform watch (n + 1) t) := by
  induction n generalizing t with
  | zero => exact fun _ _ _ h => by cases h
  | succ n ih =>
    exact ((watching_completes watch).statement ih n t).trans (statement_completes n t)

/-- **A statement that comes to its end may be given more passes.** -/
theorem perform_completes {n k : Nat} (h : n ≤ k) (t : Tree) :
    Completes (perform watch n t) (perform watch k t) := by
  induction h with
  | refl => exact completes_refl _
  | step _ ih => exact ih.trans (perform_completes_succ _ t)

/-- A block with more passes. -/
theorem block_completes {n k : Nat} (h : n ≤ k) (body : Tree) :
    Completes (block (perform watch n) body) (block (perform watch k) body) :=
  (watching_completes watch).block (perform_completes h) body

/-! ## What statements and blocks do -/

/-- The statement takes the machine `m` to `m'`, if it is given enough passes.  The answer `b` is
whether it met no `break` that it left to others. -/
def Ends (t : Tree) (m : Machine) (b : Bool) (m' : Machine) : Prop :=
  ∃ n, perform unwatched n t m = .ok b m'

/-- The block takes the machine `m` to `m'`, if it is given enough passes.  The answer `b` is
whether it met no `break` that it left to others. -/
def BlockEnds (body : Tree) (m : Machine) (b : Bool) (m' : Machine) : Prop :=
  ∃ n, block (perform unwatched n) body m = .ok b m'

/-- From one machine a block comes to one end only. -/
theorem BlockEnds.unique {body : Tree} {m m₁ m₂ : Machine} {b₁ b₂ : Bool}
    (h₁ : BlockEnds body m b₁ m₁) (h₂ : BlockEnds body m b₂ m₂) : b₁ = b₂ ∧ m₁ = m₂ := by
  obtain ⟨n, hn⟩ := h₁
  obtain ⟨k, hk⟩ := h₂
  have hfirst := block_completes (Nat.le_max_left n k) body m b₁ m₁ hn
  have hsecond := block_completes (Nat.le_max_right n k) body m b₂ m₂ hk
  cases hfirst.symm.trans hsecond
  exact ⟨rfl, rfl⟩

/-! ## What statements keep -/

/-- Names that are bound stay bound. -/
def StaysBound (m m' : Machine) : Prop :=
  ∀ name, (m.lookup name).isSome = true → (m'.lookup name).isSome = true

/-- To allow everything is not to watch. -/
theorem guarded_true : guarded (fun _ _ => true) = unwatched := rfl

/-- Names that are bound stay so from one step to the next. -/
theorem onward_staysBound : Onward StaysBound where
  refl _ _ h := h
  trans h h' name hbound := h' name (h name hbound)

theorem staysBound_of_same {m m' : Machine} (h : m'.bindings = m.bindings) : StaysBound m m' := by
  intro name hbound
  rwa [Machine.lookup, h]

theorem modify_staysBound {f : Machine → Machine} (h : ∀ m, (f m).bindings = m.bindings) :
    KeepsOk StaysBound (modify f : Exec Unit) :=
  keepsOn_of_apply (modify_apply f) fun m => staysBound_of_same (h m)

theorem bind_staysBound (name : Name) (v : Value) : KeepsOk StaysBound (bind name v) := by
  refine ⟨fun {m m' _} h other hbound => ?_, nofun⟩
  obtain ⟨-, rfl⟩ := bindName_eq_ok.1 h
  show ((m.bindings.insert name v).get? other).isSome = true
  rw [Table.get?_insert]
  split
  · rfl
  · exact hbound

theorem charge_staysBound (v : Value) : KeepsOk StaysBound (charge v) := by
  refine keepsOn_bind onward_staysBound (keepsOn_get onward_staysBound) fun m => ?_
  refine keepsOn_bind onward_staysBound (keepsOn_ofExcept onward_staysBound _) fun memory => ?_
  exact modify_staysBound fun _ => rfl

theorem advance_staysBound (v stride : Value) :
    KeepsOk StaysBound (advance unwatched v stride) := by
  have hwatch : KeepsOk StaysBound (watchExtension unwatched v) := by
    cases v <;> exact keepsOn_pure onward_staysBound ()
  refine keepsOn_bind onward_staysBound hwatch fun _ => ?_
  refine keepsOn_bind onward_staysBound (keepsOn_get onward_staysBound) fun m => ?_
  refine keepsOn_bind onward_staysBound (keepsOn_ofExcept onward_staysBound _) fun (w, lists) => ?_
  refine keepsOn_bind onward_staysBound ?_ fun _ => keepsOn_pure onward_staysBound _
  exact modify_staysBound fun _ => rfl

theorem prune_staysBound : KeepsOk StaysBound prune := by
  refine ⟨fun {m m' _} h => ?_, nofun⟩
  obtain ⟨m₁, hprune, hstore, -⟩ := prune_ok m
  cases hprune.symm.trans h
  exact staysBound_of_same hstore.bindings

/-- The parts of a statement, of which only a binding has to do with names. -/
theorem watching_staysBound :
    Watching (fun {_} x _ => KeepsOk StaysBound x) unwatched unwatched where
  bind := keepsOn_bind onward_staysBound
  watched _ := keepsOn_pure onward_staysBound ()
  looking hx := hx.mono (fun _ _ => trivial) fun _ _ h => staysBound_of_same h.bindings
  countAssignment := modify_staysBound fun _ => rfl
  countReversal := modify_staysBound fun _ => rfl
  put _ _ := modify_staysBound fun _ => rfl
  suspend e := keepsOn_of_apply (suspend_apply e) fun _ => staysBound_of_same rfl
  charge := charge_staysBound
  credit v := keepsOn_of_apply (credit_apply v) fun _ => staysBound_of_same rfl
  remember name old := keepsOn_of_apply (remember_apply name old) fun _ => staysBound_of_same rfl
  takeBack name := keepsOn_of_apply (takeBack_apply name) fun _ => staysBound_of_same rfl
  binding := bind_staysBound
  extending := advance_staysBound
  prune := prune_staysBound

/-- No statement makes a name unbound. -/
theorem perform_staysBound (n : Nat) (t : Tree) : KeepsOk StaysBound (perform unwatched n t) :=
  watching_staysBound.perform n t

/-- No statement makes a list shorter, also if it fails. -/
theorem perform_precedes (n : Nat) (t : Tree) : Keeps Machine.Precedes (perform unwatched n t) := by
  rw [← guarded_true]
  exact ((watching_precedes fun _ _ h => h).perform n t).keeps

theorem keepsOn_block {C : Fault → Prop} {R : Machine → Machine → Prop} (hR : Onward R)
    (hrun : ∀ t, KeepsOn C R (run t)) (body : Tree) : KeepsOn C R (block run body) :=
  keepsOn_bind hR (keepsOn_ofExcept hR _) fun _ => keepsOn_inOrder hR fun t _ => hrun t

/-- A block keeps names bound, and lists only grow in it. -/
theorem BlockEnds.keeps {body : Tree} {m m' : Machine} {b : Bool} (h : BlockEnds body m b m') :
    StaysBound m m' ∧ ∀ id, m.lists.addedTo id <+: m'.lists.addedTo id := by
  obtain ⟨n, hn⟩ := h
  exact ⟨(keepsOn_block onward_staysBound (perform_staysBound n) body).ok hn,
    ((keepsOn_block onward_precedes (perform_precedes n) body).ok hn).grows⟩

end Exec
end Retrace
