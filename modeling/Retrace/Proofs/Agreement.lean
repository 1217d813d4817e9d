import Retrace.Proofs.Step

/-!
# Two steps that end alike

The same statement is carried out twice: under two watches, or on two machines that differ in
something that does not matter.  The two steps *agree* if they have the same outcome, a result or a
fault, and if the machines are related afterwards.

`Agree R E m m' x y Q` says of the step `x` on the machine `m` and the step `y` on `m'`: if `x`
comes to its end so does `y`, with the same result, `Q` holds of the result and `R` of the machines;
if `x` stops with a fault so does `y`, with the same one, and `E` holds of the machines.  Since `x`
does one or the other, nothing is left open, and the relation may be turned around (`Agree.symm`).

There are two relations between machines, since a fault may come up in the midst of a change.  `R`
is what the next step may build on, and `E` is what remains to be said when there is no next step.
In a sequence `R` has to hold in between only, and so in the rule for sequences the same `E` stands
everywhere (`agree_bind`).

The start is two given machines, and not all pairs of machines that are related by `R`.  What a step
does often depends on a fact about the machine that was just found out, that a name is bound, say,
and such a fact is there at the place where the rule for the next step is applied.  For loops, where
the start has to be left open, the rules ask for all pairs themselves.

* `agree_pure`, `agree_throw`, `agree_bind`, …: one rule for each way to put steps together.
* `agree_inOrder`, `agree_iterate`: blocks and loops.

Where both steps start from one machine and leave one machine, `Matches m x y Q` says the same in
fewer words: the outcomes are equal, and `Q` holds of the result and of the machine.  It is an
equation with a postcondition.  The postcondition is what the steps that follow may build on, as two
steps may be equal on the machines that come up and on no others.

* `matches_pure`, `matches_bind`, …, `matches_inOrder`, `matches_iterate`: the same rules for it.
-/

set_option autoImplicit false

namespace Retrace
namespace Exec

variable {α β σ : Type}

/-- Two steps on two machines end alike. -/
structure Agree (R E : Machine → Machine → Prop) (m m' : Machine) (x y : Exec α) (Q : α → Prop) :
    Prop where
  ok : ∀ {a n}, x m = .ok a n → ∃ n', y m' = .ok a n' ∧ R n n' ∧ Q a
  error : ∀ {e n}, x m = .error e n → ∃ n', y m' = .error e n' ∧ E n n'

variable {R E : Machine → Machine → Prop} {m m' : Machine}

theorem Agree.imp {x y : Exec α} {P Q : α → Prop} (h : Agree R E m m' x y P)
    (hPQ : ∀ a, P a → Q a) : Agree R E m m' x y Q where
  ok hx := by
    obtain ⟨n', hy, hR, hP⟩ := h.ok hx
    exact ⟨n', hy, hR, hPQ _ hP⟩
  error hx := h.error hx

/-- Weaker relations may be claimed of the machines. -/
theorem Agree.mono {S F : Machine → Machine → Prop} {x y : Exec α} {Q : α → Prop}
    (h : Agree R E m m' x y Q) (hRS : ∀ {n n'}, R n n' → S n n')
    (hEF : ∀ {n n'}, E n n' → F n n') : Agree S F m m' x y Q where
  ok hx := by
    obtain ⟨n', hy, hR, hQ⟩ := h.ok hx
    exact ⟨n', hy, hRS hR, hQ⟩
  error hx := by
    obtain ⟨n', hy, hE⟩ := h.error hx
    exact ⟨n', hy, hEF hE⟩

/-- Agreement goes both ways. -/
theorem Agree.symm {x y : Exec α} {Q : α → Prop} (h : Agree R E m m' x y Q) :
    Agree (fun n' n => R n n') (fun n' n => E n n') m' m y x Q := by
  cases hx : x m with
  | ok a n =>
    obtain ⟨n', hy, hR, hQ⟩ := h.ok hx
    refine ⟨fun hy' => ?_, fun hy' => ?_⟩
    · rw [hy] at hy'
      cases hy'
      exact ⟨n, hx, hR, hQ⟩
    · rw [hy] at hy'
      cases hy'
  | error e n =>
    obtain ⟨n', hy, hE⟩ := h.error hx
    refine ⟨fun hy' => ?_, fun hy' => ?_⟩
    · rw [hy] at hy'
      cases hy'
    · rw [hy] at hy'
      cases hy'
      exact ⟨n, hx, hE⟩

/-- What is known of the result on the left may be added. -/
theorem Agree.and_left {x y : Exec α} {P Q : α → Prop} (h : Agree R E m m' x y Q)
    (hP : ∀ a n, x m = .ok a n → P a) : Agree R E m m' x y fun a => P a ∧ Q a where
  ok hx := by
    obtain ⟨n', hy, hR, hQ⟩ := h.ok hx
    exact ⟨n', hy, hR, hP _ _ hx, hQ⟩
  error hx := h.error hx

theorem agree_pure {a : α} {Q : α → Prop} (hR : R m m') (hQ : Q a) :
    Agree R E m m' (pure a) (pure a) Q where
  ok h := by
    cases h
    exact ⟨m', rfl, hR, hQ⟩
  error h := by cases h

theorem agree_throw {e : Fault} {Q : α → Prop} (hE : E m m') :
    Agree R E m m' (throw e) (throw e) Q where
  ok h := by cases h
  error h := by
    cases h
    exact ⟨m', rfl, hE⟩

/-- Two steps that have one outcome only. -/
theorem agree_of_apply {x y : Exec α} {a : α} {n n' : Machine} {Q : α → Prop}
    (hx : x m = .ok a n) (hy : y m' = .ok a n') (hR : R n n') (hQ : Q a) :
    Agree R E m m' x y Q where
  ok h := by
    rw [hx] at h
    cases h
    exact ⟨n', hy, hR, hQ⟩
  error h := by
    rw [hx] at h
    cases h

/-- Two steps that have one and the same fault only. -/
theorem agree_of_error {x y : Exec α} {e : Fault} {n n' : Machine} {Q : α → Prop}
    (hx : x m = .error e n) (hy : y m' = .error e n') (hE : E n n') : Agree R E m m' x y Q where
  ok h := by
    rw [hx] at h
    cases h
  error h := by
    rw [hx] at h
    cases h
    exact ⟨n', hy, hE⟩

/-- Of the second step only those results of the first one count that it can have. -/
theorem agree_bind_of_ok {x y : Exec α} {f g : α → Exec β} {P : α → Prop} {Q : β → Prop}
    (hx : Agree R E m m' x y P)
    (hf : ∀ n n' a, x m = .ok a n → R n n' → P a → Agree R E n n' (f a) (g a) Q) :
    Agree R E m m' (x >>= f) (y >>= g) Q where
  ok h := by
    obtain ⟨a, mid, h1, h2⟩ := bind_eq_ok.1 h
    obtain ⟨mid', hy, hR, hP⟩ := hx.ok h1
    rw [bind_of_ok hy]
    exact (hf mid mid' a h1 hR hP).ok h2
  error h := by
    rw [bind_apply] at h
    split at h
    · next a mid h1 =>
      obtain ⟨mid', hy, hR, hP⟩ := hx.ok h1
      rw [bind_of_ok hy]
      exact (hf mid mid' a h1 hR hP).error h
    · next e mid h1 =>
      cases h
      obtain ⟨n', hy, hE⟩ := hx.error h1
      exact ⟨n', bind_of_error hy, hE⟩

/-- One step after another, if what follows agrees for all results. -/
theorem agree_bind {x y : Exec α} {f g : α → Exec β} {P : α → Prop} {Q : β → Prop}
    (hx : Agree R E m m' x y P)
    (hf : ∀ n n' a, R n n' → P a → Agree R E n n' (f a) (g a) Q) :
    Agree R E m m' (x >>= f) (y >>= g) Q :=
  agree_bind_of_ok hx fun n n' a _ => hf n n' a

/-- After a look at the machines steps may depend on what was seen. -/
theorem agree_get_bind {f g : Machine → Exec α} {Q : α → Prop}
    (h : Agree R E m m' (f m) (g m') Q) : Agree R E m m' (get >>= f) (get >>= g) Q :=
  ⟨h.ok, h.error⟩

theorem agree_view_bind {v : Value} {f g : View → Exec α} {Q : α → Prop}
    (h : Agree R E m m' (f (m.lists.view v)) (g (m'.lists.view v)) Q) :
    Agree R E m m' (view v >>= f) (view v >>= g) Q :=
  ⟨h.ok, h.error⟩

theorem agree_ofExcept {r : Except Fault α} {Q : α → Prop} (hR : R m m') (hE : E m m')
    (hQ : ∀ a, r = .ok a → Q a) : Agree R E m m' (ofExcept r) (ofExcept r) Q := by
  cases r with
  | ok a => exact agree_pure hR (hQ a rfl)
  | error e => exact agree_throw hE

/-- For a result that may be a fault, only the steps after a good one count. -/
theorem agree_ofExcept_bind {r : Except Fault α} {f g : α → Exec β} {Q : β → Prop} (hE : E m m')
    (hf : ∀ a, r = .ok a → Agree R E m m' (f a) (g a) Q) :
    Agree R E m m' (ofExcept r >>= f) (ofExcept r >>= g) Q := by
  cases r with
  | ok a => exact ⟨(hf a rfl).ok, (hf a rfl).error⟩
  | error e => exact agree_throw hE

/-- The same choice on both sides. -/
theorem agree_ite {c : Prop} [Decidable c] {x x' y y' : Exec α} {Q : α → Prop}
    (h : c → Agree R E m m' x y Q) (h' : ¬c → Agree R E m m' x' y' Q) :
    Agree R E m m' (if c then x else x') (if c then y else y') Q := by
  split
  · next hc => exact h hc
  · next hc => exact h' hc

/-- Statements one after the other. -/
theorem agree_inOrder {run run' : Tree → Exec Bool} {ts : List Tree} (hR : R m m')
    (hrun : ∀ t ∈ ts, ∀ m m', R m m' → Agree R E m m' (run t) (run' t) fun _ => True) :
    Agree R E m m' (inOrder run ts) (inOrder run' ts) fun _ => True := by
  induction ts generalizing m m' with
  | nil => exact agree_pure hR trivial
  | cons t rest ih =>
    refine agree_bind (hrun t (List.mem_cons_self ..) m m' hR) fun n n' b hn _ => ?_
    refine agree_ite (fun _ => ih hn fun u hu => ?_) fun _ => agree_pure hn trivial
    exact hrun u (List.mem_cons_of_mem _ hu)

/-- What a pass of a loop answers: what to go on with, or the end. -/
def HandsOn (I : σ → Prop) : σ ⊕ Bool → Prop
  | .inl s => I s
  | .inr _ => True

/-- A loop, with an invariant of what the passes go on with. -/
theorem agree_iterate {pass pass' : σ → Exec (σ ⊕ Bool)} {I : σ → Prop}
    (hE : ∀ {m m'}, R m m' → E m m')
    (hpass : ∀ m m' s, R m m' → I s → Agree R E m m' (pass s) (pass' s) (HandsOn I)) :
    ∀ n m m' s, R m m' → I s →
      Agree R E m m' (iterate pass n s) (iterate pass' n s) fun _ => True
  | 0, _, _, _, hR, _ => agree_throw (hE hR)
  | k + 1, m, m', s, hR, hI => by
    refine agree_bind (hpass m m' s hR hI) fun n n' r hn hr => ?_
    cases r with
    | inl s' => exact agree_iterate hE hpass k n n' s' hn hr
    | inr b => exact agree_pure hn trivial

/-! ## Two steps on one machine -/

/-- Two steps have the same outcome on a machine, and something holds if they come to their
ends. -/
structure Matches (m : Machine) (x y : Exec α) (Q : α → Machine → Prop) : Prop where
  same : x m = y m
  ok : ∀ {a n}, y m = .ok a n → Q a n

theorem Matches.imp {x y : Exec α} {P Q : α → Machine → Prop} (h : Matches m x y P)
    (hPQ : ∀ a n, P a n → Q a n) : Matches m x y Q :=
  ⟨h.same, fun hy => hPQ _ _ (h.ok hy)⟩

theorem matches_refl {x : Exec α} {Q : α → Machine → Prop}
    (h : ∀ {a n}, x m = .ok a n → Q a n) : Matches m x x Q :=
  ⟨rfl, h⟩

theorem matches_pure {a : α} {Q : α → Machine → Prop} (h : Q a m) :
    Matches m (pure a) (pure a) Q :=
  matches_refl fun hok => by
    cases hok
    exact h

theorem matches_throw {e : Fault} {Q : α → Machine → Prop} :
    Matches m (throw e) (throw e) Q :=
  matches_refl nofun

/-- One step after another. -/
theorem matches_bind {x y : Exec α} {f g : α → Exec β} {P : α → Machine → Prop}
    {Q : β → Machine → Prop} (hx : Matches m x y P)
    (hf : ∀ a n, P a n → Matches n (f a) (g a) Q) : Matches m (x >>= f) (y >>= g) Q where
  same := bind_congr_at hx.same fun a n hy => (hf a n (hx.ok hy)).same
  ok h := by
    obtain ⟨a, mid, hy, hg⟩ := bind_eq_ok.1 h
    exact (hf a mid (hx.ok hy)).ok hg

/-- Steps that start with the same look, or with the same change that always succeeds. -/
theorem matches_bind_of_ok {x : Exec α} {a : α} {n : Machine} {f g : α → Exec β}
    {Q : β → Machine → Prop} (hx : x m = .ok a n) (hf : Matches n (f a) (g a) Q) :
    Matches m (x >>= f) (x >>= g) Q := by
  refine matches_bind (P := fun b k => b = a ∧ k = n) (matches_refl fun h => ?_) ?_
  · rw [hx] at h
    cases h
    exact ⟨rfl, rfl⟩
  · rintro _ _ ⟨rfl, rfl⟩
    exact hf

theorem matches_ofExcept_bind {r : Except Fault α} {f g : α → Exec β} {Q : β → Machine → Prop}
    (hf : ∀ a, r = .ok a → Matches m (f a) (g a) Q) :
    Matches m (ofExcept r >>= f) (ofExcept r >>= g) Q := by
  cases r with
  | ok a => exact matches_bind_of_ok (ofExcept_ok a m) (hf a rfl)
  | error e => exact matches_refl nofun

theorem matches_ite {c : Prop} [Decidable c] {x x' y y' : Exec α} {Q : α → Machine → Prop}
    (h : c → Matches m x y Q) (h' : ¬c → Matches m x' y' Q) :
    Matches m (if c then x else x') (if c then y else y') Q := by
  split
  · next hc => exact h hc
  · next hc => exact h' hc

/-- One step for each item, in order. -/
theorem matches_mapM {xs : List β} {f g : β → Exec α} {I : Machine → Prop} (hm : I m)
    (hf : ∀ x ∈ xs, ∀ m, I m → Matches m (f x) (g x) fun _ n => I n) :
    Matches m (xs.mapM f) (xs.mapM g) fun _ n => I n := by
  induction xs generalizing m with
  | nil => exact matches_pure hm
  | cons x rest ih =>
    rw [List.mapM_cons, List.mapM_cons]
    refine matches_bind (hf x (List.mem_cons_self ..) m hm) fun a n hn => ?_
    refine matches_bind (ih hn fun y hy => hf y (List.mem_cons_of_mem _ hy)) fun as k hk => ?_
    exact matches_pure hk

/-- Statements one after the other, each of which keeps an invariant. -/
theorem matches_inOrder {run run' : Tree → Exec Bool} {ts : List Tree} {I : Machine → Prop}
    (hrun : ∀ t ∈ ts, ∀ m, I m → Matches m (run t) (run' t) fun _ n => I n) (hm : I m) :
    Matches m (inOrder run ts) (inOrder run' ts) fun _ n => I n := by
  induction ts generalizing m with
  | nil => exact matches_pure hm
  | cons t rest ih =>
    refine matches_bind (hrun t (List.mem_cons_self ..) m hm) fun b n hn => ?_
    refine matches_ite (fun _ => ?_) fun _ => matches_pure hn
    exact ih (fun u hu => hrun u (List.mem_cons_of_mem _ hu)) hn

/-- A loop, with an invariant of the machine and of what the passes go on with. -/
theorem matches_iterate_carrying {pass pass' : σ → Exec (σ ⊕ Bool)} {I : σ → Machine → Prop}
    {J : Machine → Prop}
    (hpass : ∀ m s, I s m →
      Matches m (pass s) (pass' s) fun r n => r.elim (fun s => I s n) fun _ => J n)
    (n : Nat) (s : σ) (hm : I s m) :
    Matches m (iterate pass n s) (iterate pass' n s) fun _ n => J n := by
  induction n generalizing m s with
  | zero => exact matches_throw
  | succ n ih =>
    refine matches_bind (hpass m s hm) fun r k hk => ?_
    cases r with
    | inl s => exact ih s hk
    | inr b => exact matches_pure hk

/-- A loop, with an invariant that its passes keep. -/
theorem matches_iterate {pass pass' : σ → Exec (σ ⊕ Bool)} {I : Machine → Prop}
    (hpass : ∀ m s, I m → Matches m (pass s) (pass' s) fun _ n => I n) (n : Nat) (s : σ)
    (hm : I m) : Matches m (iterate pass n s) (iterate pass' n s) fun _ n => I n := by
  refine matches_iterate_carrying (I := fun _ m => I m) (fun m s hm => ?_) n s hm
  refine (hpass m s hm).imp fun r k hk => ?_
  cases r <;> exact hk

end Exec
end Retrace
