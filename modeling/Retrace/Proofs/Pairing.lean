import Mathlib.Data.List.Forall2
import Retrace.Proofs.Evaluating
import Retrace.Proofs.Keeping
import Retrace.Run

/-!
# Two runs side by side

One program runs on two machines at the same time.  Expressions may be evaluated in different ways
on the two, and thunks worked out at different moments, so the numbers of lists differ, and so does
much of what is in the heaps.  But as long as conditions come to the same on both sides, the same
statements are carried out.

`Follows C S W x y Q` says of two steps: if `x` comes to its end on the left machine of the pair
`W`, then `y` comes to its end on the right one, and afterwards `S` holds of the two machines and
`Q` of the two results; or `y` stops with a fault of the sort `C`.  It is one-sided.  Nothing is
said if the left run stops, and this is used where one side puts a computation off that the other
one does at once and fails in.  With the sort `C` of all faults, it says of two runs that both come
to their ends what they have in common, and with none of them that the right run cannot fail.

The two sides have registries of their own, as they give their lists different numbers, and a pair
is two machines together with these.  What is said of results may depend on the registries, which
are extended on the way, so statements about pairs are kept when these are (`Pair.Le`).  Results are
compared by their shapes (`Pair.Twin`), and whatever is decided by looking at values is decided
alike for twins.

`Pairing` lists what has to be shown of an invariant `S` of pairs, and `Pairing.perform` is the
induction, in the same shape as the one for what a single run keeps.  The list has one entry for
each kind of statement without blocks, and not for each single change, since an assignment may take
different steps on the two sides and agree only as a whole.

* `Pair.Twin`: values that have the same shape.
* `Follows`, with one rule for each way to put steps together.
* `Pairing`: what statements without blocks have to do, from which all others are put together.
* `Pairing.perform`, `Pairing.statementsWatched`: statements and programs.
-/

set_option autoImplicit false

namespace Retrace

/-- Two machines side by side, each with a registry. -/
structure Pair where
  left : Machine
  right : Machine
  leftReg : Nat → List Value
  rightReg : Nat → List Value

namespace Pair

/-- The machines of a pair are fit. -/
structure Fit (W : Pair) : Prop where
  left : W.left.Fit W.leftReg
  right : W.right.Fit W.rightReg

/-- What conforms in the first pair conforms in the second one. -/
structure Le (W W' : Pair) : Prop where
  left : ∀ {v : Value}, v.Conforms W.leftReg W.left.lists.next →
    v.Conforms W'.leftReg W'.left.lists.next
  right : ∀ {v : Value}, v.Conforms W.rightReg W.right.lists.next →
    v.Conforms W'.rightReg W'.right.lists.next

/-- Two values of one shape. -/
structure Twin (W : Pair) (u v : Value) : Prop where
  left : u.Conforms W.leftReg W.left.lists.next
  right : v.Conforms W.rightReg W.right.lists.next
  shape : u.shape = v.shape

/-- Twins one by one. -/
def Twins (W : Pair) (us vs : List Value) : Prop :=
  List.Forall₂ W.Twin us vs

variable {W W' W'' : Pair}

theorem Le.refl (W : Pair) : W.Le W := ⟨fun h => h, fun h => h⟩

theorem Le.trans (h : W.Le W') (h' : W'.Le W'') : W.Le W'' :=
  ⟨fun hv => h'.left (h.left hv), fun hv => h'.right (h.right hv)⟩

/-- Twins stay twins while registries are extended. -/
theorem Twin.mono {u v : Value} (h : W.Twin u v) (hle : W.Le W') : W'.Twin u v :=
  ⟨hle.left h.left, hle.right h.right, h.shape⟩

theorem Twins.mono {us vs : List Value} (h : W.Twins us vs) (hle : W.Le W') : W'.Twins us vs :=
  h.imp fun _ _ h => h.mono hle

/-- The items of lists that are twins are twins. -/
theorem Twins.of_shapes : ∀ {us vs : List Value},
    Value.ConformAll W.leftReg W.left.lists.next us →
    Value.ConformAll W.rightReg W.right.lists.next vs → Value.shapes us = Value.shapes vs →
    W.Twins us vs
  | [], [], _, _, _ => .nil
  | _ :: _, _ :: _, ⟨hu, hus⟩, ⟨hv, hvs⟩, h =>
    .cons ⟨hu, hv, (List.cons.inj h).1⟩ (of_shapes hus hvs (List.cons.inj h).2)
  | [], _ :: _, _, _, h => nomatch h
  | _ :: _, [], _, _, h => nomatch h

theorem twins_text (ts : List Text) : W.Twins (ts.map .text) (ts.map .text) := by
  refine List.forall₂_same.2 fun v hv => ?_
  obtain ⟨t, -, rfl⟩ := List.mem_map.1 hv
  exact ⟨trivial, trivial, rfl⟩

end Pair

namespace Exec

variable {α β γ δ σ τ : Type}

/-- If the first step comes to its end on the left machine, so does the second one on the right
machine, or it stops with a fault of the given sort. -/
def Follows (C : Fault → Prop) (S : Pair → Prop) (W : Pair) (x : Exec α) (y : Exec β)
    (Q : Pair → α → β → Prop) : Prop :=
  ∀ a m, x W.left = .ok a m →
    (∃ b m' reg reg', y W.right = .ok b m' ∧ W.Le ⟨m, m', reg, reg'⟩ ∧ S ⟨m, m', reg, reg'⟩ ∧
      Q ⟨m, m', reg, reg'⟩ a b) ∨
    ∃ e m', C e ∧ y W.right = .error e m'

variable {C : Fault → Prop} {S : Pair → Prop} {W : Pair}

theorem Follows.imp {x : Exec α} {y : Exec β} {Q R : Pair → α → β → Prop}
    (h : Follows C S W x y Q) (hQR : ∀ W a b, Q W a b → R W a b) : Follows C S W x y R := by
  intro a m hx
  rcases h a m hx with ⟨b, m', reg, reg', hy, hle, hS, hQ⟩ | herror
  · exact .inl ⟨b, m', reg, reg', hy, hle, hS, hQR _ a b hQ⟩
  · exact .inr herror

/-- What is known of the result on the left may be added. -/
theorem Follows.and_left {x : Exec α} {y : Exec β} {Q : Pair → α → β → Prop} {P : α → Prop}
    (h : Follows C S W x y Q) (hP : ∀ a m, x W.left = .ok a m → P a) :
    Follows C S W x y fun W a b => P a ∧ Q W a b := by
  intro a m hx
  rcases h a m hx with ⟨b, m', reg, reg', hy, hle, hS, hQ⟩ | herror
  · exact .inl ⟨b, m', reg, reg', hy, hle, hS, hP a m hx, hQ⟩
  · exact .inr herror

/-- If every fault will do on the right, only runs count that come to their end on both sides. -/
theorem follows_of_both {x : Exec α} {y : Exec β} {Q : Pair → α → β → Prop}
    (h : ∀ a m b m', x W.left = .ok a m → y W.right = .ok b m' →
      ∃ reg reg', W.Le ⟨m, m', reg, reg'⟩ ∧ S ⟨m, m', reg, reg'⟩ ∧ Q ⟨m, m', reg, reg'⟩ a b) :
    Follows (fun _ => True) S W x y Q := by
  intro a m hx
  cases hy : y W.right with
  | ok b m' =>
    obtain ⟨reg, reg', hle, hS, hQ⟩ := h a m b m' hx hy
    exact .inl ⟨b, m', reg, reg', rfl, hle, hS, hQ⟩
  | error e m' => exact .inr ⟨e, m', trivial, rfl⟩

theorem follows_pure {a : α} {b : β} {Q : Pair → α → β → Prop} (hS : S W) (hQ : Q W a b) :
    Follows C S W (pure a) (pure b) Q := by
  intro a' m h
  cases h
  exact .inl ⟨b, W.right, W.leftReg, W.rightReg, rfl, .refl W, hS, hQ⟩

theorem follows_throw {e : Fault} {y : Exec β} {Q : Pair → α → β → Prop} :
    Follows C S W (throw e) y Q := by
  intro a m h
  cases h

/-- One step after another, with what the first ones have come to. -/
theorem follows_bind {x : Exec α} {y : Exec β} {f : α → Exec γ} {g : β → Exec δ}
    {Q : Pair → α → β → Prop} {R : Pair → γ → δ → Prop} (hx : Follows C S W x y Q)
    (hf : ∀ W', W.Le W' → S W' → ∀ a b, Q W' a b → Follows C S W' (f a) (g b) R) :
    Follows C S W (x >>= f) (y >>= g) R := by
  intro c m h
  obtain ⟨a, m1, h1, h2⟩ := bind_eq_ok.1 h
  rcases hx a m1 h1 with ⟨b, m1', reg, reg', hy, hle, hS, hQ⟩ | ⟨e, m', hC, hy⟩
  · rw [bind_of_ok hy]
    rcases hf _ hle hS a b hQ c m h2 with ⟨d, m', reg2, reg2', hg, hle', hS', hR⟩ | herror
    · exact .inl ⟨d, m', reg2, reg2', hg, hle.trans hle', hS', hR⟩
    · exact .inr herror
  · exact .inr ⟨e, m', hC, bind_of_error hy⟩

/-- After a look at the machines steps may depend on what was seen. -/
theorem follows_get_bind {f g : Machine → Exec α} {Q : Pair → α → α → Prop}
    (h : Follows C S W (f W.left) (g W.right) Q) : Follows C S W (get >>= f) (get >>= g) Q := by
  intro a m hx
  rw [bind_of_ok (get_apply W.left)] at hx
  rw [bind_of_ok (get_apply W.right)]
  exact h a m hx

theorem follows_view_bind {u v : Value} {f g : View → Exec α} {Q : Pair → α → α → Prop}
    (h : Follows C S W (f (W.left.lists.view u)) (g (W.right.lists.view v)) Q) :
    Follows C S W (view u >>= f) (view v >>= g) Q := by
  intro a m hx
  rw [bind_of_ok (view_apply u W.left)] at hx
  rw [bind_of_ok (view_apply v W.right)]
  exact h a m hx

/-- Results that may be faults, and are the same on both sides. -/
theorem follows_ofExcept {r : Except Fault α} (hS : S W) :
    Follows C S W (ofExcept r) (ofExcept r) fun _ a b => a = b := by
  cases r with
  | ok a => exact follows_pure hS rfl
  | error e => exact follows_throw

/-- For a result that may be a fault, only the steps after a good one count. -/
theorem follows_ofExcept_bind {r : Except Fault α} {f : α → Exec β} {g : α → Exec γ}
    {Q : Pair → β → γ → Prop} (hf : ∀ a, r = .ok a → Follows C S W (f a) (g a) Q) :
    Follows C S W (ofExcept r >>= f) (ofExcept r >>= g) Q := by
  cases r with
  | ok a => exact hf a rfl
  | error e => exact follows_throw

theorem follows_ite {c : Prop} [Decidable c] {x x' : Exec α} {y y' : Exec β}
    {Q : Pair → α → β → Prop} (h : c → Follows C S W x y Q) (h' : ¬c → Follows C S W x' y' Q) :
    Follows C S W (if c then x else x') (if c then y else y') Q := by
  split
  · next hc => exact h hc
  · next hc => exact h' hc

/-- Statements one after the other. -/
theorem follows_inOrder {run run' : Tree → Exec Bool} {ts : List Tree} (hS : S W)
    (hrun : ∀ t ∈ ts, ∀ W, S W → Follows C S W (run t) (run' t) fun _ a b => a = b) :
    Follows C S W (inOrder run ts) (inOrder run' ts) fun _ a b => a = b := by
  induction ts generalizing W with
  | nil => exact follows_pure hS rfl
  | cons t rest ih =>
    refine follows_bind (hrun t (List.mem_cons_self ..) W hS) fun W' _ hS' a b hab => ?_
    subst hab
    refine follows_ite (fun _ => ih hS' fun u hu => ?_) fun _ => follows_pure hS' rfl
    exact hrun u (List.mem_cons_of_mem _ hu)

/-- What two passes of a loop answer: what to go on with on both sides, or the same end. -/
def Passed (I : Pair → σ → τ → Prop) (W : Pair) : σ ⊕ Bool → τ ⊕ Bool → Prop
  | .inl s, .inl t => I W s t
  | .inr a, .inr b => a = b
  | _, _ => False

/-- A loop, with an invariant of what the passes go on with. -/
theorem follows_iterate {pass : σ → Exec (σ ⊕ Bool)} {pass' : τ → Exec (τ ⊕ Bool)}
    {I : Pair → σ → τ → Prop}
    (hpass : ∀ W s t, S W → I W s t → Follows C S W (pass s) (pass' t) (Passed I)) :
    ∀ n W s t, S W → I W s t →
      Follows C S W (iterate pass n s) (iterate pass' n t) fun _ a b => a = b
  | 0, _, _, _, _, _ => follows_throw
  | n + 1, W, s, t, hS, hI => by
    refine follows_bind (hpass W s t hS hI) fun W' _ hS' a b hab => ?_
    cases a with
    | inl s' =>
      cases b with
      | inl t' => exact follows_iterate hpass n W' s' t' hS' hab
      | inr b => cases hab
    | inr a =>
      cases b with
      | inl t' => cases hab
      | inr b => exact follows_pure hS' hab

/-! ## Looking at twins -/

section

variable (hS : S W) (hfit : W.Fit) {u v : Value} (htwin : W.Twin u v)
include hS hfit htwin

theorem isTruthy_follows :
    Follows C S W (isTruthy u) (isTruthy v) fun _ a b => a = b := by
  have h : W.left.lists.isTruthy u = W.right.lists.isTruthy v := by
    rw [Value.isTruthy_shape hfit.left.fresh, Value.isTruthy_shape hfit.right.fresh, htwin.shape]
  intro a m ha
  rw [isTruthy_apply] at ha
  cases ha
  exact .inl ⟨_, W.right, W.leftReg, W.rightReg, isTruthy_apply v _, .refl W, hS, h⟩

theorem shown_follows : Follows C S W (shown u) (shown v) fun _ a b => a = b := by
  have h : (W.left.lists.view u).shown = (W.right.lists.view v).shown := by
    rw [Value.shown_view hfit.left.fresh htwin.left, Value.shown_view hfit.right.fresh htwin.right,
      htwin.shape]
  refine follows_get_bind ?_
  rw [h]
  exact follows_ofExcept_bind fun s _ => follows_pure hS rfl

theorem printed_follows : Follows C S W (printed u) (printed v) fun _ a b => a = b := by
  have hshape := htwin.shape
  cases u with
  | text s =>
    cases v with
    | text t =>
      cases hshape
      exact follows_pure hS rfl
    | _ => cases hshape
  | _ =>
    cases v with
    | text t => cases hshape
    | _ => exact shown_follows hS hfit htwin

/-- Twins are ordered alike. -/
theorem isLess_follows {u' v' : Value} (htwin' : W.Twin u' v') :
    Follows C S W (isLess u u') (isLess v v') fun _ a b => a = b := by
  have h : (W.left.lists.view u).order .lt (W.left.lists.view u') =
      (W.right.lists.view v).order .lt (W.right.lists.view v') := by
    rw [Value.order_view hfit.left.fresh htwin.left htwin'.left,
      Value.order_view hfit.right.fresh htwin.right htwin'.right, htwin.shape, htwin'.shape]
  intro a m ha
  change ofExcept ((W.left.lists.view u).order .lt (W.left.lists.view u')) W.left = .ok a m at ha
  rw [h] at ha
  exact follows_ofExcept hS a m ha

end

/-! ## Statements -/

/-- What has to be shown of an invariant of pairs to see that statements of the sort `p` keep it
when they are carried out under the first watch on the left and under the second one on the
right. -/
structure Pairing (watch watch' : Watch) (C : Fault → Prop) (p : Tree → Prop)
    (S : Pair → Prop) : Prop where
  /-- Statements inside of such statements are of the same sort. -/
  inside : ∀ {t}, p t → ∀ s ∈ t.inner, p s
  fit : ∀ {W}, S W → W.Fit
  put : ∀ {W} writer s, S W → Follows C S W (put writer s) (put writer s) fun _ _ _ => True
  prune : ∀ {W}, S W → Follows C S W prune prune fun _ _ _ => True
  evaluate : ∀ {W} e, S W →
    Follows C S W (evaluateWatched watch e) (evaluateWatched watch' e) Pair.Twin
  assign : ∀ {W} t, p t → t.form? = some .assign → S W →
    Follows C S W (assign watch t) (assign watch' t) fun _ _ _ => True
  compound : ∀ {W} op t, p t → t.form? = some (.compound op) → S W →
    Follows C S W (compound watch op t) (compound watch' op t) fun _ _ _ => True
  reverse : ∀ {W} t, p t → t.form? = some .reverse → S W →
    Follows C S W (reverse watch t) (reverse watch' t) fun _ _ _ => True
  revtrace : ∀ {W} t, p t → t.form? = some .revtrace → S W →
    Follows C S W (revtrace watch t) (revtrace watch' t) fun _ _ _ => True
  drive : ∀ {W} t target name u v, p t → t.driven? = some target → Name.ofTree target = .ok name →
    S W → W.Twin u v →
    Follows C S W (bindWatched watch name u) (bindWatched watch' name v) fun _ _ _ => True
  increment : ∀ {W} t counter, p t → t.form? = some .whileLoop → S W →
    Follows C S W (increment watch counter) (increment watch' counter) fun _ _ _ => True
  advance : ∀ {W} t u u' v v', p t → t.form? = some .forLoop → S W → W.Twin u v → W.Twin u' v' →
    Follows C S W (advance watch u u') (advance watch' v v') Pair.Twin

namespace Pairing

variable {watch watch' : Watch} {p : Tree → Prop} (hp : Pairing watch watch' C p S)
include hp

/-- Values that are twins print the same. -/
theorem printedAll (es : List Tree) (hS : S W) :
    Follows C S W (printedAll watch es) (printedAll watch' es) fun _ a b => a = b := by
  induction es generalizing W with
  | nil => exact follows_pure hS rfl
  | cons e rest ih =>
    refine follows_bind (hp.evaluate e hS) fun W1 _ hS1 u v htwin => ?_
    refine follows_bind (printed_follows hS1 (hp.fit hS1) htwin) fun W2 _ hS2 s s' hs => ?_
    refine follows_bind (ih hS2) fun W3 _ hS3 ss ss' hss => ?_
    subst hs hss
    exact follows_pure hS3 rfl

/-- A statement that prints writes the same line on both sides. -/
theorem print (t : Tree) (hS : S W) :
    Follows C S W (print watch t) (print watch' t) fun _ _ _ => True := by
  refine follows_ofExcept_bind fun (_, values) _ => ?_
  refine follows_ofExcept_bind fun es _ => ?_
  refine follows_bind (hp.printedAll es hS) fun W1 _ hS1 ss ss' hss => ?_
  subst hss
  exact hp.put .print _ hS1

theorem chooseElif (no : Tree) (elifs : List Tree) (hS : S W) :
    Follows C S W (chooseElif watch no elifs) (chooseElif watch' no elifs) fun _ a b => a = b := by
  induction elifs generalizing W with
  | nil => exact follows_pure hS rfl
  | cons x rest ih =>
    refine follows_ofExcept_bind fun (condition, body) _ => ?_
    refine follows_bind (hp.evaluate condition hS) fun W1 _ hS1 u v htwin => ?_
    refine follows_bind (isTruthy_follows hS1 (hp.fit hS1) htwin) fun W2 _ hS2 b b' hb => ?_
    subst hb
    exact follows_ite (fun _ => follows_pure hS2 rfl) fun _ => ih hS2

theorem strideOf (step : Tree) (hS : S W) :
    Follows C S W (strideOf watch step) (strideOf watch' step) Pair.Twin :=
  follows_ite (fun _ => hp.evaluate step hS) fun _ =>
    follows_pure hS ⟨trivial, trivial, rfl⟩

/-- Several expressions, from left to right. -/
theorem evaluateAll (es : List Tree) (hS : S W) :
    Follows C S W (es.mapM (evaluateWatched watch)) (es.mapM (evaluateWatched watch'))
      Pair.Twins := by
  induction es generalizing W with
  | nil => exact follows_pure hS .nil
  | cons e rest ih =>
    rw [List.mapM_cons, List.mapM_cons]
    refine follows_bind (hp.evaluate e hS) fun W1 _ hS1 u v htwin => ?_
    refine follows_bind (ih hS1) fun W2 hle hS2 us vs htwins => ?_
    exact follows_pure hS2 (.cons (htwin.mono hle) htwins)

section Blocks

variable {run run' : Tree → Exec Bool} {t : Tree}
variable (hrun : ∀ s, p s → ∀ W, S W → Follows C S W (run s) (run' s) fun _ a b => a = b)
include hrun

/-- A block, if the statements inside of it are followed. -/
theorem block {body : Tree} (ht : p t) (hb : body ∈ t.blocks) (hS : S W) :
    Follows C S W (block run body) (block run' body) fun _ a b => a = b :=
  follows_ofExcept_bind fun _ hi =>
    follows_inOrder hS fun s hs W hS => hrun s (hp.inside ht s (Tree.mem_inner hb hi hs)) W hS

theorem branch (ht : p t) (hform : t.form? = some .branch) (hS : S W) :
    Follows C S W (branch watch run t) (branch watch' run' t) fun _ a b => a = b := by
  refine follows_ofExcept_bind fun (_, condition, yes, elifs, no) hparts => ?_
  refine follows_bind (hp.evaluate condition hS) fun W1 _ hS1 u v htwin => ?_
  refine follows_bind (isTruthy_follows hS1 (hp.fit hS1) htwin) fun W2 _ hS2 b b' hb => ?_
  subst hb
  have hyes := Tree.mem_blocks_yes hform hparts
  refine follows_ite (fun _ => hp.block hrun ht hyes hS2) fun _ => ?_
  refine follows_ofExcept_bind fun xs hxs => ?_
  have hchoose := (hp.chooseElif no xs hS2).and_left fun _ _ h => chooseElif_mem h
  refine follows_bind hchoose fun W3 _ hS3 chosen chosen' hchosen => ?_
  obtain ⟨hmem, rfl⟩ := hchosen
  exact hp.block hrun ht (Tree.mem_blocks_chosen hform hparts hxs hmem) hS3

theorem plainLoop (n : Nat) {condition body : Tree} (ht : p t) (hb : body ∈ t.blocks)
    (hS : S W) :
    Follows C S W (plainLoop watch run n condition body) (plainLoop watch' run' n condition body)
      fun _ a b => a = b := by
  refine follows_iterate (I := fun _ _ _ => True) (fun W _ _ hS _ => ?_) n W () () hS trivial
  refine follows_bind (hp.evaluate condition hS) fun W1 _ hS1 u v htwin => ?_
  refine follows_bind (isTruthy_follows hS1 (hp.fit hS1) htwin) fun W2 _ hS2 b b' hb' => ?_
  subst hb'
  refine follows_ite (fun _ => ?_) fun _ => follows_pure hS2 rfl
  refine follows_bind (hp.block hrun ht hb hS2) fun W3 _ hS3 c c' hc => ?_
  subst hc
  refine follows_pure hS3 ?_
  cases c <;> trivial

/-- Both loops test their counters alike, and step them. -/
theorem countingLoop (n : Nat) {counter stop body : Tree} (ht : p t) (hb : body ∈ t.blocks)
    (hform : t.form? = some .whileLoop) (hS : S W) :
    Follows C S W (countingLoop watch run n counter stop body)
      (countingLoop watch' run' n counter stop body) fun _ a b => a = b := by
  refine follows_bind (hp.evaluate stop hS) fun W0 _ hS0 last last' hlast => ?_
  -- the bound of the counter is a value that is kept from pass to pass
  refine follows_iterate (I := fun W _ _ => W.Twin last last') (fun W _ _ hS htwin => ?_) n W0 () ()
    hS0 hlast
  refine follows_bind (hp.evaluate counter hS) fun W1 hle1 hS1 u v huv => ?_
  have hlast1 := htwin.mono hle1
  refine follows_bind (isLess_follows hS1 (hp.fit hS1) huv hlast1) fun W2 hle2 hS2 b b' hb' => ?_
  subst hb'
  refine follows_ite (fun _ => ?_) fun _ => follows_pure hS2 rfl
  refine follows_bind (hp.block hrun ht hb hS2) fun W3 hle3 hS3 c c' hc => ?_
  subst hc
  refine follows_ite (fun _ => ?_) fun _ => follows_pure hS3 rfl
  refine follows_bind (hp.increment t counter ht hform hS3) fun W4 hle4 hS4 _ _ _ => ?_
  exact follows_pure hS4 (((hlast1.mono hle2).mono hle3).mono hle4)

theorem whileLoop (n : Nat) (ht : p t) (hform : t.form? = some .whileLoop) (hS : S W) :
    Follows C S W (whileLoop watch run n t) (whileLoop watch' run' n t) fun _ a b => a = b := by
  refine follows_ofExcept_bind fun (_, condition, body) hparts => ?_
  have hb := Tree.mem_blocks_whileLoop hform hparts
  dsimp only
  split
  · exact follows_ite (fun _ => hp.countingLoop hrun n ht hb hform hS) fun _ =>
      hp.plainLoop hrun n ht hb hS
  · exact hp.plainLoop hrun n ht hb hS

theorem forPass {target body : Tree} {u v : Value} (ht : p t) (hb : body ∈ t.blocks)
    (hd : t.driven? = some target) (hS : S W) (htwin : W.Twin u v) :
    Follows C S W (forPass watch run target body u) (forPass watch' run' target body v)
      fun _ a b => a = b := by
  refine follows_ofExcept_bind fun name hn => ?_
  refine follows_bind (hp.drive t target name u v ht hd hn hS htwin) fun W1 _ hS1 _ _ _ => ?_
  exact hp.block hrun ht hb hS1

theorem rangeLoop (n : Nat) {target range body : Tree} (ht : p t) (hb : body ∈ t.blocks)
    (hform : t.form? = some .forLoop) (hd : t.driven? = some target) (hS : S W) :
    Follows C S W (rangeLoop watch run n target range body)
      (rangeLoop watch' run' n target range body) fun _ a b => a = b := by
  refine follows_ofExcept_bind fun (_, start, stop, step) _ => ?_
  refine follows_bind (hp.evaluate start hS) fun W1 _ hS1 first first' hfirst => ?_
  refine follows_bind (hp.evaluate stop hS1) fun W2 hle2 hS2 last last' hlast => ?_
  refine follows_bind (hp.strideOf step hS2) fun W3 hle3 hS3 stride stride' hstride => ?_
  refine follows_iterate
    (I := fun W u v => W.Twin u v ∧ W.Twin last last' ∧ W.Twin stride stride')
    (fun W u v hS ⟨huv, hlast, hstride⟩ => ?_) n W3 first first' hS3
    ⟨(hfirst.mono hle2).mono hle3, hlast.mono hle3, hstride⟩
  refine follows_bind (isLess_follows hS (hp.fit hS) huv hlast) fun W4 hle4 hS4 b b' hb' => ?_
  subst hb'
  refine follows_ite (fun _ => ?_) fun _ => follows_pure hS4 rfl
  refine follows_bind (hp.forPass hrun ht hb hd hS4 (huv.mono hle4)) fun W5 hle5 hS5 c c' hc => ?_
  subst hc
  refine follows_ite (fun _ => ?_) fun _ => follows_pure hS5 rfl
  have hle := hle4.trans hle5
  refine follows_bind (hp.advance t u stride v stride' ht hform hS5 (huv.mono hle)
    (hstride.mono hle)) fun W6 hle6 hS6 w w' hw => ?_
  exact follows_pure hS6 ⟨hw, hlast.mono (hle.trans hle6), hstride.mono (hle.trans hle6)⟩

/-- A pass for each of the twins. -/
theorem eachLoop {target body : Tree} {us vs : List Value} (ht : p t) (hb : body ∈ t.blocks)
    (hd : t.driven? = some target) (hS : S W) (htwins : W.Twins us vs) :
    Follows C S W (eachLoop watch run target body us) (eachLoop watch' run' target body vs)
      fun _ a b => a = b := by
  induction us generalizing W vs with
  | nil =>
    cases htwins
    exact follows_pure hS rfl
  | cons u us ih =>
    cases htwins with
    | cons htwin htwins =>
      refine follows_bind (hp.forPass hrun ht hb hd hS htwin) fun W1 hle hS1 b b' hb' => ?_
      subst hb'
      exact follows_ite (fun _ => ih hS1 (Pair.Twins.mono htwins hle)) fun _ => follows_pure hS1 rfl

omit hrun in
/-- No list has grown, so there is nothing to go on with. -/
theorem laterLoop (n id id' : Nat) {target body : Tree} (hS : S W) :
    Follows C S W (laterLoop watch run n target body id) (laterLoop watch' run' n target body id')
      fun _ a b => a = b := by
  refine follows_iterate (I := fun _ _ _ => True) (fun W k k' hS _ => ?_) n W 0 0 hS trivial
  refine follows_get_bind ?_
  have hfit := hp.fit hS
  rw [hfit.left.fresh.addedTo, hfit.right.fresh.addedTo]
  exact follows_pure hS rfl

/-- The items of twins are twins, and the letters of a text are the same. -/
theorem itemLoop (n : Nat) {target source body : Tree} {u v : Value} (ht : p t)
    (hb : body ∈ t.blocks) (hd : t.driven? = some target) (hS : S W) (htwin : W.Twin u v) :
    Follows C S W (itemLoop watch run n target source body u)
      (itemLoop watch' run' n target source body v) fun _ a b => a = b := by
  have hshape := htwin.shape
  cases u with
  | list id items =>
    cases v with
    | list id' items' =>
      have htwins : W.Twins items items' :=
        .of_shapes htwin.left.2.2 htwin.right.2.2 (Value.list.inj hshape).2
      refine follows_bind (hp.eachLoop hrun ht hb hd hS htwins) fun W1 _ hS1 b b' hb' => ?_
      subst hb'
      exact follows_ite (fun _ => hp.laterLoop n id id' hS1) fun _ => follows_pure hS1 rfl
    | _ => cases hshape
  | text s =>
    cases v with
    | text s' =>
      cases hshape
      have htwins := W.twins_text s.letters
      refine follows_bind (hp.eachLoop hrun ht hb hd hS htwins) fun W1 _ hS1 _ _ _ => ?_
      exact follows_pure hS1 rfl
    | _ => cases hshape
  | _ => exact follows_throw

theorem forLoop (n : Nat) (ht : p t) (hform : t.form? = some .forLoop) (hS : S W) :
    Follows C S W (forLoop watch run n t) (forLoop watch' run' n t) fun _ a b => a = b := by
  refine follows_ofExcept_bind fun (_, target, source, body) hparts => ?_
  have hb := Tree.mem_blocks_forLoop hform hparts
  have hd := Tree.driven?_forLoop hform hparts
  refine follows_ofExcept_bind fun first _ => ?_
  refine follows_ite (fun _ => hp.rangeLoop hrun n ht hb hform hd hS) fun _ => ?_
  split
  · refine follows_bind (hp.evaluateAll _ hS) fun W1 _ hS1 us vs htwins => ?_
    refine follows_bind (hp.eachLoop hrun ht hb hd hS1 htwins) fun W2 _ hS2 _ _ _ => ?_
    exact follows_pure hS2 rfl
  · refine follows_bind (hp.evaluate _ hS) fun W1 _ hS1 u v htwin => ?_
    exact hp.itemLoop hrun n ht hb hd hS1 htwin

/-- One statement keeps the invariant if those inside of it do. -/
theorem statement (n : Nat) (ht : p t) (hS : S W) :
    Follows C S W (statement watch run n t) (statement watch' run' n t) fun _ a b => a = b := by
  have simple {x y : Exec Unit} (hxy : Follows C S W x y fun _ _ _ => True) :
      Follows C S W (simply x) (simply y) fun _ a b => a = b :=
    follows_bind hxy fun _ _ hS' _ _ _ => follows_pure hS' rfl
  refine follows_ofExcept_bind fun tag htag => ?_
  have hform := Tree.form?_of_head htag
  split
  · next h => exact simple (hp.assign t ht (hform.trans h) hS)
  · next op h => exact simple (hp.compound op t ht (hform.trans h) hS)
  · next h => exact simple (hp.reverse t ht (hform.trans h) hS)
  · next h => exact simple (hp.revtrace t ht (hform.trans h) hS)
  · next h => exact hp.branch hrun ht (hform.trans h) hS
  · next h => exact hp.forLoop hrun n ht (hform.trans h) hS
  · next h => exact hp.whileLoop hrun n ht (hform.trans h) hS
  · exact simple (hp.print t hS)
  · exact follows_pure hS rfl
  · exact follows_throw

end Blocks

/-- **A statement keeps the two machines in step if its parts do.** -/
theorem perform (n : Nat) {t : Tree} (ht : p t) (hS : S W) :
    Follows C S W (perform watch n t) (perform watch' n t) fun _ a b => a = b := by
  induction n generalizing t W with
  | zero => exact follows_throw
  | succ n ih => exact hp.statement (fun s hs W hS => ih hs hS) n ht hS

theorem topLevel (n : Nat) {t : Tree} (ht : p t) (hS : S W) :
    Follows C S W (Run.topLevel watch n t) (Run.topLevel watch' n t) fun _ _ _ => True := by
  refine follows_bind (Q := fun _ _ _ => True) ?_ fun W1 _ hS1 _ _ _ => hp.prune hS1
  refine follows_bind (hp.perform n ht hS) fun W1 _ hS1 b b' hb => ?_
  subst hb
  exact follows_ite (fun _ => follows_throw) fun _ => follows_pure hS1 trivial

/-- **What holds of two machines at the start of a program holds at its end**, if it comes to its
end on the left. -/
theorem statementsWatched (n : Nat) {program : List Tree} (hall : ∀ t ∈ program, p t)
    (hS : S W) {steps : List Machine} {m : Machine}
    (hleft : Run.statementsWatched watch n program W.left = (steps, none, m)) :
    (∃ steps' m' reg reg', Run.statementsWatched watch' n program W.right = (steps', none, m') ∧
      S ⟨m, m', reg, reg'⟩) ∨
    ∃ steps' e m', C e ∧
      Run.statementsWatched watch' n program W.right = (steps', some e, m') := by
  induction program generalizing W steps with
  | nil =>
    cases hleft
    exact .inl ⟨[], W.right, W.leftReg, W.rightReg, rfl, hS⟩
  | cons t rest ih =>
    rw [Run.statementsWatched] at hleft ⊢
    cases h1 : Run.topLevel watch n t W.left with
    | error e m1 => simp [h1] at hleft
    | ok _ m1 =>
      simp only [h1, Prod.mk.injEq] at hleft
      have hnext := hp.topLevel n (hall t (List.mem_cons_self ..)) hS _ _ h1
      rcases hnext with ⟨_, m1', reg, reg', h1', -, hS1, -⟩ | ⟨e, m', hC, h1'⟩
      · have hrest : Run.statementsWatched watch n rest m1 =
            ((Run.statementsWatched watch n rest m1).1, none, m) :=
          Prod.ext rfl (Prod.ext hleft.2.1 hleft.2.2)
        have hall' : ∀ u ∈ rest, p u := fun u hu => hall u (List.mem_cons_of_mem _ hu)
        rw [h1']
        rcases ih hall' hS1 hrest with ⟨steps', m', reg2, reg2', h2, hS2⟩ | ⟨steps', e, m', hC, h2⟩
        · exact .inl ⟨m1' :: steps', m', reg2, reg2', by simp [h2], hS2⟩
        · exact .inr ⟨m1' :: steps', e, m', hC, by simp [h2]⟩
      · rw [h1']
        exact .inr ⟨[], e, m', hC, rfl⟩

end Pairing
end Exec
end Retrace
