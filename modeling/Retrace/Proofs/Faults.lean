import Retrace.Proofs.Step
import Retrace.Run

/-!
# Which faults a running program stops with

All stages share one type of faults, but a running program does not raise those of the reader and of
the checker, and it looks no name up that has to be there.  So, apart from a `break` that no loop
takes up, the fault of a run tells of values, of memory, or of a tree that is no statement
(`Fault.isOfRun`).

The type of faults does not tell that, since the functions of all stages have it.  A function that
is shared by two stages could raise the fault of one in the other, and a fault that stands for a
mistake in a machine could come up in a run.  That neither happens is a fact about every function
that may fail, of which there are many, and most of them have nothing to do with each other.

So there is one predicate for results and one for steps.  `Honest r` says of a result that its
fault, if it has one, is of a run, and `StopsHonestly x` says it of a step, whatever the state
before it.  Both go through sequences and choices.  Then there is one lemma for each function that
may fail, in the order in which they are built up: numbers, views, templates, operators, trees and
names, expressions, statements.  A proof goes along the definition, and at each place where a fault
is raised it is enough to see which one it is.  Nothing is said of when a function fails, so that a
change of a function touches the lemma of that function alone.

Steps are of any state here, as profiles are made by steps on a state of their own.

A watch may stop a step, too.  The lemmas on statements ask of a watch that its own faults are of a
run, so that they apply to guards as well as to runs without a watch.

* `Fault.isOfRun`: the faults of running programs.
* `Honest`, `StopsHonestly`: results and steps with no other faults.
* `perform_stops`: statements.
* `Run.execute_stops`: whole runs, where a stray `break` is one fault more.
-/

set_option autoImplicit false

namespace Retrace

/-- Can the fault come up while a statement is carried out? -/
def Fault.isOfRun : Fault → Bool
  | .strayCharacter _ _ _ => false
  | .longNumeral _ => false
  | .unexpected _ => false
  | .endOfTokens => false
  | .check _ => false
  | .unbound _ => false
  | .notAThunk _ => false
  | .breakOutsideLoop => false
  | .missingFile _ => false
  | .notAFolder _ => false
  | .folderAsFile _ => false
  | .longPath _ => false
  | .nullInPath => false
  | .badHost => false
  | .missingSetting _ => false
  | _ => true

/-! ## Results -/

variable {α β : Type}

/-- If the result is a fault, it is one that can come up in a run. -/
def Honest (r : Except Fault α) : Prop :=
  ∀ e, r = .error e → e.isOfRun = true

theorem honest_ok {a : α} : Honest (.ok a : Except Fault α) :=
  nofun

theorem honest_error {e : Fault} (h : e.isOfRun = true) : Honest (.error e : Except Fault α) := by
  rintro _ ⟨⟩
  exact h

/-- One result after another. -/
theorem honest_bind {r : Except Fault α} {f : α → Except Fault β} (hr : Honest r)
    (hf : ∀ a, Honest (f a)) : Honest (r >>= f) := by
  cases r with
  | ok a => exact hf a
  | error e => exact honest_error (hr e rfl)

/-- What is made of a result raises no fault of its own. -/
theorem honest_map {r : Except Fault α} {f : α → β} (hr : Honest r) :
    Honest (r >>= fun a => pure (f a)) :=
  honest_bind hr fun _ => honest_ok

theorem honest_ite {c : Prop} [Decidable c] {r s : Except Fault α} (hr : Honest r)
    (hs : Honest s) : Honest (if c then r else s) := by
  split
  · exact hr
  · exact hs

/-! ## Numbers -/

namespace Number

theorem toReal_honest (n : Number) : Honest n.toReal := by
  cases n with
  | whole n =>
    rw [toReal]
    split
    · exact honest_ok
    · exact honest_error rfl
  | real x => exact honest_ok

theorem combine_honest (exact : Int → Int → Int) (rounded : Binary64 → Binary64 → Binary64)
    (a b : Number) : Honest (combine exact rounded a b) := by
  rw [combine.eq_def]
  split
  · exact honest_ok
  · exact honest_bind (toReal_honest _) fun _ => honest_map (toReal_honest _)

theorem partialReal_honest (rounded : Binary64 → Binary64 → Binary64) {e : Fault}
    (he : e.isOfRun = true) (a b : Number) : Honest (partialReal rounded e a b) :=
  honest_bind (toReal_honest a) fun _ => honest_bind (toReal_honest b) fun _ =>
    honest_ite (honest_error he) honest_ok

theorem div_honest (a b : Number) : Honest (a.div b) := by
  rw [div.eq_def]
  split
  · rw [quotient]
    refine honest_ite (honest_error rfl) ?_
    split
    · exact honest_ok
    · exact honest_error rfl
  · exact partialReal_honest _ rfl _ _

theorem rem_honest (a b : Number) : Honest (a.rem b) := by
  rw [rem.eq_def]
  split
  · exact honest_ite (honest_error rfl) honest_ok
  · exact partialReal_honest _ rfl _ _

theorem floorDiv_honest (a b : Number) : Honest (a.floorDiv b) := by
  rw [floorDiv.eq_def]
  split
  · exact honest_ite (honest_error rfl) honest_ok
  · exact partialReal_honest _ rfl _ _

end Number

/-- A position outside of a sequence is a fault of a run. -/
theorem Sequence.item_honest (xs : List α) (position : Int) : Honest (item xs position) := by
  refine honest_ite (honest_error rfl) (honest_ite (honest_error rfl) ?_)
  split
  · exact honest_ok
  · exact honest_error rfl

/-! ## Values -/

namespace View

theorem numeral_honest (n : Int) : Honest (numeral n) :=
  honest_ite honest_ok (honest_error rfl)

mutual

/-- Writing a value fails at a number that is too long. -/
theorem write_honest (out : String) : ∀ v : View, Honest (write out v)
  | .none => honest_ok
  | .bool _ => honest_ok
  | .int n => honest_map (numeral_honest n)
  | .float _ => honest_ok
  | .text _ => honest_ok
  | .list _ items => honest_map (writeItems_honest _ items)
  | .again _ => honest_ok
  | .tuple [x] => honest_map (write_honest _ x)
  | .tuple [] => honest_map (writeItems_honest _ [])
  | .tuple (x :: y :: rest) => honest_map (writeItems_honest _ (x :: y :: rest))
  | .thunk _ => honest_ok

theorem writeItems_honest (out : String) : ∀ items : List View, Honest (writeItems out items)
  | [] => honest_ok
  | [x] => write_honest out x
  | x :: y :: rest => honest_bind (write_honest out x) fun _ => writeItems_honest _ (y :: rest)

end

theorem shown_honest (v : View) : Honest v.shown := by
  cases v with
  | text s => exact honest_ok
  | _ => exact honest_map (write_honest "" _)

mutual

/-- Comparing fails at values that have no order. -/
theorem orderBy_honest (equal : View → View → Bool) (op : Op) :
    ∀ x y : View, Honest (orderBy equal op x y) := by
  intro x y
  rw [orderBy.eq_def]
  split
  · exact honest_ok
  · exact orderItemsBy_honest equal op _ _
  · exact orderItemsBy_honest equal op _ _
  · split
    · exact honest_ok
    · exact honest_error rfl

theorem orderItemsBy_honest (equal : View → View → Bool) (op : Op) :
    ∀ xs ys : List View, Honest (orderItemsBy equal op xs ys)
  | x :: xs, y :: ys => by
    rw [orderItemsBy]
    exact honest_ite (orderItemsBy_honest equal op xs ys) (orderBy_honest equal op x y)
  | [], [] => honest_ok
  | [], _ :: _ => honest_ok
  | _ :: _, [] => honest_ok

end

theorem order_honest (op : Op) (x y : View) : Honest (x.order op y) :=
  orderBy_honest sameItem op x y

end View

/-! ## Templates -/

namespace Template

theorem fail_honest (cause : FormatFault) : Honest (fail cause : Except Fault α) :=
  honest_error rfl

theorem padding_honest (c : Char) (count : Nat) : Honest (padding c count) :=
  honest_ite (honest_error rfl) honest_ok

theorem textField_honest (p : Place) (s : Text) : Honest (textField p s) :=
  honest_map (padding_honest _ _)

theorem numberField_honest (p : Place) (n : Numeral) : Honest (numberField p n) :=
  honest_map (padding_honest _ _)

theorem character_honest (v : View) : Honest (character v) := by
  rw [character.eq_def]
  split
  · exact honest_ite honest_ok (fail_honest _)
  · split
    · exact honest_ite honest_ok (fail_honest _)
    · exact fail_honest _

theorem integer_honest (conversion : Char) (v : View) : Honest (integer conversion v) := by
  rw [integer]
  split
  · exact honest_ok
  · refine honest_ite (fail_honest _) ?_
    rw [truncated]
    split
    · exact honest_ok
    · exact honest_error (by split <;> rfl)
  · exact honest_ite (fail_honest _) (fail_honest _)

theorem wholeField_honest (conversion : Char) (p : Place) (v : View) :
    Honest (wholeField conversion p v) := by
  have hfield (n : Int) : Honest (numberField p
      (Numeral.whole conversion p.alternate (p.precision.getD 0) n)) := numberField_honest p _
  refine honest_bind (integer_honest conversion v) fun n => honest_ite ?_ ?_
  · exact honest_bind (fail_honest _) fun _ =>
      honest_ite (honest_bind (View.numeral_honest n) fun _ => hfield n) (hfield n)
  · exact honest_ite (honest_bind (View.numeral_honest n) fun _ => hfield n) (hfield n)

theorem realField_honest (conversion : Char) (p : Place) (v : View) :
    Honest (realField conversion p v) := by
  rw [realField]
  split
  · exact honest_bind (Number.toReal_honest _) fun _ => numberField_honest p _
  · exact fail_honest _

/-- A field of a template fails at a value of another sort. -/
theorem convert_honest (position conversion : Nat) (p : Place) (v : View) :
    Honest (convert position conversion p v) := by
  refine honest_ite (honest_bind v.shown_honest fun _ => textField_honest _ _) ?_
  refine honest_ite (honest_bind (v.write_honest "") fun _ => textField_honest _ _) ?_
  refine honest_ite (honest_bind (v.write_honest "") fun _ => textField_honest _ _) ?_
  refine honest_ite (wholeField_honest _ p v) (honest_ite (realField_honest _ p v) ?_)
  refine honest_ite (honest_bind (character_honest v) fun _ => textField_honest _ _) ?_
  exact fail_honest _

theorem use_honest (f : Filler) : Honest (use f) := by
  rw [use]
  split
  · exact honest_ok
  · exact fail_honest _

theorem useNumber_honest (f : Filler) : Honest (useNumber f) := by
  refine honest_bind (use_honest f) fun (v, f) => ?_
  dsimp only
  split
  · exact honest_ok
  · exact fail_honest _

theorem close_honest (f : Filler) (p : Place) (c : Nat) : Honest (close f p c) :=
  honest_bind (use_honest f) fun _ => honest_map (convert_honest _ _ _ _)

theorem afterPrecision_honest (f : Filler) (p : Place) (c : Nat) :
    Honest (afterPrecision f p c) :=
  honest_ite honest_ok (close_honest f p c)

theorem afterWidth_honest (f : Filler) (p : Place) (c : Nat) : Honest (afterWidth f p c) :=
  honest_ite honest_ok (afterPrecision_honest f p c)

theorem flag_honest (f : Filler) (p : Place) (c : Nat) : Honest (flag f p c) := by
  rw [flag]
  split
  · exact honest_ok
  · refine honest_ite ?_ ?_
    · exact honest_bind (useNumber_honest f) fun _ => honest_ite (fail_honest _) honest_ok
    · split
      · exact honest_ok
      · exact afterWidth_honest f p c

theorem read_honest (f : Filler) (c : Nat) : Honest (read f c) := by
  rw [read]
  split
  · exact honest_ok
  · exact honest_ite honest_ok
      (honest_ite (honest_ite honest_ok (fail_honest _)) (flag_honest f _ c))
  · exact honest_ite honest_ok
      (honest_ite (honest_ite (honest_error rfl) honest_ok) honest_ok)
  · exact flag_honest f _ c
  · split
    · exact honest_ite (fail_honest _) honest_ok
    · exact afterWidth_honest f _ c
  · exact afterWidth_honest f _ c
  · refine honest_ite ?_ ?_
    · exact honest_bind (useNumber_honest f) fun _ => honest_ite (fail_honest _) honest_ok
    · split
      · exact honest_ok
      · exact afterPrecision_honest f _ c
  · split
    · exact honest_ite (fail_honest _) honest_ok
    · exact afterPrecision_honest f _ c
  · exact afterPrecision_honest f _ c
  · exact close_honest f _ c

theorem foldlM_step_honest (cs : List Nat) (f : Filler) : Honest (cs.foldlM step f) := by
  induction cs generalizing f with
  | nil => exact honest_ok
  | cons c rest ih =>
    rw [List.foldlM_cons]
    exact honest_bind (honest_map (read_honest f c)) ih

/-- A template is filled in character by character. -/
theorem fill_honest (template : Text) (v : View) : Honest (fill template v) := by
  refine honest_bind (foldlM_step_honest _ _) fun f => ?_
  rw [finish]
  split
  · exact honest_ite (fail_honest _) honest_ok
  · exact fail_honest _
  · exact fail_honest _

end Template

/-! ## Operators -/

namespace Value

theorem replicateItems_honest (xs : List Value) (n : Int) : Honest (replicateItems xs n) :=
  honest_ite (honest_error rfl) honest_ok

theorem replicate_honest (l : Lists) (new : Nat) (v : Value) (n : Int) :
    Honest (v.replicate l new n) := by
  refine honest_ite (honest_error rfl) ?_
  split
  · exact honest_ite (honest_error rfl) (honest_ite (honest_error rfl) honest_ok)
  · exact honest_map (replicateItems_honest _ n)
  · exact honest_map (replicateItems_honest _ n)
  · exact honest_ok

theorem numeric_honest (symbol : String) {operation : Number → Number → Except Fault Number}
    (h : ∀ a b, Honest (operation a b)) (u v : Value) : Honest (numeric symbol operation u v) := by
  rw [numeric]
  split
  · exact honest_map (h _ _)
  · exact honest_error rfl

theorem add_honest (l : Lists) (new : Nat) (u v : Value) : Honest (u.add l new v) := by
  rw [add.eq_def]
  split
  · exact honest_ok
  · exact honest_ok
  · exact honest_ok
  · exact honest_ite (honest_error rfl) (numeric_honest "+" (Number.combine_honest _ _) _ _)

theorem multiply_honest (l : Lists) (new : Nat) (u v : Value) : Honest (u.multiply l new v) := by
  refine honest_ite ?_ (honest_ite ?_ (numeric_honest "*" (Number.combine_honest _ _) u v))
  · cases v.whole? with
    | some n => exact replicate_honest l new u n
    | none => exact honest_error rfl
  · cases u.whole? with
    | some n => exact replicate_honest l new v n
    | none => exact honest_error rfl

theorem remainder_honest (l : Lists) (u v : Value) : Honest (u.remainder l v) := by
  rw [remainder.eq_def]
  split
  · exact honest_map (Template.fill_honest _ _)
  · exact numeric_honest "%" Number.rem_honest _ v

theorem advance_honest (l : Lists) (u step : Value) : Honest (u.advance l step) := by
  rw [advance.eq_def]
  split
  · split
    · exact honest_ok
    · exact honest_error rfl
  · split
    · exact honest_map (Number.combine_honest _ _ _ _)
    · exact honest_ite (honest_map (add_honest _ _ _ _)) (honest_error rfl)

end Value

/-- All operators on values. -/
theorem Op.onValues_honest (l : Lists) (new : Nat) (op : Op) (u v : Value) :
    Honest (op.onValues l new u v) := by
  cases op with
  | plus => exact Value.add_honest l new u v
  | minus => exact Value.numeric_honest _ (Number.combine_honest _ _) u v
  | times => exact Value.multiply_honest l new u v
  | intDiv => exact Value.numeric_honest _ Number.floorDiv_honest u v
  | modulo => exact Value.remainder_honest l u v
  | eq => exact honest_ok
  | neq => exact honest_ok
  | and => exact honest_ok
  | or => exact honest_ok
  | lt => exact honest_map (View.order_honest _ _ _)
  | gt => exact honest_map (View.order_honest _ _ _)
  | lte => exact honest_map (View.order_honest _ _ _)
  | gte => exact honest_map (View.order_honest _ _ _)
  | _ => exact Value.numeric_honest _ Number.div_honest u v

/-! ## Trees, names and records -/

namespace Tree

theorem head_honest (t : Tree) : Honest t.head := by
  rw [head]
  split
  · exact honest_ok
  · exact honest_error rfl
  · exact honest_error rfl

theorem items_honest (t : Tree) : Honest t.items := by
  rw [items]
  split
  · exact honest_ok
  · exact honest_error rfl

theorem parts_honest (t : Tree) : Honest t.parts := by
  rw [parts]
  split
  · exact honest_ok
  · exact honest_error rfl

/-- A tree with too few or too many parts is no statement. -/
theorem wrongLength_honest (expected got : Nat) :
    Honest (.error (wrongLength expected got) : Except Fault α) := by
  refine honest_error ?_
  rw [wrongLength]
  split <;> rfl

theorem unpack2_honest (t : Tree) : Honest t.unpack2 := by
  refine honest_bind t.parts_honest fun xs => ?_
  split
  · exact honest_ok
  · exact wrongLength_honest _ _

theorem unpack3_honest (t : Tree) : Honest t.unpack3 := by
  refine honest_bind t.parts_honest fun xs => ?_
  split
  · exact honest_ok
  · exact wrongLength_honest _ _

theorem unpack4_honest (t : Tree) : Honest t.unpack4 := by
  refine honest_bind t.parts_honest fun xs => ?_
  split
  · exact honest_ok
  · exact wrongLength_honest _ _

theorem unpack5_honest (t : Tree) : Honest t.unpack5 := by
  refine honest_bind t.parts_honest fun xs => ?_
  split
  · exact honest_ok
  · exact wrongLength_honest _ _

end Tree

namespace Name

theorem ofTree_honest (t : Tree) : Honest (ofTree t) := by
  rw [ofTree.eq_def]
  split
  · exact honest_ok
  · exact honest_ite (honest_error rfl) honest_ok

/-- Finding the place of a name compares it with names that are bound. -/
theorem searchWithin_honest (names : Array Name) (new : Name) :
    ∀ n lo hi, Honest (searchWithin names new n lo hi)
  | 0, _, _ => honest_ok
  | n + 1, lo, hi => by
    rw [searchWithin]
    refine honest_ite ?_ honest_ok
    dsimp only
    split
    · refine honest_bind (View.order_honest _ _ _) fun _ => ?_
      exact honest_ite (searchWithin_honest names new n lo _) (searchWithin_honest names new n _ hi)
    · exact honest_ok

theorem findPlace_honest (t : Table Name α) (new : Name) : Honest (findPlace t new) := by
  rw [findPlace]
  split
  · exact honest_ok
  · refine honest_ite honest_ok (honest_ite honest_ok ?_)
    rw [search]
    split
    · refine honest_bind (View.order_honest _ _ _) fun _ => ?_
      exact honest_ite (searchWithin_honest _ _ _ _ _) honest_ok
    · exact honest_ok

end Name

theorem Account.charge_honest (a : Account) (size : Nat) : Honest (a.charge size) :=
  honest_ite (honest_error rfl) honest_ok

theorem History.peekAt_honest (h : History α) (name : Name) (position : View) :
    Honest (h.peekAt name position) := by
  rw [peekAt]
  split
  · exact honest_ok
  · split
    · exact honest_error rfl
    · rw [peek]
      split
      · exact honest_ok
      · exact honest_ite honest_ok (honest_map (Sequence.item_honest _ _))
    · split
      · exact honest_ok
      · exact honest_ok
      · exact honest_error rfl

/-! ## Steps -/

variable {σ : Type}

/-- If the step stops with a fault, it is one that can come up in a run. -/
def StopsHonestly (x : EStateM Fault σ α) : Prop :=
  ∀ s s' e, x s = .error e s' → e.isOfRun = true

/-- A step that always comes to its end. -/
theorem stops_of_apply {x : EStateM Fault σ α} {f : σ → α} {g : σ → σ}
    (hx : ∀ s, x s = .ok (f s) (g s)) : StopsHonestly x := by
  intro s s' e h
  rw [hx] at h
  cases h

theorem stops_pure (a : α) : StopsHonestly (pure a : EStateM Fault σ α) :=
  stops_of_apply fun _ => rfl

theorem stops_get : StopsHonestly (get : EStateM Fault σ σ) :=
  stops_of_apply fun _ => rfl

theorem stops_modify (f : σ → σ) : StopsHonestly (modify f : EStateM Fault σ PUnit) :=
  stops_of_apply fun _ => rfl

theorem stops_throw {e : Fault} (he : e.isOfRun = true) :
    StopsHonestly (throw e : EStateM Fault σ α) := by
  rintro s s' _ ⟨⟩
  exact he

/-- One step after another. -/
theorem stops_bind {x : EStateM Fault σ α} {f : α → EStateM Fault σ β} (hx : StopsHonestly x)
    (hf : ∀ a, StopsHonestly (f a)) : StopsHonestly (x >>= f) := by
  intro s s' e h
  change EStateM.bind x f s = _ at h
  unfold EStateM.bind at h
  split at h
  · exact hf _ _ _ _ h
  · next h1 =>
    cases h
    exact hx _ _ _ h1

theorem stops_ite {c : Prop} [Decidable c] {x y : EStateM Fault σ α} (hx : StopsHonestly x)
    (hy : StopsHonestly y) : StopsHonestly (if c then x else y) := by
  split
  · exact hx
  · exact hy

/-! ## Profiles -/

namespace Profile

theorem stops_wrongLength (expected got : Nat) :
    StopsHonestly (throw (Tree.wrongLength expected got) : Profiler Unit) := by
  refine stops_throw ?_
  rw [Tree.wrongLength]
  split <;> rfl

mutual

/-- Profiles of trees, by recursion on them. -/
theorem node_stops : ∀ t : Tree, StopsHonestly (node t)
  | .tuple xs => by
    rw [node]
    exact form_stops "tuple" xs
  | .list xs => by
    rw [node]
    exact form_stops "list" xs
  | .text s => by
    rw [node]
    exact stops_ite (stops_throw rfl) (stops_pure ())
  | .none => stops_throw rfl
  | .bool _ => stops_throw rfl
  | .int _ => stops_throw rfl
  | .float _ => stops_throw rfl
  | .thunk _ => stops_throw rfl

theorem form_stops (sequenceName : String) : ∀ xs : List Tree,
    StopsHonestly (form sequenceName xs)
  | [] => stops_throw rfl
  | tag :: arguments => by
    rw [form.eq_def]
    dsimp only
    split
    · split
      · exact stops_bind (stops_modify _) fun _ => stops_modify _
      · exact stops_wrongLength _ _
    · split
      · exact stops_modify _
      · exact stops_wrongLength _ _
    · split
      · exact stops_bind (stops_modify _) fun _ => stops_modify _
      · exact stops_wrongLength _ _
    · split
      · next condition yes elifs no =>
        refine stops_bind (stops_modify _) fun _ => stops_bind (block_stops yes) fun _ => ?_
        exact stops_bind (elifBranches_stops elifs) fun _ => block_stops no
      · exact stops_wrongLength _ _
    · split
      · next condition body => exact stops_bind (stops_modify _) fun _ => block_stops body
      · exact stops_wrongLength _ _
    · split
      · exact stops_modify _
      · exact stops_wrongLength _ _
    · exact stops_pure ()

theorem block_stops : ∀ t : Tree, StopsHonestly (block t)
  | .list xs => by
    rw [block]
    exact nodes_stops xs
  | .tuple xs => by
    rw [block]
    exact nodes_stops xs
  | .text _ => stops_pure ()
  | .none => stops_throw rfl
  | .bool _ => stops_throw rfl
  | .int _ => stops_throw rfl
  | .float _ => stops_throw rfl
  | .thunk _ => stops_throw rfl

theorem nodes_stops : ∀ ts : List Tree, StopsHonestly (nodes ts)
  | [] => stops_pure ()
  | t :: rest => by
    rw [nodes]
    exact stops_bind (node_stops t) fun _ => nodes_stops rest

theorem elifBranches_stops : ∀ t : Tree, StopsHonestly (elifBranches t)
  | .list xs => by
    rw [elifBranches]
    exact elifBranchItems_stops xs
  | .tuple xs => by
    rw [elifBranches]
    exact elifBranchItems_stops xs
  | .text _ => by
    rw [elifBranches]
    exact stops_ite (stops_pure ()) (stops_wrongLength _ _)
  | .none => stops_throw rfl
  | .bool _ => stops_throw rfl
  | .int _ => stops_throw rfl
  | .float _ => stops_throw rfl
  | .thunk _ => stops_throw rfl

theorem elifBranchItems_stops : ∀ ts : List Tree, StopsHonestly (elifBranchItems ts)
  | [] => stops_pure ()
  | t :: rest => by
    rw [elifBranchItems]
    exact stops_bind (elifBranch_stops t) fun _ => elifBranchItems_stops rest

theorem elifBranch_stops : ∀ t : Tree, StopsHonestly (elifBranch t) := by
  intro t
  rw [elifBranch.eq_def]
  split
  · next condition body => exact stops_bind (stops_modify _) fun _ => block_stops body
  · next condition body => exact stops_bind (stops_modify _) fun _ => block_stops body
  · exact stops_wrongLength _ _
  · exact stops_wrongLength _ _
  · split
    · exact stops_modify _
    · exact stops_wrongLength _ _
  · exact stops_throw rfl

end

theorem program_stops (statements : List Tree) : StopsHonestly (program statements) :=
  stops_bind (nodes_stops statements) fun _ => stops_modify judge

end Profile

namespace Exec

theorem stops_ofExcept {r : Except Fault α} (hr : Honest r) : StopsHonestly (ofExcept r) := by
  intro m m' e h
  cases r with
  | ok a => cases h
  | error e =>
    cases h
    exact hr e rfl

theorem stops_fail (cause : ExecFault) : StopsHonestly (fail cause : Exec α) :=
  stops_throw rfl

theorem stops_mapM {xs : List β} {f : β → Exec α} (hf : ∀ x, StopsHonestly (f x)) :
    StopsHonestly (xs.mapM f) := by
  induction xs with
  | nil => exact stops_pure []
  | cons x rest ih =>
    rw [List.mapM_cons]
    exact stops_bind (hf x) fun _ => stops_bind ih fun _ => stops_pure _

/-- A loop that runs out of passes is a fault of a run. -/
theorem stops_iterate {pass : σ → Exec (σ ⊕ Bool)} (hp : ∀ s, StopsHonestly (pass s)) :
    ∀ n s, StopsHonestly (iterate pass n s)
  | 0, _ => stops_throw rfl
  | n + 1, s => by
    refine stops_bind (hp s) fun r => ?_
    cases r with
    | inl s' => exact stops_iterate hp n s'
    | inr b => exact stops_pure b

theorem stops_inOrder {run : Tree → Exec Bool} (hrun : ∀ t, StopsHonestly (run t))
    (ts : List Tree) : StopsHonestly (inOrder run ts) := by
  induction ts with
  | nil => exact stops_pure true
  | cons t rest ih => exact stops_bind (hrun t) fun b => stops_ite ih (stops_pure false)

/-! ## Expressions -/

theorem shown_stops (v : Value) : StopsHonestly (shown v) :=
  stops_bind (stops_of_apply (view_apply v)) fun s =>
    stops_bind (stops_ofExcept s.shown_honest) fun _ => stops_pure _

theorem item_stops (v position : Value) : StopsHonestly (item v position) := by
  rw [item.eq_def]
  split
  · split
    · exact stops_bind stops_get fun _ => stops_ofExcept (Sequence.item_honest _ _)
    · exact stops_throw rfl
  · exact stops_bind (shown_stops _) fun _ => stops_fail _

theorem lengthOf_stops (v : Value) : StopsHonestly (lengthOf v) := by
  rw [lengthOf.eq_def]
  split
  · exact stops_pure _
  · exact stops_bind stops_get fun _ => stops_pure _
  · exact stops_fail _

theorem apply_stops (op : Op) (u v : Value) : StopsHonestly (apply op u v) := by
  rw [apply]
  split
  · exact stops_pure _
  · exact stops_bind (stops_of_apply newId_apply) fun _ => stops_bind stops_get fun _ =>
      stops_ofExcept (op.onValues_honest _ _ u v)

section Force

variable {force : Nat → Exec Value} (hf : ∀ id, StopsHonestly (force id))
include hf

theorem resolve_stops (v : Value) : StopsHonestly (resolve force v) := by
  cases v with
  | thunk id => exact hf id
  | _ => exact stops_pure _

theorem resolve?_stops (v : Option Value) : StopsHonestly (resolve? force v) := by
  cases v with
  | none => exact stops_pure _
  | some v => exact resolve_stops hf v

theorem operate_stops (op : Tree) (u v : Value) : StopsHonestly (operate force op u v) := by
  refine stops_bind (resolve_stops hf u) fun u => stops_bind (resolve_stops hf v) fun v => ?_
  split
  · exact apply_stops _ u v
  · exact stops_fail _

end Force

theorem stops_counted {f : Unit → Exec α} (h : ∀ u, StopsHonestly (f u)) :
    StopsHonestly (countEvaluation >>= f) :=
  stops_bind (stops_of_apply countEvaluation_apply) h

mutual

/-- Expressions, given that thunks are worked out honestly. -/
theorem evaluateWith_stops {force : Nat → Exec Value} (hf : ∀ id, StopsHonestly (force id)) :
    ∀ e : Tree, StopsHonestly (evaluateWith force e)
  | .thunk _ => stops_counted fun _ => stops_throw rfl
  | .list xs => stops_counted fun _ =>
    stops_bind (evaluateItems_stops hf xs) fun _ =>
      stops_bind (stops_of_apply newId_apply) fun _ => stops_pure _
  | .tuple [left, op, right] => stops_counted fun _ =>
    stops_bind (evaluateWith_stops hf left) fun u =>
      stops_bind (evaluateWith_stops hf right) fun v =>
        stops_ite (item_stops u v) (operate_stops hf op u v)
  | .tuple [_, e] => stops_counted fun _ =>
    stops_ite (stops_bind (evaluateWith_stops hf e) lengthOf_stops) (stops_fail _)
  | .tuple [] => stops_counted fun _ => stops_fail _
  | .tuple [_] => stops_counted fun _ => stops_fail _
  | .tuple (_ :: _ :: _ :: _ :: _) => stops_counted fun _ => stops_fail _
  | .int _ => stops_counted fun _ => stops_pure _
  | .bool _ => stops_counted fun _ => stops_pure _
  | .text _ => stops_counted fun _ =>
    stops_ite (stops_pure _) (stops_bind stops_get fun _ => resolve?_stops hf _)
  | .none => stops_counted fun _ => stops_fail _
  | .float _ => stops_counted fun _ => stops_fail _

theorem evaluateItems_stops {force : Nat → Exec Value} (hf : ∀ id, StopsHonestly (force id)) :
    ∀ es : List Tree, StopsHonestly (evaluateItems force es)
  | [] => stops_pure _
  | e :: rest =>
    stops_bind (evaluateWith_stops hf e) fun _ =>
      stops_bind (evaluateItems_stops hf rest) fun _ => stops_pure _

end

/-- Thunks, by the depth to which they may be opened. -/
theorem forceWithin_stops : ∀ depth id, StopsHonestly (forceWithin depth id)
  | 0, _ => stops_throw rfl
  | depth + 1, id => by
    rw [forceWithin]
    refine stops_bind stops_get fun m => ?_
    split
    · exact stops_pure _
    · split
      · exact stops_pure _
      · exact stops_bind (evaluateWith_stops (forceWithin_stops depth) _) fun v =>
          stops_bind (stops_of_apply (settle_apply id v)) fun _ => stops_pure v

theorem force_stops (id : Nat) : StopsHonestly (force id) :=
  stops_bind stops_get fun _ => forceWithin_stops _ id

theorem evaluate_stops (e : Tree) : StopsHonestly (evaluate e) :=
  stops_bind stops_get fun _ => evaluateWith_stops (forceWithin_stops _) e

theorem valueOfName_stops (name : Name) : StopsHonestly (valueOfName name) :=
  stops_bind stops_get fun _ => resolve?_stops force_stops _

theorem isLess_stops (u v : Value) : StopsHonestly (isLess u v) :=
  stops_bind (stops_of_apply (view_apply u)) fun _ =>
    stops_bind (stops_of_apply (view_apply v)) fun _ => stops_ofExcept (View.order_honest _ _ _)

theorem charge_stops (v : Value) : StopsHonestly (charge v) :=
  stops_bind stops_get fun _ => stops_bind (stops_ofExcept (Account.charge_honest _ _)) fun _ =>
    stops_modify _

/-! ## Statements -/

theorem block_stops {run : Tree → Exec Bool} (hrun : ∀ t, StopsHonestly (run t)) (body : Tree) :
    StopsHonestly (block run body) :=
  stops_bind (stops_ofExcept body.items_honest) fun ts => stops_inOrder hrun ts

section Watch

variable {watch : Watch} (hw : ∀ event, StopsHonestly (watch event))
include hw

theorem evaluateWatched_stops (e : Tree) : StopsHonestly (evaluateWatched watch e) :=
  stops_bind (hw _) fun _ => evaluate_stops e

theorem bindWatched_stops (name : Name) (v : Value) : StopsHonestly (bindWatched watch name v) :=
  stops_bind (hw _) fun _ => stops_bind stops_get fun _ =>
    stops_bind (stops_ofExcept (Name.findPlace_honest _ name)) fun _ =>
      stops_modify _

theorem replace_stops (name : Name) (new : Value) : StopsHonestly (replace watch name new) := by
  refine stops_bind stops_get fun m => stops_bind (charge_stops new) fun _ => ?_
  have hbind (old : Value) :
      StopsHonestly (remember name old >>= fun _ => bindWatched watch name new) :=
    stops_bind (stops_of_apply (remember_apply name old)) fun _ => bindWatched_stops hw name new
  exact stops_ite (stops_bind (stops_of_apply (credit_apply _)) fun _ => hbind _) (hbind _)

theorem assign_stops (t : Tree) : StopsHonestly (assign watch t) := by
  refine stops_bind (stops_of_apply countAssignment_apply) fun _ => ?_
  refine stops_bind (stops_ofExcept t.unpack3_honest) fun (_, target, e) => ?_
  refine stops_bind (stops_ofExcept (Name.ofTree_honest target)) fun name => ?_
  refine stops_bind (stops_bind stops_get fun m => ?_) fun new => replace_stops hw name new
  exact stops_ite (evaluateWatched_stops hw e) (stops_of_apply (suspend_apply e))

/-- A compound assignment fails after its entry at anything but two whole numbers. -/
theorem compound_stops (op : Compound) (t : Tree) : StopsHonestly (compound watch op t) := by
  refine stops_bind (stops_ofExcept t.unpack3_honest) fun (_, target, e) => ?_
  refine stops_bind (stops_ofExcept (Name.ofTree_honest target)) fun name => ?_
  refine stops_bind (valueOfName_stops name) fun current => ?_
  refine stops_bind (evaluateWatched_stops hw e) fun v => ?_
  refine stops_bind (resolve_stops force_stops v) fun operand => ?_
  refine stops_bind (stops_of_apply (remember_apply name current)) fun _ => ?_
  split
  · exact stops_throw rfl
  · split
    · exact stops_throw rfl
    · refine stops_bind (stops_bind stops_get fun m => ?_) fun new => bindWatched_stops hw name new
      exact stops_ite (stops_pure _) (stops_of_apply (suspend_apply _))

theorem reverse_stops (t : Tree) : StopsHonestly (reverse watch t) := by
  refine stops_bind (stops_of_apply countReversal_apply) fun _ => ?_
  refine stops_bind (stops_ofExcept t.unpack2_honest) fun (_, target) => ?_
  refine stops_bind (stops_ofExcept (Name.ofTree_honest target)) fun name => ?_
  refine stops_bind (stops_of_apply (takeBack_apply name)) fun old? => ?_
  cases old? with
  | none => exact stops_pure ()
  | some old =>
    refine stops_ite ?_ (stops_pure ())
    exact stops_bind (bindWatched_stops hw name old) fun _ =>
      stops_bind (stops_of_apply (credit_apply old)) fun _ => charge_stops old

theorem revtrace_stops (t : Tree) : StopsHonestly (revtrace watch t) := by
  refine stops_bind (stops_ofExcept t.unpack3_honest) fun (_, target, e) => ?_
  refine stops_bind (evaluateWatched_stops hw e) fun position => ?_
  refine stops_bind (stops_ofExcept (Name.ofTree_honest target)) fun name => ?_
  refine stops_bind stops_get fun m => ?_
  refine stops_bind (stops_of_apply (view_apply position)) fun seen => ?_
  refine stops_bind (stops_ofExcept (m.history.peekAt_honest name seen)) fun old => ?_
  split
  · exact stops_bind (shown_stops position) fun _ => stops_bind (shown_stops _) fun _ =>
      stops_of_apply (put_apply _ _)
  · exact stops_bind (shown_stops position) fun _ => stops_of_apply (put_apply _ _)

theorem printedAll_stops (es : List Tree) : StopsHonestly (printedAll watch es) := by
  induction es with
  | nil => exact stops_pure []
  | cons e rest ih =>
    refine stops_bind (evaluateWatched_stops hw e) fun v => stops_bind ?_ fun _ =>
      stops_bind ih fun _ => stops_pure _
    rw [printed.eq_def]
    split
    · exact stops_pure _
    · exact shown_stops _

theorem print_stops (t : Tree) : StopsHonestly (print watch t) :=
  stops_bind (stops_ofExcept t.unpack2_honest) fun _ =>
    stops_bind (stops_ofExcept (Tree.items_honest _)) fun es =>
      stops_bind (printedAll_stops hw es) fun _ => stops_of_apply (put_apply _ _)

theorem chooseElif_stops (no : Tree) (elifs : List Tree) :
    StopsHonestly (chooseElif watch no elifs) := by
  induction elifs with
  | nil => exact stops_pure no
  | cons x rest ih =>
    refine stops_bind (stops_ofExcept x.unpack2_honest) fun parts => ?_
    refine stops_bind (evaluateWatched_stops hw parts.1) fun v => ?_
    exact stops_bind (stops_of_apply (isTruthy_apply v)) fun _ => stops_ite (stops_pure _) ih

theorem increment_stops (counter : Tree) : StopsHonestly (increment watch counter) := by
  refine stops_bind (stops_ofExcept (Name.ofTree_honest counter)) fun name => ?_
  refine stops_bind stops_get fun m => stops_bind (stops_of_apply (view_apply _)) fun seen => ?_
  refine stops_bind (evaluateWatched_stops hw _) fun v => stops_bind stops_get fun m' => ?_
  exact stops_bind (stops_ofExcept (v.add_honest _ _ _)) fun w => bindWatched_stops hw name w

theorem advance_stops (v stride : Value) : StopsHonestly (advance watch v stride) := by
  have hextension : StopsHonestly (watchExtension watch v) := by
    cases v with
    | list id items => exact hw _
    | _ => exact stops_pure ()
  refine stops_bind hextension fun _ => stops_bind stops_get fun m => ?_
  exact stops_bind (stops_ofExcept (v.advance_honest _ _)) fun _ =>
    stops_bind (stops_modify _) fun _ => stops_pure _

section Blocks

variable {run : Tree → Exec Bool} (hrun : ∀ t, StopsHonestly (run t))
include hrun

theorem branch_stops (t : Tree) : StopsHonestly (branch watch run t) := by
  refine stops_bind (stops_ofExcept t.unpack5_honest) fun (_, condition, yes, elifs, no) => ?_
  refine stops_bind (evaluateWatched_stops hw condition) fun v => ?_
  refine stops_bind (stops_of_apply (isTruthy_apply v)) fun _ => stops_ite (block_stops hrun yes) ?_
  refine stops_bind (stops_ofExcept elifs.items_honest) fun xs => ?_
  exact stops_bind (chooseElif_stops hw no xs) fun chosen => block_stops hrun chosen

theorem plainLoop_stops (n : Nat) (condition body : Tree) :
    StopsHonestly (plainLoop watch run n condition body) := by
  refine stops_iterate (fun _ => ?_) n ()
  refine stops_bind (evaluateWatched_stops hw condition) fun v => ?_
  refine stops_bind (stops_of_apply (isTruthy_apply v)) fun _ => stops_ite ?_ (stops_pure _)
  exact stops_bind (block_stops hrun body) fun _ => stops_pure _

theorem countingLoop_stops (n : Nat) (counter stop body : Tree) :
    StopsHonestly (countingLoop watch run n counter stop body) := by
  refine stops_bind (evaluateWatched_stops hw stop) fun last => ?_
  refine stops_iterate (fun _ => ?_) n ()
  refine stops_bind (evaluateWatched_stops hw counter) fun v => ?_
  refine stops_bind (isLess_stops v last) fun _ => stops_ite ?_ (stops_pure _)
  refine stops_bind (block_stops hrun body) fun _ => stops_ite ?_ (stops_pure _)
  exact stops_bind (increment_stops hw counter) fun _ => stops_pure _

theorem whileLoop_stops (n : Nat) (t : Tree) : StopsHonestly (whileLoop watch run n t) := by
  refine stops_bind (stops_ofExcept t.unpack3_honest) fun (_, condition, body) => ?_
  dsimp only
  split
  · exact stops_ite (countingLoop_stops hw hrun n _ _ body) (plainLoop_stops hw hrun n _ body)
  · exact plainLoop_stops hw hrun n condition body

theorem forPass_stops (target body : Tree) (v : Value) :
    StopsHonestly (forPass watch run target body v) :=
  stops_bind (stops_ofExcept (Name.ofTree_honest target)) fun name =>
    stops_bind (bindWatched_stops hw name v) fun _ => block_stops hrun body

theorem rangeLoop_stops (n : Nat) (target range body : Tree) :
    StopsHonestly (rangeLoop watch run n target range body) := by
  refine stops_bind (stops_ofExcept range.unpack4_honest) fun (_, start, stop, step) => ?_
  refine stops_bind (evaluateWatched_stops hw start) fun first => ?_
  refine stops_bind (evaluateWatched_stops hw stop) fun last => ?_
  refine stops_bind (stops_ite (evaluateWatched_stops hw step) (stops_pure _)) fun stride => ?_
  refine stops_iterate (fun v => ?_) n first
  refine stops_bind (isLess_stops v last) fun _ => stops_ite ?_ (stops_pure _)
  refine stops_bind (forPass_stops hw hrun target body v) fun _ => stops_ite ?_ (stops_pure _)
  exact stops_bind (advance_stops hw v stride) fun _ => stops_pure _

theorem eachLoop_stops (target body : Tree) (vs : List Value) :
    StopsHonestly (eachLoop watch run target body vs) := by
  induction vs with
  | nil => exact stops_pure true
  | cons v rest ih =>
    exact stops_bind (forPass_stops hw hrun target body v) fun _ => stops_ite ih (stops_pure _)

theorem laterLoop_stops (n : Nat) (target body : Tree) (id : Nat) :
    StopsHonestly (laterLoop watch run n target body id) := by
  refine stops_iterate (fun k => stops_bind stops_get fun m => ?_) n 0
  split
  · exact stops_bind (forPass_stops hw hrun target body _) fun _ => stops_pure _
  · exact stops_pure _

theorem itemLoop_stops (n : Nat) (target source body : Tree) (v : Value) :
    StopsHonestly (itemLoop watch run n target source body v) := by
  cases v with
  | list id items =>
    refine stops_bind (eachLoop_stops hw hrun target body items) fun _ => ?_
    exact stops_ite (laterLoop_stops hw hrun n target body id) (stops_pure _)
  | text s => exact stops_bind (eachLoop_stops hw hrun target body _) fun _ => stops_pure _
  | _ => exact stops_fail _

theorem forLoop_stops (n : Nat) (t : Tree) : StopsHonestly (forLoop watch run n t) := by
  refine stops_bind (stops_ofExcept t.unpack4_honest) fun (_, target, source, body) => ?_
  refine stops_bind (stops_ofExcept source.head_honest) fun _ => ?_
  refine stops_ite (rangeLoop_stops hw hrun n target source body) ?_
  split
  · refine stops_bind (stops_mapM fun e => evaluateWatched_stops hw e) fun vs => ?_
    exact stops_bind (eachLoop_stops hw hrun target body vs) fun _ => stops_pure _
  · exact stops_bind (evaluateWatched_stops hw _) fun v =>
      itemLoop_stops hw hrun n target _ body v

/-- One statement, if the statements inside of it stop honestly. -/
theorem statement_stops (n : Nat) (t : Tree) : StopsHonestly (statement watch run n t) := by
  have simple {x : Exec Unit} (hx : StopsHonestly x) : StopsHonestly (simply x) :=
    stops_bind hx fun _ => stops_pure true
  refine stops_bind (stops_ofExcept t.head_honest) fun tag => ?_
  split
  · exact simple (assign_stops hw t)
  · exact simple (compound_stops hw _ t)
  · exact simple (reverse_stops hw t)
  · exact simple (revtrace_stops hw t)
  · exact branch_stops hw hrun t
  · exact forLoop_stops hw hrun n t
  · exact whileLoop_stops hw hrun n t
  · exact simple (print_stops hw t)
  · exact stops_pure false
  · exact stops_fail _

end Blocks

/-- **What a statement stops with is a fault of a run.**  The faults of the reader and of the
checker do not come up, nor does a `break`: that is no fault, as long as there is something around
the statement. -/
theorem perform_stops : ∀ n t, StopsHonestly (perform watch n t)
  | 0, _ => stops_throw rfl
  | n + 1, t => statement_stops hw (perform_stops n) n t

end Watch

theorem prune_stops : StopsHonestly prune := by
  refine stops_bind (fun _ _ _ h => by cases h) fun now => ?_
  refine stops_bind (stops_of_apply (modify_apply _)) fun _ => stops_bind stops_get fun m => ?_
  exact stops_ite (stops_of_apply (put_apply _ _)) (stops_pure ())

end Exec

/-! ## Runs -/

namespace Run

variable {n : Nat} {m m' : Machine} {e : Fault}

/-- A statement of the outermost level may also stop with a `break` that it left to others. -/
theorem topLevel_stops {t : Tree} (h : topLevel Exec.unwatched n t m = .error e m') :
    (e = .breakOutsideLoop ∧ ∃ m₁, Exec.perform Exec.unwatched n t m = .ok false m₁) ∨
      e.isOfRun = true := by
  rw [topLevel, Exec.carryOutWatched, Exec.bind_apply] at h
  cases hp : Exec.perform Exec.unwatched n t m with
  | error e₁ m₁ =>
    rw [Exec.bind_of_error hp] at h
    cases h
    exact .inr (Exec.perform_stops (fun _ => stops_pure ()) n t _ _ _ hp)
  | ok b m₁ =>
    rw [Exec.bind_of_ok hp] at h
    cases b with
    | false =>
      cases h
      exact .inl ⟨rfl, _, rfl⟩
    | true => exact .inr (Exec.prune_stops _ _ _ h)

/-- The statements of a program, one after the other. -/
theorem statements_stops {program : List Tree} (h : (statements n program m).2.1 = some e) :
    e = .breakOutsideLoop ∨ e.isOfRun = true := by
  induction program generalizing m with
  | nil => cases h
  | cons t rest ih =>
    rw [statements, statementsWatched] at h
    split at h
    · exact ih h
    · next htop =>
      cases h
      exact (topLevel_stops htop).imp_left And.left

/-- If the names of a program cannot be counted, that is for a fault of a run. -/
theorem profile_stops {program : List Tree}
    (h : (do Exec.put .machine title; profile program : Exec Unit) m = .error e m') :
    e.isOfRun = true := by
  rw [Exec.bind_of_ok (Exec.put_apply ..), profile, Exec.bind_of_ok (Exec.get_apply _)] at h
  cases hp : Profile.program program m.profile with
  | ok _ p =>
    simp only [hp] at h
    cases h
  | error e₁ p =>
    simp only [hp] at h
    cases h
    exact Profile.program_stops program _ _ _ hp

/-- What a run stops with is a fault of a run, or a `break` that no loop takes up. -/
theorem execute_stops {program : List Tree} (h : (execute n program m).fault? = some e) :
    e = .breakOutsideLoop ∨ e.isOfRun = true := by
  rw [execute] at h
  split at h
  · next hprofile =>
    cases h
    exact .inr (profile_stops hprofile)
  · exact statements_stops h

end Run
end Retrace
