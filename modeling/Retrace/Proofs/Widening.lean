import Retrace.Proofs.Checking
import Retrace.Proofs.Library

/-!
# More declarations

The checker asks of a name whether it is declared, and never whether it is not.  So a program that
is accepted is accepted with more names declared as well, and at its end more names are declared
again.  What stands against that is the end of a `for` loop, where a name is taken away.  But this
is done only if the name was not declared before the loop; with more names declared, fewer are taken
away.

There are two facts about each step, and `Widens` is the pair of them.  One is that it goes the same
way with more names declared and leaves more names behind.  The other one is that it keeps the names
that it was given, so that a loop finds its variable among the names when it is to be taken away.
Both go through sequences of steps, and so they are shown together, once for each way in which steps
are put together.

The names that are declared have expressions next to them, and these may be different ones on the
two sides; the checker puts them there and never looks at them.  Tables are therefore compared by
their keys (`Table.Within`).

A `for` loop is given in the checker as a sequence of steps in which a name is declared, and
possibly taken away again.  It is brought into one form (`locally`), in which the two facts are
shown once.

* `Table.Within`: all keys of a table are keys of another one.
* `Widens`: a step of the checker keeps the names that are declared, and goes the same way with more
  of them.  There is one rule for each way to put steps together.
* `locally`: a step with a name that is declared for its duration.
* `node_widens`, …: all statements, by recursion on their trees.
* `accepted_of_more_names`: what this means for programs and for `for` loops.
-/

set_option autoImplicit false

namespace Retrace

/-! ## Tables with more keys -/

namespace Table

variable {κ α : Type} [BEq κ]

/-- All keys of a table are keys of another one. -/
def Within (t t' : Table κ α) : Prop :=
  ∀ key, t.contains key = true → t'.contains key = true

theorem Within.refl (t : Table κ α) : t.Within t :=
  fun _ h => h

theorem Within.trans {t t' t'' : Table κ α} (h : t.Within t') (h' : t'.Within t'') :
    t.Within t'' :=
  fun key hkey => h' key (h key hkey)

variable [EquivBEq κ] {t t' : Table κ α} {key : κ}

theorem contains_insert (t : Table κ α) (key other : κ) (a : α) :
    (t.insert key a).contains other = (key == other || t.contains other) := by
  rw [contains, get?_insert, contains]
  cases key == other <;> rfl

/-- What is left after a name was taken away. -/
theorem contains_erase (t : Table κ α) (key other : κ) :
    (t.erase key).contains other = (!(key == other) && t.contains other) := by
  rw [contains, get?_erase, contains]
  cases key == other <;> rfl

theorem contains_congr (t : Table κ α) {other : κ} (h : (key == other) = true) :
    t.contains key = t.contains other := by
  rw [contains, get?_congr t h, contains]

theorem within_insert (t : Table κ α) (key : κ) (a : α) : t.Within (t.insert key a) := by
  intro other hother
  rw [contains_insert, hother, Bool.or_true]

/-- One name more on both sides. -/
theorem Within.insert (h : t.Within t') (key : κ) (a a' : α) :
    (t.insert key a).Within (t'.insert key a') := by
  intro other hother
  rw [contains_insert, Bool.or_eq_true] at hother ⊢
  exact hother.imp_right (h other)

/-- One name less on both sides. -/
theorem Within.erase (h : t.Within t') (key : κ) : (t.erase key).Within (t'.erase key) := by
  intro other hother
  rw [contains_erase, Bool.and_eq_true] at hother ⊢
  exact ⟨hother.1, h other hother.2⟩

theorem erase_within (t : Table κ α) (key : κ) : (t.erase key).Within t := by
  intro other hother
  rw [contains_erase, Bool.and_eq_true] at hother
  exact hother.2

/-- A key that a table does not have is no loss. -/
theorem Within.erase_right (h : t.Within t') (hkey : t.contains key = false) :
    t.Within (t'.erase key) := by
  intro other hother
  rw [contains_erase, h other hother, Bool.and_true, Bool.not_eq_true']
  refine Bool.eq_false_iff.2 fun heq => ?_
  rw [← contains_congr t heq, hkey] at hother
  cases hother

end Table

namespace Check

variable {α β : Type} {names names' : Table Name Tree}

/-! ## Steps that go the same way with more names -/

/-- A step keeps the names that are declared, and it comes to its end with more names declared if it
does so with fewer; then there are more of them after it, too. -/
structure Widens (x : Checker α) : Prop where
  keeps : ∀ {names a after}, x names = .ok a after → names.Within after
  mono : ∀ {names names' a after}, names.Within names' → x names = .ok a after →
    ∃ after', x names' = .ok a after' ∧ after.Within after'

theorem widens_pure (a : α) : Widens (pure a : Checker α) where
  keeps h := by
    cases h
    exact .refl _
  mono {_ names' _ _} hsub h := by
    cases h
    exact ⟨names', rfl, hsub⟩

theorem widens_throw (e : Fault) : Widens (throw e : Checker α) where
  keeps h := by cases h
  mono _ h := by cases h

theorem widens_object (cause : CheckFault) : Widens (object cause : Checker α) :=
  widens_throw _

theorem widens_ofExcept (r : Except Fault α) : Widens (ofExcept r) := by
  cases r with
  | ok a => exact widens_pure a
  | error e => exact widens_throw e

theorem widens_fold (e : Tree) : Widens (fold e) :=
  widens_ofExcept _

/-- One step after another. -/
theorem widens_bind {x : Checker α} {f : α → Checker β} (hx : Widens x) (hf : ∀ a, Widens (f a)) :
    Widens (x >>= f) where
  keeps h := by
    obtain ⟨a, mid, h₁, h₂⟩ := bind_eq_ok.1 h
    exact (hx.keeps h₁).trans ((hf a).keeps h₂)
  mono hsub h := by
    obtain ⟨a, mid, h₁, h₂⟩ := bind_eq_ok.1 h
    obtain ⟨mid', h₁', hmid⟩ := hx.mono hsub h₁
    obtain ⟨after', h₂', hafter⟩ := (hf a).mono hmid h₂
    exact ⟨after', bind_eq_ok.2 ⟨a, mid', h₁', h₂'⟩, hafter⟩

theorem widens_ite {c : Prop} [Decidable c] {x y : Checker α} (hx : Widens x) (hy : Widens y) :
    Widens (if c then x else y) := by
  split
  · exact hx
  · exact hy

/-- A declaration is one name more. -/
theorem widens_declare (name : Name) (value : Tree) : Widens (declare name value) where
  keeps {names _ _} h := by
    cases h
    exact Table.within_insert names name value
  mono hsub h := by
    cases h
    exact ⟨_, rfl, hsub.insert name value value⟩

/-- A name that is declared is declared among more. -/
theorem widens_mustBeDeclared (t : Tree) : Widens (mustBeDeclared t) := by
  refine widens_bind (widens_ofExcept _) fun name => ?_
  have hdemand (names : Table Name Tree) :
      (do if !(← get).contains name then object (.undeclared t) : Checker Unit) names =
        if names.contains name then .ok () names else .error (.check (.undeclared t)) names := by
    show (if (!names.contains name) = true then object (.undeclared t) else pure ()) names = _
    cases names.contains name <;> rfl
  constructor
  · intro names _ after h
    rw [hdemand] at h
    split at h
    · cases h
      exact .refl _
    · cases h
  · intro names names' _ after hsub h
    rw [hdemand] at h
    split at h
    · next hname =>
      cases h
      exact ⟨names', by rw [hdemand, if_pos (hsub name hname)], hsub⟩
    · cases h

/-! ## Expressions -/

theorem widens_textExpression (s : String) : Widens (textExpression s) :=
  widens_ite (widens_mustBeDeclared _) (widens_pure _)

mutual

/-- Expressions only ask for names. -/
theorem expression_widens : ∀ e : Tree, Widens (expression e)
  | .list es => expressions_widens es
  | .tuple [] => widens_throw _
  | .tuple [_] => widens_ite (widens_throw _) (widens_object _)
  | .tuple [_, e] => widens_ite (expression_widens e) (widens_object _)
  | .tuple [left, _, right] =>
    widens_ite (widens_throw _)
      (widens_bind (expression_widens left) fun _ => expression_widens right)
  | .tuple (_ :: _ :: _ :: _ :: _) => widens_ite (widens_throw _) (widens_object _)
  | .text s => widens_textExpression s
  | .int _ => widens_pure _
  | .bool _ => widens_pure _
  | .thunk _ => widens_object _
  | .none => widens_object _
  | .float _ => widens_object _

theorem expressions_widens : ∀ es : List Tree, Widens (expressions es)
  | [] => widens_pure _
  | e :: rest => widens_bind (expression_widens e) fun _ => expressions_widens rest

end

theorem sequence_widens (t : Tree) : Widens (sequence t) := by
  cases t with
  | list es => exact expressions_widens es
  | tuple es => exact expressions_widens es
  | text s => exact expressions_widens _
  | _ => exact widens_throw _

theorem iterable_widens (t : Tree) : Widens (iterable t) := by
  refine widens_bind (widens_ofExcept _) fun first => widens_ite ?_ ?_
  · refine widens_bind (widens_ofExcept _) fun (_, start, stop, step) => ?_
    refine widens_bind (widens_fold start) fun _ => ?_
    refine widens_bind (widens_fold stop) fun _ => ?_
    exact widens_ite (widens_bind (widens_fold step) fun _ => widens_pure _) (widens_pure _)
  · split
    · split
      · exact widens_object _
      · exact widens_pure _
    · refine widens_bind (widens_fold _) fun _ => ?_
      split
      · exact widens_mustBeDeclared _
      · exact widens_pure _

/-! ## Statements -/

theorem textBlock_widens (s : String) : Widens (textBlock s) := by
  unfold textBlock
  split
  · exact widens_pure _
  · exact widens_object _

/-- A step with a name declared for its duration: the name is taken away afterwards, unless it was
declared before. -/
def locally (name : Name) (x : Checker Unit) : Checker Unit := do
  let known := (← get).contains name
  declare name .none
  x
  if !known then modify fun names => names.erase name

/-- What is declared for the duration of a step is taken away after it, unless it was there before.
-/
theorem locally_eq_ok {name : Name} {x : Checker Unit} {u : Unit} {after : Table Name Tree} :
    locally name x names = .ok u after ↔ ∃ inner, x (names.insert name .none) = .ok () inner ∧
      after = if names.contains name then inner else inner.erase name := by
  show (x >>= fun _ => if (!names.contains name) = true then
    modify fun names => names.erase name else pure ()) (names.insert name .none) = _ ↔ _
  rw [bind_eq_ok]
  constructor
  · rintro ⟨_, inner, hx, hend⟩
    refine ⟨inner, hx, ?_⟩
    cases hknown : names.contains name <;> rw [hknown] at hend <;> cases hend <;> rfl
  · rintro ⟨inner, hx, rfl⟩
    refine ⟨(), inner, hx, ?_⟩
    cases names.contains name <;> rfl

/-- When the name is to be taken away it is there. -/
theorem Widens.contains_inner {x : Checker Unit} (hx : Widens x) {name : Name}
    {inner : Table Name Tree} (h : x (names.insert name .none) = .ok () inner) :
    inner.contains name = true := by
  refine hx.keeps h name ?_
  rw [Table.contains_insert, BEq.rfl, Bool.true_or]

/-- With more names declared the name is taken away only if it is taken away with fewer. -/
theorem locally_widens {x : Checker Unit} (hx : Widens x) (name : Name) :
    Widens (locally name x) where
  keeps {names _ after} h := by
    obtain ⟨inner, hinner, rfl⟩ := locally_eq_ok.1 h
    have hkept := (Table.within_insert names name .none).trans (hx.keeps hinner)
    split
    · exact hkept
    · next hname => exact hkept.erase_right (Bool.eq_false_iff.2 hname)
  mono {names names' _ after} hsub h := by
    obtain ⟨inner, hinner, rfl⟩ := locally_eq_ok.1 h
    obtain ⟨inner', hinner', hmore⟩ := hx.mono (hsub.insert name .none .none) hinner
    refine ⟨_, locally_eq_ok.2 ⟨inner', hinner', rfl⟩, ?_⟩
    -- A name that is known with fewer declarations is known with more of them.
    by_cases hname : names.contains name = true
    · rw [if_pos hname, if_pos (hsub name hname)]
      exact hmore
    · rw [if_neg hname]
      split
      · exact (Table.erase_within inner name).trans hmore
      · exact hmore.erase name

/-- After the step the name is declared if it was declared before it, and only then. -/
theorem contains_of_locally {name : Name} {x : Checker Unit} (hx : Widens x) {u : Unit}
    {after : Table Name Tree} (h : locally name x names = .ok u after) :
    after.contains name = names.contains name := by
  obtain ⟨inner, hinner, rfl⟩ := locally_eq_ok.1 h
  cases hname : names.contains name with
  | true => exact hx.contains_inner hinner
  | false =>
    rw [if_neg Bool.false_ne_true, Table.contains_erase, BEq.rfl]
    rfl

theorem form_forLoop (sequenceName : String) (target source body : Tree) :
    form sequenceName [.text "for", target, source, body] =
      iterable source >>= fun _ => ofExcept (Name.ofTree target) >>= fun name =>
        locally name (block body) := by
  have htag : Form.ofTree? (.text "for") = some .forLoop := Form.ofTree?_tag .forLoop
  rw [form, htag]
  rfl

mutual

/-- Every statement goes the same way with more names. -/
theorem node_widens : ∀ t : Tree, Widens (node t)
  | .tuple xs => by
    rw [node]
    exact form_widens "tuple" xs
  | .list xs => by
    rw [node]
    exact form_widens "list" xs
  | .text s => by
    rw [node]
    exact widens_ite (widens_throw _) (textBlock_widens s)
  | .none | .bool _ | .int _ | .float _ | .thunk _ => widens_throw _
termination_by x => sizeOf x

theorem form_widens (sequenceName : String) : ∀ xs : List Tree, Widens (form sequenceName xs)
  | [] => widens_throw _
  | tag :: arguments => by
    rw [form.eq_def]
    dsimp only
    split
    · split
      · refine widens_bind (widens_fold _) fun folded => ?_
        exact widens_bind (widens_ofExcept _) fun name => widens_declare name folded
      · exact widens_throw _
    · split
      · refine widens_bind (widens_mustBeDeclared _) fun _ => ?_
        exact widens_bind (widens_fold _) fun _ => widens_pure _
      · exact widens_throw _
    · split
      · exact widens_mustBeDeclared _
      · exact widens_throw _
    · split
      · exact widens_mustBeDeclared _
      · exact widens_throw _
    · split
      · next condition yes elifs no _ =>
        refine widens_bind (expression_widens condition) fun _ => ?_
        refine widens_bind (block_widens yes) fun _ => ?_
        exact widens_bind (elifBranches_widens elifs) fun _ => block_widens no
      · exact widens_throw _
    · split
      · next target source body =>
        refine widens_bind (iterable_widens source) fun _ => ?_
        refine widens_bind (widens_ofExcept _) fun name => ?_
        exact locally_widens (block_widens body) name
      · exact widens_throw _
    · split
      · next condition body =>
        exact widens_bind (expression_widens condition) fun _ => block_widens body
      · exact widens_throw _
    · split
      · exact sequence_widens _
      · exact widens_throw _
    · exact widens_pure _
    · split
      · exact widens_bind (widens_fold _) fun _ => widens_pure _
      · exact widens_throw _
    · exact widens_object _
termination_by x => sizeOf x

theorem block_widens : ∀ t : Tree, Widens (block t)
  | .list xs => by
    rw [block]
    exact statements_widens xs
  | .tuple xs => by
    rw [block]
    exact statements_widens xs
  | .text s => textBlock_widens s
  | .none | .bool _ | .int _ | .float _ | .thunk _ => widens_throw _
termination_by x => sizeOf x

/-- Statements in a row, each with what was declared before it. -/
theorem statements_widens : ∀ ts : List Tree, Widens (statements ts)
  | [] => widens_pure _
  | t :: rest => by
    rw [statements]
    exact widens_bind (node_widens t) fun _ => statements_widens rest
termination_by x => sizeOf x

theorem elifBranches_widens : ∀ t : Tree, Widens (elifBranches t)
  | .list xs => by
    rw [elifBranches]
    exact elifBranchItems_widens xs
  | .tuple xs => by
    rw [elifBranches]
    exact elifBranchItems_widens xs
  | .text _ => by
    rw [elifBranches]
    exact widens_ite (widens_pure _) (widens_throw _)
  | .none | .bool _ | .int _ | .float _ | .thunk _ => widens_throw _
termination_by x => sizeOf x

theorem elifBranchItems_widens : ∀ ts : List Tree, Widens (elifBranchItems ts)
  | [] => widens_pure _
  | t :: rest => by
    rw [elifBranchItems]
    exact widens_bind (elifBranch_widens t) fun _ => elifBranchItems_widens rest
termination_by x => sizeOf x

theorem elifBranch_widens : ∀ t : Tree, Widens (elifBranch t) := by
  intro t
  rw [elifBranch.eq_def]
  split
  · next condition body =>
    exact widens_bind (expression_widens condition) fun _ => block_widens body
  · next condition body =>
    exact widens_bind (expression_widens condition) fun _ => block_widens body
  · exact widens_throw _
  · exact widens_throw _
  · split
    · exact widens_bind (widens_textExpression _) fun _ => textBlock_widens _
    · exact widens_throw _
  · exact widens_throw _
termination_by x => sizeOf x

end

end Check

/-- **More declarations never make a program invalid, and the variable of a loop is declared inside
the loop only.**  What is accepted is accepted with more names declared, and at its end more names
are declared again.  An accepted statement keeps all names that were declared.  After a `for` loop
that is accepted its variable is declared exactly if it was declared before it, whatever the block
assigns and whatever loops are in it; and where a block has been accepted that has the variable
declared, the variable is there to be taken away. -/
theorem accepted_of_more_names {names names' : Table Name Tree} (hsub : names.Within names') :
    (∀ program after, Check.statements program names = .ok () after →
      ∃ after', Check.statements program names' = .ok () after' ∧ after.Within after') ∧
    (∀ t after, Check.node t names = .ok () after → names.Within after) ∧
    (∀ target source body name after, Name.ofTree target = .ok name →
      Check.node (.tuple [.text "for", target, source, body]) names = .ok () after →
      after.contains name = names.contains name ∧
        ∃ inner, Check.block body (names.insert name .none) = .ok () inner ∧
          after = if names.contains name then inner else inner.erase name) ∧
    ∀ body name inner, Check.block body (names.insert name .none) = .ok () inner →
      inner.contains name = true := by
  refine ⟨fun program after h => (Check.statements_widens program).mono hsub h,
    fun t after h => (Check.node_widens t).keeps h, ?_,
    fun body name inner h => (Check.block_widens body).contains_inner h⟩
  intro target source body name after hname h
  rw [Check.node, Check.form_forLoop] at h
  obtain ⟨_, mid, hsource, hrest⟩ := Check.bind_eq_ok.1 h
  obtain ⟨-, rfl⟩ := Check.iterable_declared hsource
  obtain ⟨name', mid', hname', hloop⟩ := Check.bind_eq_ok.1 hrest
  obtain ⟨heq, rfl⟩ := Check.ofExcept_eq_ok.1 hname'
  cases hname.symm.trans heq
  exact ⟨Check.contains_of_locally (Check.block_widens body) hloop, Check.locally_eq_ok.1 hloop⟩

/-- `for i in [1]:` `i = 2` and `for i in [3]:` `print(i)`; then `j = 0` -/
def Tree.loopInLoop : List Tree :=
  [.forLoop (.text "i") (.list [.int 1])
      [.assign (.text "i") (.int 2),
        .forLoop (.text "i") (.list [.int 3]) [.print [.text "i"]]],
    .assign (.text "j") (.int 0)]

/-- A loop over `i` inside of another one, with `i` declared before and without. -/
theorem accepted_of_more_names_loopInLoop :
    (Table.empty : Table Name Tree).Within (Table.empty.insert (.ofText "i") (.int 7)) ∧
      ∃ after after', Check.statements Tree.loopInLoop Table.empty = .ok () after ∧
        Check.statements Tree.loopInLoop (Table.empty.insert (.ofText "i") (.int 7)) =
          .ok () after' ∧
        after.Within after' ∧ after.keys = [.ofText "j"] ∧
        after'.keys = [.ofText "i", .ofText "j"] := by
  have hsub : (Table.empty : Table Name Tree).Within (Table.empty.insert (.ofText "i") (.int 7)) :=
    Table.within_insert _ _ _
  obtain ⟨after, h, hkeys⟩ : ∃ after, Check.statements Tree.loopInLoop Table.empty =
      .ok () after ∧ after.keys = [.ofText "j"] := ⟨_, by cbv, by cbv⟩
  obtain ⟨after', h', hmore⟩ := (accepted_of_more_names hsub).1 _ _ h
  obtain ⟨_, h₀, hkeys'⟩ : ∃ after', Check.statements Tree.loopInLoop
      (Table.empty.insert (.ofText "i") (.int 7)) = .ok () after' ∧
      after'.keys = [.ofText "i", .ofText "j"] := ⟨_, by cbv, by cbv⟩
  cases h₀.symm.trans h'
  exact ⟨hsub, after, _, h, h', hmore, hkeys, hkeys'⟩

end Retrace
