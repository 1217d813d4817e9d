import Retrace.Proofs.Closure
import Retrace.Proofs.Faults
import Retrace.Proofs.Guard
import Retrace.Proofs.Jumping

/-!
# Where a `break` leads

The word `break` promises to end the innermost loop around it.  A running program keeps that promise
in a `for` loop and in a `while` loop, but not in a `while` loop that counts: such a loop takes no
`break` up, and hands it on to what is around it.  There it may end a loop that it does not stand
for, and if there is none that takes it up, it stops the whole program.  The checker warns of
neither, since it accepts a `break` anywhere.

So there are two conditions on programs, and each has a result of its own.

* A statement *leaves* a `break` if it has one that it takes up nowhere inside of itself.  If no
  statement of a program does, the program never stops at a `break`.
* A statement *misses* a `break` if it is a loop that counts and a statement of its block leaves
  one, which it should have taken up.  If that is so nowhere in a program, a run of it is the run
  in which every loop ends by its own `break`s.

The first condition does not give the second one: a `break` in a counting loop inside of a `for`
loop stops no program, but it ends the `for` loop.  Nor does the second one give the first, as a
`break` may stand in no loop at all.

Both are said of trees first, where the proofs are by induction on the depth of statements, and then
of programs that were read from a text, where they can be computed.  A list of literals that stands
as a statement is judged by its tree.  It cannot be a loop that counts, for there are no tuples in
it, and the condition of such a loop is one.

* `Tree.Leaves`, `Tree.Misses`: the conditions on trees.
* `perform_ne_false`: what leaves no `break` never answers that it met one.
* `performTo_own`: where no `break` is missed, both readings of a statement are the same.
* `Phrase.Statement.leaves`, `Phrase.Statement.misses`: the conditions on statements.
* `no_break_escapes`: both results, for runs.
-/

set_option autoImplicit false

namespace Retrace

/-! ## Statements that leave a `break`, and loops that miss one -/

namespace Tree

/-- Does the statement hand a `break` on that is met in one of its blocks?  A branch does; and so
does a loop that counts, unless every loop ends by its own. -/
def handsOn (own : Bool) (t : Tree) : Bool :=
  match t.form? with
  | some .branch => true
  | _ => !own && t.counts

/-- The statement may leave a `break` to what is around it. -/
inductive Leaves (own : Bool) : Tree → Prop
  | breakLoop {t : Tree} : t.form? = some .breakLoop → Leaves own t
  | inside {t s : Tree} : t.handsOn own = true → s ∈ t.inner → Leaves own s → Leaves own t

/-- The statement is a loop that counts, and there is a `break` in it that it should take up. -/
def Misses (t : Tree) : Prop :=
  t.counts = true ∧ ∃ s ∈ t.inner, s.Leaves true

end Tree

namespace Exec

variable {β : Type} {watch : Watch}

/-- One statement, if those inside of it that leave no `break` never leave. -/
theorem statementTo_neverLeaves {own : Bool} {run : Route β} {t : Tree} (ht : ¬t.Leaves own)
    (hrun : ∀ s, ¬s.Leaves own → NeverLeaves (run s)) (n : Nat) :
    NeverLeaves (statementTo own watch run n t) := by
  have hinner (hands : t.handsOn own = true) : ∀ s ∈ t.inner, NeverLeaves (run s) :=
    fun s hs => hrun s fun hleaves => ht (.inside hands hs hleaves)
  intro next leave leave'
  refine ofExcept_bind_congr fun tag htag => ?_
  rw [← Tree.form?_of_head htag]
  cases h : t.form? with
  | none => rfl
  | some form =>
    cases form with
    | branch =>
      have hands : t.handsOn own = true := by rw [Tree.handsOn, h]
      exact branchTo_neverLeaves (hinner hands) h next leave leave'
    | whileLoop =>
      cases own with
      | true => rfl
      | false =>
        refine whileLoopTo_neverLeaves h (fun hcounts => hinner ?_) n next leave leave'
        rw [Tree.handsOn, h]
        exact hcounts
    | breakLoop => exact absurd (.breakLoop h) ht
    | _ => rfl

/-- A statement that leaves no `break` to others never takes the second end. -/
theorem performTo_neverLeaves (own : Bool) (n : Nat) {t : Tree} (ht : ¬t.Leaves own) :
    NeverLeaves (performTo own watch n t : TwoEnds β) := by
  induction n generalizing t with
  | zero => exact fun _ _ _ => rfl
  | succ n ih => exact statementTo_neverLeaves ht (fun s hs => ih hs) n

/-- A statement that leaves no `break` to others never answers that it met one. -/
theorem perform_ne_false {n : Nat} {t : Tree} (ht : ¬t.Leaves false) {m m' : Machine} :
    perform watch n t m ≠ .ok false m' := by
  intro h
  have hends : performTo false watch n t (pure true) (pure false) m =
      performTo false watch n t (pure true) (pure true) m := by
    rw [performTo_neverLeaves false n ht (pure true) (pure false) (pure true)]
  rw [performTo_eq, performTo_eq, byAnswer, byAnswer, bind_of_ok h, bind_of_ok h] at hends
  cases hends

/-- **Where no `break` is missed, both readings of a statement are the same.**  The statement is one
of a class in which none misses a `break`, and what is inside of a statement of the class is in it,
too. -/
theorem performTo_own {good : Tree → Prop}
    (hinner : ∀ t, good t → ∀ s ∈ t.inner, good s) (hmisses : ∀ t, good t → ¬t.Misses)
    (n : Nat) {t : Tree} (ht : good t) :
    (performTo false watch n t : TwoEnds β) = performTo true watch n t := by
  induction n generalizing t with
  | zero => rfl
  | succ n ih =>
    calc statementTo false watch (performTo false watch n) n t
      _ = statementTo false watch (performTo true watch n) n t :=
        statementTo_congr (fun s hs => ih (hinner t ht s hs)) false n
      _ = statementTo true watch (performTo true watch n) n t :=
        statementTo_own (fun hcounts s hs => performTo_neverLeaves true n
          fun hleaves => hmisses t ht ⟨hcounts, s, hs, hleaves⟩) n

end Exec

/-! ## Runs -/

namespace Run

variable {n : Nat} {m m' : Machine} {e : Fault}

theorem topLevel_fault {t : Tree} (ht : ¬t.Leaves false)
    (h : topLevel Exec.unwatched n t m = .error e m') : e.isOfRun = true := by
  rcases topLevel_stops h with ⟨-, m₁, hbreak⟩ | hrun
  · exact absurd hbreak (Exec.perform_ne_false ht)
  · exact hrun

theorem statements_fault {program : List Tree} (hp : ∀ t ∈ program, ¬t.Leaves false)
    (h : (statements n program m).2.1 = some e) : e.isOfRun = true := by
  induction program generalizing m with
  | nil => cases h
  | cons t rest ih =>
    rw [statements, statementsWatched] at h
    split at h
    · exact ih (fun u hu => hp u (List.mem_cons_of_mem _ hu)) h
    · next htop =>
      cases h
      exact topLevel_fault (hp t (List.mem_cons_self ..)) htop

/-- What a run stops with, if no statement of the program leaves a `break` to others. -/
theorem execute_fault {program : List Tree} (hp : ∀ t ∈ program, ¬t.Leaves false)
    (h : (execute n program m).fault? = some e) : e.isOfRun = true := by
  rw [execute] at h
  split at h
  · next hprofile =>
    cases h
    exact profile_stops hprofile
  · exact statements_fault hp h

/-- Carries out a statement of the outermost level to two ends: what is done after each statement,
and the fault of a `break` that no loop has taken up. -/
def topLevelTo (own : Bool) (n : Nat) (t : Tree) : Exec Unit :=
  Exec.performTo own Exec.unwatched n t Exec.prune (throw .breakOutsideLoop)

/-- A statement of a program is carried out to two ends: a prune, and a fault. -/
theorem topLevel_eq_topLevelTo (n : Nat) (t : Tree) :
    topLevel Exec.unwatched n t = topLevelTo false n t := by
  rw [topLevelTo, Exec.performTo_eq, topLevel, Exec.carryOutWatched, Exec.byAnswer, bind_assoc]
  refine bind_congr fun b => ?_
  cases b <;> rfl

end Run

/-! ## Trees without tuples -/

namespace Tree

mutual

/-- Is there no tuple in the tree? -/
def isTupleFree : Tree → Bool
  | .tuple _ => false
  | .list items => areTupleFree items
  | _ => true

/-- Is there no tuple in the trees? -/
def areTupleFree : List Tree → Bool
  | [] => true
  | t :: rest => t.isTupleFree && areTupleFree rest

end

theorem areTupleFree_iff {ts : List Tree} :
    areTupleFree ts = true ↔ ∀ t ∈ ts, t.isTupleFree = true := by
  induction ts with
  | nil => simp [areTupleFree]
  | cons t rest ih => rw [areTupleFree, Bool.and_eq_true, ih, List.forall_mem_cons]

variable {t : Tree} (ht : t.isTupleFree = true)
include ht

theorem isTupleFree_item {ts : List Tree} (hitems : t.items? = some ts) {s : Tree} (hs : s ∈ ts) :
    s.isTupleFree = true := by
  cases t with
  | list xs =>
    cases hitems
    exact areTupleFree_iff.1 ht s hs
  | tuple xs => cases ht
  | text x =>
    cases hitems
    obtain ⟨c, -, rfl⟩ := List.mem_map.1 hs
    rfl
  | _ => cases hitems

theorem isTupleFree_getD {s : Tree} (hs : s ∈ t.items?.getD []) : s.isTupleFree = true := by
  cases hitems : t.items? with
  | none =>
    rw [hitems] at hs
    cases hs
  | some ts =>
    rw [hitems] at hs
    exact isTupleFree_item ht hitems hs

theorem isTupleFree_block {body : Tree} (hb : body ∈ t.blocks) : body.isTupleFree = true := by
  rw [blocks] at hb
  split at hb
  · split at hb
    · next yes elifs no hparts =>
      have hall {s : Tree} := isTupleFree_item ht (items?_of_unpack5 hparts) (s := s)
      rw [List.mem_cons, List.mem_cons, List.mem_filterMap] at hb
      rcases hb with rfl | rfl | ⟨x, hx, hbody⟩
      · exact hall (by simp)
      · exact hall (by simp)
      · have helifs : elifs.isTupleFree = true := hall (by simp)
        rw [elifBlock?] at hbody
        split at hbody
        · next hpair =>
          cases hbody
          exact isTupleFree_item (isTupleFree_getD helifs hx) (items?_of_unpack2 hpair) (by simp)
        · cases hbody
    · cases hb
  · split at hb
    · next hparts =>
      rw [List.mem_singleton] at hb
      subst hb
      exact isTupleFree_item ht (items?_of_unpack4 hparts) (by simp)
    · cases hb
  · split at hb
    · next hparts =>
      rw [List.mem_singleton] at hb
      subst hb
      exact isTupleFree_item ht (items?_of_unpack3 hparts) (by simp)
    · cases hb
  · cases hb

/-- What stands inside of a tree without tuples has none either. -/
theorem isTupleFree_inner {s : Tree} (hs : s ∈ t.inner) : s.isTupleFree = true := by
  obtain ⟨body, hb, hs⟩ := List.mem_flatMap.1 hs
  exact isTupleFree_getD (isTupleFree_block ht hb) hs

/-- The condition of a loop that counts is a tuple. -/
theorem counts_of_isTupleFree : t.counts = false := by
  rw [counts]
  split
  · next hform =>
    rw [driven?, hform]
    dsimp only
    split
    · next counter op stop body hparts =>
      have hcondition : (Tree.tuple [counter, op, stop]).isTupleFree = true :=
        isTupleFree_item ht (items?_of_unpack3 hparts) (by simp)
      cases hcondition
    · rfl
  · rfl

end Tree

/-- May a list of the form leave a `break` to others, if it stands as a statement? -/
def Form.mayLeave : Form → Bool
  | .branch => true
  | .breakLoop => true
  | _ => false

/-- Without tuples a `break` is left by a `break` or by a choice, as no loop counts. -/
theorem Tree.Leaves.mayLeave {own : Bool} {t : Tree} (ht : t.isTupleFree = true)
    (h : t.Leaves own) : t.form?.any Form.mayLeave = true := by
  cases h with
  | breakLoop hform =>
    rw [hform]
    rfl
  | inside hands _ _ =>
    rw [handsOn, counts_of_isTupleFree ht, Bool.and_false] at hands
    split at hands
    · next hform =>
      rw [hform]
      rfl
    · cases hands

/-! ## Programs -/

namespace Phrase

mutual

theorem Literal.isTupleFree_tree : ∀ v : Literal, v.tree.isTupleFree = true
  | .int _ => rfl
  | .bool _ => rfl
  | .name _ => rfl
  | .string _ => rfl
  | .list items => Literal.areTupleFree_trees items

theorem Literal.areTupleFree_trees : ∀ vs : List Literal,
    Tree.areTupleFree (Literal.trees vs) = true
  | [] => rfl
  | v :: rest => by
    rw [Literal.trees, Tree.areTupleFree, Literal.isTupleFree_tree v,
      Literal.areTupleFree_trees rest, Bool.and_self]

end

/-- Does a loop with the condition count?  It does if a number stands to the right of a `<`. -/
def Expression.counts : Expression → Bool
  | .binary _ (.known .lt) (.literal (.int _)) => true
  | .binary _ (.known .lt) (.literal (.bool _)) => true
  | _ => false

mutual

/-- May the statement leave a `break` to what is around it?  A list that stands as a statement may,
if it starts with the name of a form that may. -/
def Statement.leaves (own : Bool) : Statement → Bool
  | .branch _ yes elifs no =>
    Statement.anyLeaves own yes || Elif.anyLeaves own elifs || Statement.anyLeaves own no
  | .whileLoop condition body => !own && condition.counts && Statement.anyLeaves own body
  | .breakLoop => true
  | .literals items => (Tree.list (Literal.trees items)).form?.any Form.mayLeave
  | _ => false

/-- May a statement after a further condition leave a `break`? -/
def Elif.leaves (own : Bool) : Elif → Bool
  | .mk _ body => Statement.anyLeaves own body

/-- May one of the statements leave a `break` to what is around them? -/
def Statement.anyLeaves (own : Bool) : List Statement → Bool
  | [] => false
  | s :: rest => s.leaves own || Statement.anyLeaves own rest

/-- May a statement after one of the further conditions leave a `break`? -/
def Elif.anyLeaves (own : Bool) : List Elif → Bool
  | [] => false
  | x :: rest => x.leaves own || Elif.anyLeaves own rest

end

mutual

/-- Is there a loop that counts in the statement, with a `break` whose innermost loop it is? -/
def Statement.misses : Statement → Bool
  | .branch _ yes elifs no =>
    Statement.anyMisses yes || Elif.anyMisses elifs || Statement.anyMisses no
  | .forLoop _ _ body => Statement.anyMisses body
  | .whileLoop condition body =>
    condition.counts && Statement.anyLeaves true body || Statement.anyMisses body
  | _ => false

/-- Is there such a loop after a further condition? -/
def Elif.misses : Elif → Bool
  | .mk _ body => Statement.anyMisses body

/-- Is there such a loop in one of the statements? -/
def Statement.anyMisses : List Statement → Bool
  | [] => false
  | s :: rest => s.misses || Statement.anyMisses rest

/-- Is there such a loop after one of the further conditions? -/
def Elif.anyMisses : List Elif → Bool
  | [] => false
  | x :: rest => x.misses || Elif.anyMisses rest

end

/-- What is so of a list if it is so of its first item or of the others is so if it is so of any
item. -/
theorem any_of_mem {α : Type} {f : List α → Bool} {g : α → Bool}
    (hcons : ∀ x rest, f (x :: rest) = (g x || f rest)) {x : α} {xs : List α} (hx : x ∈ xs)
    (h : g x = true) : f xs = true := by
  induction xs with
  | nil => cases hx
  | cons x' rest ih =>
    rw [hcons, Bool.or_eq_true]
    rcases List.mem_cons.1 hx with rfl | hx
    · exact .inl h
    · exact .inr (ih hx)

theorem Statement.anyLeaves_of_mem {own : Bool} {ss : List Statement} {s : Statement} (hs : s ∈ ss)
    (h : s.leaves own = true) : anyLeaves own ss = true :=
  any_of_mem (fun _ _ => rfl) hs h

theorem Elif.anyLeaves_of_mem {own : Bool} {xs : List Elif} {x : Elif} (hx : x ∈ xs)
    (h : Statement.anyLeaves own x.body = true) : anyLeaves own xs = true := by
  obtain ⟨condition, body⟩ := x
  exact any_of_mem (fun _ _ => rfl) hx h

theorem Statement.anyMisses_of_mem {ss : List Statement} {s : Statement} (hs : s ∈ ss)
    (h : s.misses = true) : anyMisses ss = true :=
  any_of_mem (fun _ _ => rfl) hs h

theorem Elif.anyMisses_of_mem {xs : List Elif} {x : Elif} (hx : x ∈ xs)
    (h : Statement.anyMisses x.body = true) : anyMisses xs = true := by
  obtain ⟨condition, body⟩ := x
  exact any_of_mem (fun _ _ => rfl) hx h

/-- A condition of three parts is that of a loop that counts if a `<` and a number are in it. -/
theorem counts_whileLoop (counter op stop : Tree) (body : List Tree) :
    (Tree.whileLoop (.tuple [counter, op, stop]) body).counts =
      (op.isText "lt" && stop.whole?.isSome) := by
  show (if op.isText "lt" && stop.whole?.isSome then some counter else none).isSome = _
  cases op.isText "lt" && stop.whole?.isSome <;> rfl

theorem Expression.counts_of_tree {condition : Expression} {body : List Statement}
    (h : (Statement.whileLoop condition body).tree.counts = true) : condition.counts = true := by
  cases condition with
  | literal v => cases v <;> cases h
  | index name position =>
    rw [Statement.tree, tree, Tree.index, counts_whileLoop] at h
    cases h
  | length e => cases h
  | binary left op right =>
    rw [Statement.tree, tree, Tree.binary, counts_whileLoop, Bool.and_eq_true] at h
    obtain ⟨hop, hright⟩ := h
    have hlt : op = .known .lt := by
      cases op with
      | dot => cases hop
      | known op =>
        cases op with
        | lt => rfl
        | _ => cases hop
    subst hlt
    cases right with
    | literal v =>
      cases v with
      | int n => rfl
      | bool b => rfl
      | _ => cases hright
    | _ => cases hright

namespace Statement

theorem isTupleFree_tree {s : Statement} (h : s.isList = true) : s.tree.isTupleFree = true := by
  cases s with
  | literals items => exact Literal.areTupleFree_trees items
  | _ => cases h

/-- Only a `while` loop with the right condition is a loop that counts. -/
theorem eq_whileLoop_of_counts {s : Statement} (h : s.tree.counts = true) :
    ∃ condition body, s = .whileLoop condition body ∧ condition.counts = true := by
  cases s with
  | whileLoop condition body => exact ⟨condition, body, rfl, Expression.counts_of_tree h⟩
  | literals items =>
    rw [Tree.counts_of_isTupleFree (isTupleFree_tree rfl)] at h
    cases h
  | compound op name e => cases op <;> cases h
  | _ => cases h

/-- The trees in the blocks of a statement are those of its inner statements. -/
theorem exists_of_mem_inner {s : Statement} (hlist : s.isList = false) {u : Tree}
    (hu : u ∈ s.tree.inner) : ∃ s' ∈ s.inner, s'.tree = u := by
  rwa [inner_tree hlist, trees_eq_map, List.mem_map] at hu

/-- What may leave a `break` as a tree may do so as a statement. -/
theorem leaves_of_tree {own : Bool} {t : Tree} (h : t.Leaves own) :
    ∀ {s : Statement}, s.tree = t → s.leaves own = true := by
  -- A list of literals may be a statement of any form, so it is judged by its tree.
  have hlist {s : Statement} (hs : s.isList = true) (h : s.tree.Leaves own) :
      s.leaves own = true := by
    cases s with
    | literals items => exact h.mayLeave (isTupleFree_tree hs)
    | _ => cases hs
  induction h with
  | @breakLoop t hform =>
    rintro s rfl
    cases hs : s.isList with
    | true => exact hlist hs (.breakLoop hform)
    | false =>
      rw [form?_tree hs] at hform
      cases s with
      | breakLoop => rfl
      | _ => cases hform
  | @inside t u hands hmem hleaves ih =>
    rintro s rfl
    cases hs : s.isList with
    | true => exact hlist hs (.inside hands hmem hleaves)
    | false =>
      obtain ⟨s', hs', hu⟩ := exists_of_mem_inner hs hmem
      have hs'' := ih hu
      cases s with
      | branch condition yes elifs no =>
        rw [inner, List.mem_append, List.mem_append, List.mem_flatMap] at hs'
        rw [leaves, Bool.or_eq_true, Bool.or_eq_true]
        rcases hs' with (hyes | hno) | ⟨x, hx, hbody⟩
        · exact .inl (.inl (anyLeaves_of_mem hyes hs''))
        · exact .inr (anyLeaves_of_mem hno hs'')
        · exact .inl (.inr (Elif.anyLeaves_of_mem hx (anyLeaves_of_mem hbody hs'')))
      | whileLoop condition body =>
        rw [Tree.handsOn, form?_tree hs] at hands
        obtain ⟨hown, hcounts⟩ := Bool.and_eq_true_iff.1 hands
        rw [leaves, hown, Expression.counts_of_tree hcounts]
        exact anyLeaves_of_mem hs' hs''
      | forLoop name source body =>
        rw [Tree.handsOn, form?_tree hs] at hands
        obtain ⟨-, hcounts⟩ := Bool.and_eq_true_iff.1 hands
        cases hcounts
      | _ => cases hs'

/-- What misses a `break` as a tree does so as a statement. -/
theorem misses_of_tree {s : Statement} (h : s.tree.Misses) : s.misses = true := by
  obtain ⟨hcounts, u, hu, hleaves⟩ := h
  obtain ⟨condition, body, rfl, hcondition⟩ := eq_whileLoop_of_counts hcounts
  obtain ⟨s', hs', hu⟩ := exists_of_mem_inner rfl hu
  have hbody : anyLeaves true body = true := anyLeaves_of_mem hs' (leaves_of_tree hleaves hu)
  rw [misses, hcondition, hbody]
  rfl

/-- What is missed inside of a statement is missed in it. -/
theorem misses_of_inner {s s' : Statement} (hs' : s' ∈ s.inner) (h : s'.misses = true) :
    s.misses = true := by
  cases s with
  | branch condition yes elifs no =>
    rw [inner, List.mem_append, List.mem_append, List.mem_flatMap] at hs'
    rw [misses, Bool.or_eq_true, Bool.or_eq_true]
    rcases hs' with (hyes | hno) | ⟨x, hx, hbody⟩
    · exact .inl (.inl (anyMisses_of_mem hyes h))
    · exact .inr (anyMisses_of_mem hno h)
    · exact .inl (.inr (Elif.anyMisses_of_mem hx (anyMisses_of_mem hbody h)))
  | forLoop name source body => exact anyMisses_of_mem hs' h
  | whileLoop condition body =>
    rw [misses, Bool.or_eq_true]
    exact .inr (anyMisses_of_mem hs' h)
  | _ => cases hs'

/-- The tree is that of a statement in which no `break` is missed, or one without tuples. -/
def Heeds (t : Tree) : Prop :=
  t.isTupleFree = true ∨ ∃ s : Statement, s.misses = false ∧ s.tree = t

/-- Where no `break` is missed, none is missed inside. -/
theorem Heeds.inner (t : Tree) (ht : Heeds t) (u : Tree) (hu : u ∈ t.inner) : Heeds u := by
  rcases ht with hfree | ⟨s, hs, rfl⟩
  · exact .inl (Tree.isTupleFree_inner hfree hu)
  · cases hlist : s.isList with
    | true => exact .inl (Tree.isTupleFree_inner (isTupleFree_tree hlist) hu)
    | false =>
      obtain ⟨s', hs', rfl⟩ := exists_of_mem_inner hlist hu
      refine .inr ⟨s', ?_, rfl⟩
      rw [← Bool.not_eq_true] at hs ⊢
      exact fun h => hs (misses_of_inner hs' h)

theorem Heeds.not_misses (t : Tree) (ht : Heeds t) : ¬t.Misses := by
  rcases ht with hfree | ⟨s, hs, rfl⟩
  · rintro ⟨hcounts, -⟩
    rw [Tree.counts_of_isTupleFree hfree] at hcounts
    cases hcounts
  · intro h
    rw [misses_of_tree h] at hs
    cases hs

/-- The statements of a program that leaves no `break` leave none as trees. -/
theorem not_leaves_of_mem {own : Bool} {program : List Statement}
    (h : anyLeaves own program = false) {t : Tree} (ht : t ∈ trees program) : ¬t.Leaves own := by
  intro hleaves
  rw [trees_eq_map, List.mem_map] at ht
  obtain ⟨s, hs, hst⟩ := ht
  rw [anyLeaves_of_mem hs (leaves_of_tree hleaves hst)] at h
  cases h

theorem heeds_of_mem {program : List Statement} (h : anyMisses program = false) {t : Tree}
    (ht : t ∈ trees program) : Heeds t := by
  rw [trees_eq_map, List.mem_map] at ht
  obtain ⟨s, hs, rfl⟩ := ht
  refine .inr ⟨s, ?_, rfl⟩
  rw [← Bool.not_eq_true] at h ⊢
  exact fun hmisses => h (anyMisses_of_mem hs hmisses)

end Statement
end Phrase

open Phrase (Statement)

/-- **A `break` leads out of no program that leaves none, and ends the innermost loop around it
wherever that loop does not count.**

The first part is of all trees: to carry out a statement, and then to go on by whether it met a
`break`, is to carry it out to two ends, where the second one is what comes after the innermost loop
around it that is not a counting one.  The other parts are of all programs that can be read, whether
the checker accepts them or not, with any number of passes and from any machine.  If each `break`
stands in a loop that does not count, at whatever depth of branches and of loops that do, no run
stops at a `break`.  If no `break` has a loop that counts for its innermost loop, the run is the one
in which every loop, of whatever form, ends by its own `break`s. -/
theorem no_break_escapes (program : List Statement) (n : Nat) (m : Machine) :
    (∀ (β : Type) (t : Tree) (next leave : Exec β),
      Exec.byAnswer (Exec.perform Exec.unwatched n t) next leave =
        Exec.performTo false Exec.unwatched n t next leave) ∧
    (Statement.anyLeaves false program = false →
      (Run.execute n (Statement.trees program) m).fault? ≠ some .breakOutsideLoop) ∧
    (Statement.anyMisses program = false →
      Run.execute n (Statement.trees program) m =
        Run.executeBy (Run.topLevelTo true n) (Statement.trees program) m) := by
  refine ⟨fun β t next leave => (Exec.performTo_eq _ n t next leave).symm,
    fun hleaves hfault => ?_, fun hmisses => ?_⟩
  · have hrun := Run.execute_fault (fun t ht => Statement.not_leaves_of_mem hleaves ht) hfault
    cases hrun
  · refine Run.execute_eq_executeBy (fun t ht => ?_) m
    rw [Run.topLevel_eq_topLevelTo, Run.topLevelTo, Run.topLevelTo,
      Exec.performTo_own Statement.Heeds.inner Statement.Heeds.not_misses n
        (Statement.heeds_of_mem hmisses ht)]

/-- A loop that counts around a loop with a `break`, and a loop with a `break` after it; each
`break` stands in branches. -/
def nestedBreaks : List Statement :=
  [.assign "x" (.literal (.int 0)),
   .whileLoop (.binary (.literal (.name "x")) (.known .lt) (.literal (.int 3)))
    [.forLoop "i" (.items (.literal (.list [.int 1, .int 2])))
      [.branch (.binary (.literal (.name "i")) (.known .eq) (.literal (.name "x")))
        [.branch (.literal (.int 1)) [.breakLoop] [] []] [] [],
       .print (.literal (.name "i")) []]],
   .whileLoop (.literal (.bool true))
    [.compound .plus "x" (.literal (.int 1)),
     .branch (.binary (.literal (.name "x")) (.known .eq) (.literal (.int 5))) [.breakLoop] [] []],
   .print (.literal (.name "x")) []]

/-- `nestedBreaks` has a `break` in a `for` loop in a loop that counts, and is run as promised. -/
theorem no_break_escapes_nestedBreaks :
    Statement.anyLeaves false nestedBreaks = false ∧ Statement.anyMisses nestedBreaks = false ∧
    Run.check (Statement.trees nestedBreaks) = .ok () ∧
    (Run.execute 100 (Statement.trees nestedBreaks) (Machine.new {})).fault? ≠
      some .breakOutsideLoop ∧
    Run.execute 100 (Statement.trees nestedBreaks) (Machine.new {}) =
      Run.executeBy (Run.topLevelTo true 100) (Statement.trees nestedBreaks) (Machine.new {}) := by
  obtain ⟨-, hescapes, hends⟩ := no_break_escapes nestedBreaks 100 (Machine.new {})
  exact ⟨rfl, rfl, by cbv, hescapes rfl, hends rfl⟩

/-- A loop that counts and has a `break` in it. -/
def countingBreak : List Statement :=
  [.assign "x" (.literal (.int 0)),
   .whileLoop (.binary (.literal (.name "x")) (.known .lt) (.literal (.int 5))) [.breakLoop]]

/-- A `break` inside of a branch only. -/
def looseBreak : List Statement :=
  [.branch (.literal (.int 1)) [.breakLoop] [] []]

/-- The same loop that counts, in a loop over two texts, each of which is printed after it. -/
def strayBreak : List Statement :=
  [.forLoop "i" (.items (.literal (.list [.string "\"a\"", .string "\"b\""])))
    (countingBreak ++ [.print (.literal (.name "i")) []])]

/-- The checker accepts a `break` anywhere, and it may lead out of the program: from a loop that
counts, and where there is no loop at all.  If there is a loop around the one that counts, it ends
that loop, and nothing is printed; if it ended its own, both texts would be. -/
theorem break_escapes :
    Run.check (Statement.trees countingBreak) = .ok () ∧
    (Run.execute 3 (Statement.trees countingBreak) (Machine.new {})).fault? =
      some .breakOutsideLoop ∧
    Run.check (Statement.trees looseBreak) = .ok () ∧
    (Run.execute 3 (Statement.trees looseBreak) (Machine.new {})).fault? =
      some .breakOutsideLoop ∧
    Run.check (Statement.trees strayBreak) = .ok () ∧
    Statement.anyLeaves false strayBreak = false ∧
    (Run.statements 5 (Statement.trees strayBreak) (Machine.new {})).2.2.printed = [] ∧
    (Run.statementsBy (Run.topLevelTo true 5) (Statement.trees strayBreak)
      (Machine.new {})).2.2.printed = ["b\n", "a\n"] := by
  refine ⟨by cbv, ?_, by cbv, ?_, by cbv, rfl, by cbv, by cbv⟩
  · exact (Run.execute_of_profile (by cbv)).trans (by cbv)
  · exact (Run.execute_of_profile (by cbv)).trans (by cbv)

end Retrace
