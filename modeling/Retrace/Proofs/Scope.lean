import Retrace.Check
import Retrace.Proofs.Data
import Retrace.Proofs.Meaning
import Retrace.Proofs.Phrase

/-!
# Which names are bound where

The checker reads a program from top to bottom and objects to a name that is read before there was
an assignment to it.  A program that it accepts may read a name that is not bound even so, for three
reasons.

* Not all expressions are looked at.  What is assigned, for one, is not.
* A block is looked at whether it will be carried out or not, and what is assigned in it counts as
  declared from there on.
* A loop that counts takes what its counter is bound to for an expression.  If that is a text, it is
  looked up as if it were a name.

A program is *settled* if this does not happen to it.  For the first two it is enough to know of
some names, at each place, that they are bound there; these names are gathered from top to bottom as
well, but of a branch only those count that each of its blocks binds, and of a loop none.

The condition is meant to be added to what the checker does, and to leave to it what it does well.
So it has a parameter: at the places where the checker looks, only names of a given sort count.
With all names it is a condition that needs no checker, and this is what the proofs about runs use.
With the names that are assigned in blocks it is what has to be asked of a program that was
accepted, as for all other names the checker has found out that they are bound.  At the places where
the checker does not look all names count in any case.

For counters it is asked that what is assigned to them in their loops is an expression of numbers
(`Expression.isScalar`), that they are not reversed there, and that no `for` loop inside drives
them.

A list of literals may stand as a statement, and it is carried out as if it were the statement that
it looks like.  It is judged as that statement (`Statement.plain`).

* `Name.within`: reading these names only.
* `Statement.after`: the names that are bound after a statement.
* `Statement.settled`: the condition, in which only names of a given sort count where the checker
  looks.
* `Statement.assignedInBlocks`: the names that have to count if a program is accepted.
-/

set_option autoImplicit false

namespace Retrace

/-! ## Names among others -/

namespace Name

/-- Is a name one of those that the texts give? -/
def isOneOf (xs : List String) (name : Name) : Bool :=
  xs.any fun x => name == .ofText x

/-- Are the names that count among those that the texts give? -/
def within (counts : Name → Bool) (xs : List String) (names : List Name) : Bool :=
  names.all fun name => !counts name || name.isOneOf xs

/-- All names count. -/
def every : Name → Bool := fun _ => true

variable {counts : Name → Bool} {xs : List String} {names : List Name}

theorem isOneOf_ofText {x : String} (hx : x ∈ xs) : isOneOf xs (.ofText x) = true :=
  List.any_eq_true.2 ⟨x, hx, BEq.rfl⟩

theorem isOneOf_congr {name other : Name} (h : (name == other) = true) :
    isOneOf xs name = isOneOf xs other := by
  unfold isOneOf
  congr 1
  funext x
  exact BEq.congr_left h

theorem isOneOf_cons {x : String} {name : Name} :
    isOneOf (x :: xs) name = (name == ofText x || isOneOf xs name) :=
  rfl

theorem isOneOf_append {ys : List String} {name : Name} :
    isOneOf (xs ++ ys) name = (isOneOf xs name || isOneOf ys name) :=
  List.any_append

/-- Among more names. -/
theorem isOneOf_mono {ys : List String} {name : Name} (h : isOneOf xs name = true) (hxy : xs ⊆ ys) :
    isOneOf ys name = true := by
  obtain ⟨x, hx, hname⟩ := List.any_eq_true.1 h
  exact List.any_eq_true.2 ⟨x, hxy hx, hname⟩

theorem within_every (h : within every xs names = true) :
    ∀ name ∈ names, isOneOf xs name = true := by
  intro name hn
  simpa [every] using List.all_eq_true.1 h name hn

/-- Reading two lists of names. -/
theorem within_append {others : List Name} :
    within counts xs (names ++ others) = true ↔
      within counts xs names = true ∧ within counts xs others = true := by
  rw [within, List.all_append, Bool.and_eq_true]
  rfl

/-- What is known of the names that do not count may be added. -/
theorem within_every_of (h : within counts xs names = true)
    (hrest : ∀ name ∈ names, counts name = false → isOneOf xs name = true) :
    within every xs names = true := by
  refine List.all_eq_true.2 fun name hn => ?_
  have hname := List.all_eq_true.1 h name hn
  cases hc : counts name with
  | true => simpa [hc, every] using hname
  | false => simpa [every] using hrest name hn hc

end Name

/-! ## Trees -/

theorem Form.tag_of_ofTag? {tag : String} {form : Form} (h : Form.ofTag? tag = some form) :
    form.tag = tag := by
  have hfound := List.find?_some h
  exact eq_of_beq hfound

theorem Form.ofTree?_tag (form : Form) : Form.ofTree? (.text form.tag) = some form := by
  cases form with
  | compound op => cases op <;> decide
  | _ => decide

/-- No character of a text is a longer text. -/
theorem Tree.isText_of_head_text {s tag : String} {x : Tree} (h : (Tree.text s).head = .ok x)
    (htag : tag.length ≠ 1) : x.isText tag = false := by
  rw [head, items?, characters] at h
  cases hs : s.toList with
  | nil =>
    rw [hs] at h
    cases h
  | cons c cs =>
    rw [hs] at h
    cases h
    refine Bool.eq_false_iff.2 fun ht => htag ?_
    rw [← eq_of_beq ht]
    simp

namespace Tree

theorem eq_of_mem_reads_text {s : String} {name : Name} (h : name ∈ (Tree.text s).reads) :
    name = .ofText s := by
  rw [reads] at h
  split at h
  · cases h
  · exact List.mem_singleton.1 h

theorem mem_readsOf {e : Tree} {es : List Tree} {name : Name} (he : e ∈ es) (hn : name ∈ e.reads) :
    name ∈ readsOf es := by
  induction es with
  | nil => cases he
  | cons e' rest ih =>
    rcases List.mem_cons.1 he with rfl | he
    · exact List.mem_append_left _ hn
    · exact List.mem_append_right _ (ih he)

/-- The names that are read when a `for` loop goes through a tree. -/
def sourceReads : Tree → List Name
  | .tuple [_, start, stop, step] => start.reads ++ stop.reads ++ step.reads
  | t => t.reads

section

variable {D : List String}

/-- A source that reads these names only does so as an expression, too. -/
theorem within_reads {t : Tree} (h : Name.within Name.every D t.sourceReads = true) :
    Name.within Name.every D t.reads = true := by
  unfold sourceReads at h
  split at h
  · rfl
  · exact h

theorem within_item {e : Tree} {es : List Tree} (he : e ∈ es)
    (h : Name.within Name.every D (Tree.list es).sourceReads = true) :
    Name.within Name.every D e.reads = true :=
  List.all_eq_true.2 fun name hn => List.all_eq_true.1 h name (mem_readsOf he hn)

/-- A range is a tuple, or a list of four items of which the first one is its name. -/
theorem within_parts {t tag start stop step first : Tree}
    (ht : t.unpack4 = .ok (tag, start, stop, step)) (hfirst : t.head = .ok first)
    (hrange : first.isText "range" = true)
    (h : Name.within Name.every D t.sourceReads = true) :
    Name.within Name.every D start.reads = true ∧ Name.within Name.every D stop.reads = true ∧
      Name.within Name.every D step.reads = true := by
  have hparts := items?_of_unpack4 ht
  cases t with
  | tuple items =>
    cases hparts
    rw [sourceReads, Name.within_append, Name.within_append] at h
    exact ⟨h.1.1, h.1.2, h.2⟩
  | list items =>
    cases hparts
    refine ⟨within_item ?_ h, within_item ?_ h, within_item ?_ h⟩ <;> simp
  | text s =>
    rw [isText_of_head_text hfirst (by decide)] at hrange
    cases hrange
  | _ => cases hparts

end

/-- The counter of a loop with a condition, if it counts and its counter is a text. -/
def counters : Tree → List String
  | .tuple [.text x, op, stop] => if op.isText "lt" && stop.whole?.isSome then [x] else []
  | _ => []

section

variable {counter op stop : Tree}

/-- The counter of a counting loop, if it is a text. -/
theorem mem_counters (h : (op.isText "lt" && stop.whole?.isSome) = true) {x : String} :
    x ∈ (Tree.tuple [counter, op, stop]).counters ↔ counter = .text x := by
  cases counter with
  | text y =>
    rw [counters, if_pos h, List.mem_singleton, text.injEq, eq_comm]
  | _ => simp [counters]

theorem counters_of_not (h : ¬(op.isText "lt" && stop.whole?.isSome) = true) :
    (Tree.tuple [counter, op, stop]).counters = [] := by
  cases counter with
  | text y => rw [counters, if_neg h]
  | _ => rfl

theorem counters_of_ne {t : Tree} (h : ∀ counter op stop, t = .tuple [counter, op, stop] → False) :
    t.counters = [] := by
  unfold counters
  split
  · exact (h _ _ _ rfl).elim
  · rfl

end
end Tree

/-! ## Numbers -/

namespace Value

/-- Is the value a number or a truth value? -/
def isNumber (v : Value) : Bool :=
  v.number?.isSome

variable {l : Lists} {new : Nat} {u v w : Value}

theorem isNumber_of_bind {r : Except Fault Number}
    (h : (do return ofNumber (← r) : Except Fault Value) = .ok w) : w.isNumber = true := by
  cases r with
  | ok n =>
    cases h
    cases n <;> rfl
  | error e => cases h

theorem numeric_isNumber {symbol : String} {operation : Number → Number → Except Fault Number}
    (h : numeric symbol operation u v = .ok w) : w.isNumber = true := by
  unfold numeric at h
  split at h
  · exact isNumber_of_bind h
  · cases h

/-- A sum with a number is a number. -/
theorem add_isNumber (h : u.add l new v = .ok w) (huv : (u.isNumber || v.isNumber) = true) :
    w.isNumber = true := by
  unfold add at h
  split at h
  · cases huv
  · cases huv
  · cases huv
  · split at h
    · cases h
    · split at h
      · exact isNumber_of_bind h
      · cases h

theorem isSequence_of_isNumber (h : u.isNumber = true) : u.isSequence = false := by
  cases u <;> first | rfl | cases h

theorem multiply_isNumber (h : u.multiply l new v = .ok w) (hu : u.isNumber = true)
    (hv : v.isNumber = true) : w.isNumber = true := by
  unfold multiply at h
  simp only [isSequence_of_isNumber hu, isSequence_of_isNumber hv, Bool.false_eq_true,
    if_false] at h
  split at h
  · exact isNumber_of_bind h
  · cases h

theorem remainder_isNumber (h : u.remainder l v = .ok w) (hu : u.isNumber = true) :
    w.isNumber = true := by
  unfold remainder at h
  split at h
  · cases hu
  · exact numeric_isNumber h

end Value

namespace Op

/-- Is the result of the operator a number, given which operands are? -/
def isNumeric : Op → Bool → Bool → Bool
  | .plus, left, right => left || right
  | .times, left, right => left && right
  | .modulo, left, _ => left
  | .and, left, right => left && right
  | .or, left, right => left && right
  | _, _, _ => true

theorem ofTree?_tag (op : Op) : ofTree? (.text op.tag) = some op := by
  cases op <;> decide

theorem isText_tag (op : Op) : (Tree.text op.tag).isText "index" = false := by
  cases op <;> decide

theorem isNumeric_mono (op : Op) {a a' b b' : Bool} (h : op.isNumeric a b = true)
    (ha : a = true → a' = true) (hb : b = true → b' = true) : op.isNumeric a' b' = true := by
  cases op <;> grind [isNumeric]

/-- An operator that is numeric on two operands of these sorts gives a number. -/
theorem onValues_isNumber {l : Lists} {new : Nat} {op : Op} {u v w : Value}
    (h : op.onValues l new u v = .ok w) (huv : op.isNumeric u.isNumber v.isNumber = true) :
    w.isNumber = true := by
  cases op with
  | plus => exact Value.add_isNumber h huv
  | times =>
    rw [isNumeric, Bool.and_eq_true] at huv
    exact Value.multiply_isNumber h huv.1 huv.2
  | modulo => exact Value.remainder_isNumber h huv
  | eq =>
    cases h
    rfl
  | neq =>
    cases h
    rfl
  | and =>
    rw [isNumeric, Bool.and_eq_true] at huv
    cases h
    split
    · exact huv.2
    · exact huv.1
  | or =>
    rw [isNumeric, Bool.and_eq_true] at huv
    cases h
    split
    · exact huv.1
    · exact huv.2
  | lt | gt | lte | gte =>
    obtain ⟨b, -, hb⟩ := ok_of_bind h
    cases hb
    rfl
  | _ => exact Value.numeric_isNumber h

end Op

namespace Phrase

open Name (within every isOneOf)

/-! ## Statements -/

/-- Is the value of the expression a number, if it has one? -/
def Expression.isScalar : Expression → Bool
  | .literal (.int _) => true
  | .literal (.bool _) => true
  | .literal _ => false
  | .binary left (.known op) right => op.isNumeric left.isScalar right.isScalar
  | .binary _ .dot _ => true
  | .index _ _ => false
  | .length _ => true

/-- Is it a name, or a text, that a `for` loop goes through? -/
def Source.isText (source : Source) : Bool :=
  source.tree matches .text _

theorem Source.tree_of_isText (source : Source) (h : source.isText = true) :
    ∃ s, source.tree = .text s := by
  unfold isText at h
  split at h
  · next s hs => exact ⟨s, hs⟩
  · cases h

/-- The statement as which a list of literals is carried out.  It starts with the name of a form,
which in a source text may be one that is not a reserved word. -/
def Literal.statement? : List Literal → Option Statement
  | [.name tag, .name x] =>
    match Form.ofTag? tag with
    | some .reverse => some (.reverse x)
    | _ => none
  | [.name tag, .name x, v] =>
    match Form.ofTag? tag with
    | some .assign => some (.assign x (.literal v))
    | some (.compound op) => some (.compound op x (.literal v))
    | _ => none
  | _ => none

/-- A list of literals that looks like a statement has the parts of that statement. -/
theorem Literal.tree_of_statement? {items : List Literal} {s : Statement}
    (h : Literal.statement? items = some s) : s.tree = .tuple (Literal.trees items) := by
  unfold Literal.statement? at h
  split at h
  · split at h
    · next htag =>
      cases h
      rw [← Form.tag_of_ofTag? htag]
      rfl
    · cases h
  · split at h
    · next htag =>
      cases h
      rw [← Form.tag_of_ofTag? htag]
      rfl
    · next htag =>
      cases h
      rw [← Form.tag_of_ofTag? htag]
      rfl
    · cases h
  · cases h

namespace Statement

/-- The statement as which it is carried out. -/
def plain : Statement → Statement
  | .literals items => (Literal.statement? items).getD (.literals items)
  | s => s

/-- A list of literals and the statement as which it is carried out have the same items. -/
theorem tree_plain (s : Statement) :
    s.plain.tree = s.tree ∨ ∃ xs, s.tree = .list xs ∧ s.plain.tree = .tuple xs := by
  cases s with
  | literals items =>
    cases hs : Literal.statement? items with
    | none =>
      left
      rw [plain, hs]
      rfl
    | some s =>
      right
      refine ⟨Literal.trees items, rfl, ?_⟩
      rw [plain, hs]
      exact Literal.tree_of_statement? hs
  | _ => exact .inl rfl

/-- The name that the statement assigns a value to, if it is an assignment. -/
def assigned? (s : Statement) : Option String :=
  match s.plain with
  | .assign x _ => some x
  | _ => none

/-- The name that the statement binds in any case. -/
def bound? (s : Statement) : Option String :=
  match s.plain with
  | .assign x _ => some x
  | .compound _ x _ => some x
  | _ => none

/-- Is a statement settled that changes a variable?  It reads bound names only, and a counter stays
a number or a thunk. -/
def settledAlone (bound counters : List String) (s : Statement) : Bool :=
  match s.plain with
  | .assign x e => within every bound e.tree.reads && (!counters.contains x || e.isScalar)
  | .compound _ _ e => within every bound e.tree.reads
  | .reverse x => !counters.contains x
  | _ => false

end Statement

mutual

/-- The names that are bound after a statement, if some are bound before and it meets no `break`. -/
def Statement.after (bound : List String) : Statement → List String
  | .branch _ yes elifs no =>
    (Statement.afterAll bound yes).filter fun x =>
      (Statement.afterAll bound no).contains x && Elif.allBind bound x elifs
  | s => s.bound?.toList ++ bound

/-- The names that are bound after statements. -/
def Statement.afterAll (bound : List String) : List Statement → List String
  | [] => bound
  | s :: rest => Statement.afterAll (s.after bound) rest

/-- Is a name bound after each of the blocks? -/
def Elif.allBind (bound : List String) (x : String) : List Elif → Bool
  | [] => true
  | .mk _ body :: rest =>
    (Statement.afterAll bound body).contains x && Elif.allBind bound x rest

end

mutual

/-- Is a statement settled, if some names are bound before it and some are counters of the loops
around it?  Where the checker looks, only those names have to be bound that count. -/
def Statement.settled (counts : Name → Bool) (bound counters : List String) : Statement → Bool
  | .revtrace _ position => within every bound position.tree.reads
  | .branch condition yes elifs no =>
    within counts bound condition.tree.reads && Statement.settledAll counts bound counters yes &&
      Elif.settledAll counts bound counters elifs && Statement.settledAll counts bound counters no
  | .forLoop x source body =>
    within (if source.isText then counts else every) bound source.tree.sourceReads &&
      !counters.contains x && Statement.settledAll counts (x :: bound) counters body
  | .whileLoop condition body =>
    within counts bound condition.tree.reads &&
      Statement.settledAll counts bound (condition.tree.counters ++ counters) body
  | .print first rest => (first :: rest).all fun e => within counts bound e.tree.reads
  | .breakLoop => true
  | s => s.settledAlone bound counters

/-- Are statements settled? -/
def Statement.settledAll (counts : Name → Bool) (bound counters : List String) :
    List Statement → Bool
  | [] => true
  | s :: rest =>
    s.settled counts bound counters && Statement.settledAll counts (s.after bound) counters rest

/-- Are the conditions and blocks settled? -/
def Elif.settledAll (counts : Name → Bool) (bound counters : List String) : List Elif → Bool
  | [] => true
  | .mk condition body :: rest =>
    within counts bound condition.tree.reads && Statement.settledAll counts bound counters body &&
      Elif.settledAll counts bound counters rest

end

mutual

/-- The names that are assigned a value in a statement. -/
def Statement.assigns : Statement → List String
  | .branch _ yes elifs no =>
    Statement.assignsAll yes ++ Elif.assignsAll elifs ++ Statement.assignsAll no
  | .forLoop _ _ body => Statement.assignsAll body
  | .whileLoop _ body => Statement.assignsAll body
  | s => s.assigned?.toList

/-- The names that are assigned a value in statements. -/
def Statement.assignsAll : List Statement → List String
  | [] => []
  | s :: rest => s.assigns ++ Statement.assignsAll rest

/-- The names that are assigned a value after further conditions. -/
def Elif.assignsAll : List Elif → List String
  | [] => []
  | .mk _ body :: rest => Statement.assignsAll body ++ Elif.assignsAll rest

end

/-- The names that are assigned a value in blocks of a program. -/
def Statement.assignedInBlocks (program : List Statement) : List String :=
  program.flatMap fun s => if s.assigned?.isSome then [] else s.assigns

/-! ## What statements bind -/

/-- A statement that only changes a variable has no blocks. -/
theorem Statement.after_of_alone {s : Statement} {bound counters : List String}
    (h : s.settledAlone bound counters = true) : s.after bound = s.bound?.toList ++ bound := by
  cases s with
  | branch => cases h
  | _ => rfl

section

variable {s : Statement} {x : String} (h : s.assigned? = some x)
include h

/-- An assignment has no blocks. -/
theorem Statement.settled_of_assigned (counts : Name → Bool) (bound counters : List String) :
    s.settled counts bound counters = s.settledAlone bound counters := by
  cases s with
  | assign y e => rfl
  | literals items => rfl
  | _ => cases h

theorem Statement.after_of_assigned (bound : List String) : s.after bound = x :: bound := by
  cases s with
  | assign y e =>
    cases h
    rfl
  | literals items =>
    have hbound : (Statement.literals items).bound? = some x := by
      rw [assigned?] at h
      rw [bound?]
      split at h
      · next hplain =>
        rw [hplain]
        exact h
      · cases h
    change (Statement.literals items).bound?.toList ++ bound = x :: bound
    rw [hbound]
    rfl
  | _ => cases h

end

mutual

/-- What is bound before a statement is bound after it. -/
theorem Statement.mem_after {x : String} : ∀ (s : Statement) {bound : List String}, x ∈ bound →
    x ∈ s.after bound
  | .branch _ yes elifs no, bound, hx => by
    rw [Statement.after, List.mem_filter, Bool.and_eq_true, List.contains_iff_mem]
    exact ⟨Statement.mem_afterAll yes hx, Statement.mem_afterAll no hx,
      Elif.allBind_of_mem elifs hx⟩
  | .assign .., _, hx => List.mem_append_right _ hx
  | .compound .., _, hx => List.mem_append_right _ hx
  | .reverse .., _, hx => List.mem_append_right _ hx
  | .revtrace .., _, hx => List.mem_append_right _ hx
  | .forLoop .., _, hx => List.mem_append_right _ hx
  | .whileLoop .., _, hx => List.mem_append_right _ hx
  | .print .., _, hx => List.mem_append_right _ hx
  | .breakLoop, _, hx => List.mem_append_right _ hx
  | .literals .., _, hx => List.mem_append_right _ hx

/-- What is bound before some statements is bound after them. -/
theorem Statement.mem_afterAll {x : String} : ∀ (ss : List Statement) {bound : List String},
    x ∈ bound → x ∈ Statement.afterAll bound ss
  | [], _, hx => hx
  | s :: rest, _, hx => Statement.mem_afterAll rest (Statement.mem_after s hx)

theorem Elif.allBind_of_mem {x : String} : ∀ (xs : List Elif) {bound : List String}, x ∈ bound →
    Elif.allBind bound x xs = true
  | [], _, _ => rfl
  | .mk _ body :: rest, bound, hx => by
    rw [Elif.allBind, Bool.and_eq_true, List.contains_iff_mem]
    exact ⟨Statement.mem_afterAll body hx, Elif.allBind_of_mem rest hx⟩

end

end Phrase

end Retrace
