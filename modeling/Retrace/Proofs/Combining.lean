import Retrace.Proofs.Registering
import Retrace.Proofs.Showing
import Retrace.Proofs.Words

/-!
# Compound assignments and assignments of an operation

`x += e` does what `x = x + e` does, but in its own way: it looks the variable up, works the operand
out and combines the two words itself, where the assignment has the whole of `x + e` evaluated.  On
whole numbers, both ways end in a word for the value of the variable, and it is the same word in all
cases but one.  A quotient by zero is zero, whereas a compound division by zero leaves the dividend
as it is.

The two statements look at the variable and at the operand in ways of their own, and looking at one
may work out thunks that the other one reads.  So it has to be known that an evaluation makes no
difference for a later one.  This is said with `Machine.ReadsWhole`, which is about what an
expression reads as on the machine as it is, before anything is worked out.  It neither depends on
an order nor is it changed by looking at values (`Visited.evaluate_whole`), and each of the two
statements is reduced to it on its own.

Where the variable is not eager, an assignment binds it to a thunk of `x + e`, which reads `x`
itself and so can never be worked out.  The comparison is therefore with an assignment to an eager
variable (`makeEager`).  The compound assignment needs nothing of the kind, since it binds a word or
a thunk of a word.

What is compared is what is read from the variable after each of the two statements (`readAfter`).
The machines themselves differ, by the thunks that were made and by what was counted.  The result
has no condition on where the machine comes from but that its lists have their numbers, and so holds
on every machine of a run.

* `Machine.ReadsWhole`: the expression reads as a whole number.
* `Exec.readAfter_compound`, `Exec.readAfter_assign`: the value of the variable after each of the
  two statements.  The first of them is never stopped; the second one is if the memory is exceeded.
* `Compound.onWords_eq_iff`: where the two words are the same.
* `compound_matches_assignment`: all of it, on every machine of a run.
-/

set_option autoImplicit false

namespace Retrace

open Exec (evaluate isLiteral)

/-! ## Whole numbers that are read -/

namespace Machine

variable {m a b : Machine} {reg : Nat → List Value} {e : Tree} {k : Int}

/-- The expression reads as a whole number, or as a truth value that counts for it. -/
def ReadsWhole (m : Machine) (e : Tree) (k : Int) : Prop :=
  ∃ w, m.reading m.heap.size e = .ok w ∧ w.whole? = some k

theorem Visited.readsWhole (ha : m.Visited reg a) {v : Value} (h : evaluate e a = .ok v b)
    (hk : v.whole? = some k) : m.ReadsWhole e k := by
  have hread := ha.outcomeSince e
  rw [h] at hread
  exact ⟨v.blur m.lists.next, hread.symm, by rw [Value.whole?_blur, hk]⟩

/-- Whatever was evaluated before, an expression comes to the value that it reads as. -/
theorem Visited.evaluate_of_reading (ha : m.Visited reg a) {w : Value}
    (h : m.reading m.heap.size e = .ok w) :
    ∃ v b reg', evaluate e a = .ok v b ∧ v.blur m.lists.next = w ∧ m.Visited reg' b := by
  have hread := ha.outcomeSince e
  obtain ⟨reg', hb⟩ := ha.machineAfter e
  rw [h] at hread
  cases hr : evaluate e a with
  | error f b =>
    rw [hr] at hread
    cases hread
  | ok v b =>
    rw [hr] at hread hb
    exact ⟨v, b, reg', rfl, Except.ok.inj hread, hb⟩

/-- An expression comes to its whole number, whatever was evaluated before. -/
theorem Visited.evaluate_whole (ha : m.Visited reg a) (h : m.ReadsWhole e k) :
    ∃ v b reg', evaluate e a = .ok v b ∧ v.whole? = some k ∧ m.Visited reg' b := by
  obtain ⟨w, hw, hk⟩ := h
  obtain ⟨v, b, reg', hv, rfl, hb⟩ := ha.evaluate_of_reading hw
  exact ⟨v, b, reg', hv, by rwa [Value.whole?_blur] at hk, hb⟩

/-- The value of a variable is the number that its name reads as. -/
theorem Numbered.valueOfName_whole (hm : m.Numbered reg) {x : String} (hx : isLiteral x = false)
    (h : m.ReadsWhole (.text x) k) :
    ∃ v b reg', Exec.valueOfName (.ofText x) m = .ok v b ∧ v.whole? = some k ∧
      m.Visited reg' b := by
  obtain ⟨w, hw, hk⟩ := h
  have hname : m.readName (m.readThunk m.heap.size) (.ofText x) = .ok w := by
    rw [reading, Tree.outcome, hx] at hw
    exact hw
  have hsees := Exec.lookup_sees (Exec.forceWithin_sees m.heap.size) hm.visited (.ofText x)
  have hvalue : Exec.valueOfName (.ofText x) m =
      (do Exec.resolve? (Exec.forceWithin m.heap.size) ((← get).lookup (.ofText x)) :
        Exec Value) m := by
    rw [Exec.valueOfName, Exec.bind_of_ok (Exec.get_apply m), Exec.bind_of_ok (Exec.get_apply m)]
    cases m.lookup (.ofText x) with
    | none => rfl
    | some v => cases v <;> rfl
  rw [← hvalue, hname] at hsees
  cases hr : Exec.valueOfName (.ofText x) m with
  | error f b =>
    obtain ⟨_, _, _, hlow, -⟩ := hsees.error hr
    cases hlow.eq_of_ok
  | ok v b =>
    obtain ⟨reg', hb, _, _, hlow, -⟩ := hsees.ok hr
    cases hlow.eq_of_ok
    exact ⟨v, b, reg', rfl, by rwa [Value.whole?_blur] at hk, hb⟩

/-- An operation on two whole numbers reads as what it is on words. -/
theorem ReadsWhole.binary {left right : Tree} {i j : Int} (hi : m.ReadsWhole left i)
    (hj : m.ReadsWhole right j) (op : Op) :
    m.reading m.heap.size (.binary left op.tag right) = .ok (.int (op.onWords i j)) := by
  obtain ⟨u, hu, hui⟩ := hi
  obtain ⟨v, hv, hvj⟩ := hj
  have hindex : (Tree.text op.tag).isText "index" = false := by cases op <;> rfl
  rw [reading] at hu hv
  rw [reading, Tree.binary, Tree.outcome, hu, hv, hindex, op.ofTree?_tag]
  show Op.outcome _ _ op u v = _
  rw [Op.outcome, hui, hvj]

/-! ## Machines with the same variables -/

section

variable {m m' : Machine}

/-- What is read depends on nothing but the variables, the heap and the lists. -/
theorem readThunk_of_same (hb : m'.bindings = m.bindings) (hh : m'.heap = m.heap)
    (hl : m'.lists = m.lists) (depth id : Nat) :
    m'.readThunk depth id = m.readThunk depth id := by
  induction depth generalizing id with
  | zero => rfl
  | succ depth ih =>
    have hnames : m'.readName (m'.readThunk depth) = m.readName (m.readThunk depth) := by
      funext name
      simp only [readName, Machine.lookup, hb, ih]
    rw [readThunk, readThunk, hnames, hh, hl]

theorem reading_of_same (hb : m'.bindings = m.bindings) (hh : m'.heap = m.heap)
    (hl : m'.lists = m.lists) (depth : Nat) (e : Tree) :
    m'.reading depth e = m.reading depth e := by
  have hnames : m'.readName (m'.readThunk depth) = m.readName (m.readThunk depth) := by
    funext name
    simp only [readName, Machine.lookup, hb, readThunk_of_same hb hh hl]
  rw [reading, reading, hnames, hl]

theorem Numbered.of_same {reg : Nat → List Value} (hm : m.Numbered reg)
    (hb : m'.bindings = m.bindings) (hh : m'.heap = m.heap) (hl : m'.lists = m.lists) :
    m'.Numbered reg where
  known := hl ▸ hm.known
  bound {name v} hv := by
    rw [Machine.lookup, hb] at hv
    rw [Holds, hl, hh]
    exact hm.bound hv
  worked ht := by
    rw [hh] at ht
    rw [hl]
    exact hm.worked ht

end

/-- The machine with one more eager name. -/
def makeEager (m : Machine) (x : String) : Machine :=
  { m with profile := m.profile.addEager x }

theorem isEager_makeEager (m : Machine) (x : String) :
    (m.makeEager x).isEager (.ofText x) = true := by
  show (m.profile.addEager x).eager.contains x = true
  rw [Profile.addEager]
  split
  · next h => exact h
  · simp

end Machine

/-! ## Assignments of words -/

namespace Exec

/-- Carries out a statement and reads a variable. -/
def readAfter (n : Nat) (t : Tree) (x : String) : Exec Value := do
  carryOut n t
  evaluate (.text x)

/-- The value is a word, or a thunk that has nothing to do but to give it. -/
def GivesWord (m : Machine) (k : Int) (v : Value) : Prop :=
  v = .int k ∨ ∃ id, v = .thunk id ∧ m.heap[id]? = some ⟨.int k, none⟩

/-- A word is always found a value for: the word, or a thunk of it. -/
theorem wordFor_ok (name : Name) (k : Int) (m : Machine) :
    ∃ new m', wordFor name k m = .ok new m' ∧ m'.bindings = m.bindings ∧ GivesWord m' k new := by
  cases hm : m.isEager name with
  | true =>
    refine ⟨.int k, m, ?_, rfl, .inl rfl⟩
    rw [wordFor_eq_ok, if_pos hm]
    exact ⟨rfl, rfl⟩
  | false =>
    refine ⟨.thunk m.heap.size, { m with heap := m.heap.push { expression := .int k } }, ?_, rfl,
      .inr ⟨_, rfl, Array.getElem?_push_size⟩⟩
    rw [wordFor_eq_ok, hm]
    exact ⟨rfl, rfl⟩

/-- A variable that is bound to a word, or to a thunk that gives it, has the word for its value. -/
theorem evaluate_of_givesWord {m : Machine} {x : String} {k : Int} {v : Value}
    (hx : isLiteral x = false) (hv : m.lookup (.ofText x) = some v) (h : GivesWord m k v) :
    ∃ m', evaluate (.text x) m = .ok (.int k) m' := by
  rcases h with rfl | ⟨id, rfl, hthunk⟩
  · exact ⟨_, evaluate_of_isData hx hv rfl⟩
  · obtain ⟨depth, hdepth⟩ : ∃ depth, m.heap.size = depth + 1 :=
      ⟨m.heap.size - 1, by have := (Array.getElem?_eq_some_iff.1 hthunk).1; omega⟩
    have hcounted : Machine.lookup { m with evaluations := m.evaluations + 1 } (.ofText x) =
        some (.thunk id) := hv
    have hwaiting : ({ m with evaluations := m.evaluations + 1 } : Machine).heap[id]? =
        some ⟨.int k, none⟩ := hthunk
    obtain ⟨m', hforced⟩ : ∃ m', forceWithin (depth + 1) id { m with
        evaluations := m.evaluations + 1 } = .ok (.int k) m' :=
      ⟨_, (forceWithin_succ hwaiting).trans rfl⟩
    refine ⟨m', ?_⟩
    rw [evaluate, bind_of_ok (get_apply m), evaluateWith, bind_of_ok (countEvaluation_apply m), hx]
    refine (bind_of_ok (get_apply _)).trans ?_
    rw [hcounted, hdepth]
    exact hforced

theorem valueFor_of_isEager {m : Machine} {name : Name} {e : Tree} (h : m.isEager name = true) :
    valueFor unwatched name e m = evaluate e m := by
  rw [valueFor_apply, if_pos h]
  rfl

/-- A name that has a place is bound anew, unless the memory is exceeded. -/
theorem replace_of_place {m : Machine} {name : Name}
    (hplace : Name.findPlace m.bindings name = .ok ()) (new : Value) :
    replace unwatched name new m = .error .memoryExceeded m ∨
      ∃ m', replace unwatched name new m = .ok () m' ∧ m'.lookup name = some new := by
  cases hcharge : m.memory.charge (m.size m.lists new) with
  | error fault =>
    have hfault : fault = .memoryExceeded := by
      rw [Account.charge] at hcharge
      split at hcharge <;> cases hcharge
      rfl
    refine .inl ?_
    rw [replace, bind_of_ok (get_apply m), bind_apply, charge_apply, hcharge, hfault]
  | ok memory =>
    refine .inr ⟨_, replace_eq_ok.2 ⟨memory, hcharge, bindName_eq_ok.2 ⟨hplace, rfl⟩⟩, ?_⟩
    rw [Machine.lookup, Table.get?_insert, if_pos BEq.rfl]

section

variable {m : Machine} {reg : Nat → List Value} (hm : m.Numbered reg) {x : String}
variable (hx : isLiteral x = false) {e : Tree} {a b : Int} (ha : m.ReadsWhole (.text x) a)
variable (hb : m.ReadsWhole e b)
include hm hx ha

/-- A name that reads as a whole number is bound, so it can be bound anew. -/
theorem findPlace_of_readsWhole : Name.findPlace m.bindings (.ofText x) = .ok () := by
  obtain ⟨current, _, _, hcurrent, hca, -⟩ := hm.valueOfName_whole hx ha
  obtain ⟨bound, hbound, -⟩ := valueOfName_resolves hcurrent (ne_none_of_whole? hca)
  refine findPlace_of_contains ?_
  show (m.lookup (.ofText x)).isSome = true
  rw [hbound]
  rfl

include hb

/-- After a compound assignment the variable has the result for its value. -/
theorem readAfter_compound (op : Compound) (n : Nat) :
    ∃ m', readAfter (n + 1) (.compound op (.text x) e) x m = .ok (.int (op.onWords a b)) m' := by
  obtain ⟨current, m₁, _, hcurrent, hca, hm₁⟩ := hm.valueOfName_whole hx ha
  -- the operand is worked out after the variable, whose thunk may have got its value by then
  obtain ⟨operand, m₂, _, hoperand, hob, hm₂⟩ := hm₁.evaluate_whole hb
  have hresolved : (evaluate e >>= resolve force) m₁ = .ok operand m₂ := by
    rw [bind_of_ok hoperand]
    cases operand with
    | thunk id => cases hob
    | _ => rfl
  obtain ⟨new, m₃, hword, hsame, hgives⟩ := wordFor_ok (.ofText x) (op.onWords a b) { m₂ with
    clock := m₂.clock.read.2
    history := m₂.history.push (.ofText x) current m₂.clock.read.1 }
  have hplace : Name.findPlace m₃.bindings (.ofText x) = .ok () := by
    rw [hsame, hm₂.looks.bindings]
    exact findPlace_of_readsWhole hm hx ha
  have hform : perform unwatched (n + 1) (.compound op (.text x) e) =
      simply (compound unwatched op (.compound op (.text x) e)) := by cases op <;> rfl
  have hrun : carryOut (n + 1) (.compound op (.text x) e) m =
      .ok () { m₃ with bindings := m₃.bindings.insert (.ofText x) new } := by
    rw [carryOut_of_simply hform]
    exact compound_eq_ok.2 ⟨_, _, _, _, current, m₁, operand, m₂, a, b, new, m₃, rfl, rfl,
      hcurrent, hresolved, hca, hob, hword, bindName_eq_ok.2 ⟨hplace, rfl⟩⟩
  rw [readAfter, bind_of_ok hrun]
  refine evaluate_of_givesWord hx ?_ hgives
  rw [Machine.lookup, Table.get?_insert, if_pos BEq.rfl]

omit hx in
/-- The operation comes to its result on all machines that have these variables. -/
theorem evaluate_binary (op : Op) (start : Machine) (hbindings : start.bindings = m.bindings)
    (hheap : start.heap = m.heap) (hlists : start.lists = m.lists) :
    ∃ m', evaluate (.binary (.text x) op.tag e) start = .ok (.int (op.onWords a b)) m' := by
  have hread : start.reading start.heap.size (.binary (.text x) op.tag e) =
      .ok (.int (op.onWords a b)) := by
    rw [Machine.reading_of_same hbindings hheap hlists, hheap]
    exact ha.binary hb op
  have hstart : start.Numbered reg := hm.of_same hbindings hheap hlists
  obtain ⟨v, m', _, hevaluated, hv, -⟩ := hstart.visited.evaluate_of_reading hread
  cases v with
  | int k =>
    cases hv
    exact ⟨m', hevaluated⟩
  | _ => cases hv

/-- After the operation was assigned to the variable, which is eager, it has the result for its
value, unless the memory was exceeded. -/
theorem readAfter_assign (op : Op) (n : Nat) :
    (∃ m', readAfter (n + 1) (.assign (.text x) (.binary (.text x) op.tag e)) x (m.makeEager x) =
      .error .memoryExceeded m') ∨
    ∃ m', readAfter (n + 1) (.assign (.text x) (.binary (.text x) op.tag e)) x (m.makeEager x) =
      .ok (.int (op.onWords a b)) m' := by
  have hform : perform unwatched (n + 1) (.assign (.text x) (.binary (.text x) op.tag e)) =
      simply (assign unwatched (.assign (.text x) (.binary (.text x) op.tag e))) := rfl
  obtain ⟨m₁, hevaluated⟩ := evaluate_binary hm ha hb op
    { m.makeEager x with assignments := m.assignments + 1 } rfl rfl rfl
  -- the evaluation binds nothing, so the name has the place that it had before
  have hplace : Name.findPlace m₁.bindings (.ofText x) = .ok () := by
    rw [((evaluate_looks _).ok hevaluated).bindings]
    exact findPlace_of_readsWhole hm hx ha
  have hassign : assign unwatched (.assign (.text x) (.binary (.text x) op.tag e))
      (m.makeEager x) = replace unwatched (.ofText x) (.int (op.onWords a b)) m₁ := by
    rw [assign, bind_of_ok (countAssignment_apply _)]
    show (valueFor unwatched (.ofText x) _ >>= replace unwatched (.ofText x)) _ = _
    refine bind_of_ok ?_
    have heager : Machine.isEager { m.makeEager x with assignments := m.assignments + 1 }
        (.ofText x) = true := m.isEager_makeEager x
    exact (valueFor_of_isEager heager).trans hevaluated
  rw [readAfter, carryOut_of_simply hform]
  rcases replace_of_place hplace (.int (op.onWords a b)) with hlimit | ⟨m₂, hreplaced, hlookup⟩
  · exact .inl ⟨m₁, bind_of_error (hassign.trans hlimit)⟩
  · refine .inr ?_
    rw [bind_of_ok (hassign.trans hreplaced)]
    exact evaluate_of_givesWord hx hlookup (.inl rfl)

end

end Exec

/-! ## The two words -/

namespace Compound

/-- The operator that a compound assignment goes by. -/
def operator : Compound → Op
  | .plus => .plus
  | .minus => .minus
  | .times => .times
  | .over => .over

/-- Division by zero: the dividend in one case, zero in the other. -/
theorem over_onWords_of_zero {a b : Int} (h : Word.wrap b = 0) :
    Compound.over.onWords a b = Word.wrap a ∧ Op.over.onWords a b = 0 := by
  refine ⟨if_pos h, ?_⟩
  show Word.wrap ((Word.wrap a).tdiv (Word.wrap b)) = 0
  rw [h, Int.tdiv_zero]
  rfl

/-- Only in a division by zero the two words are different. -/
theorem onWords_eq_iff (op : Compound) (a b : Int) :
    op.onWords a b = op.operator.onWords a b ↔
      ¬(op = .over ∧ Word.wrap b = 0 ∧ Word.wrap a ≠ 0) := by
  by_cases h : op = .over ∧ Word.wrap b = 0
  · obtain ⟨rfl, hb⟩ := h
    obtain ⟨hcompound, hquotient⟩ := over_onWords_of_zero (a := a) hb
    rw [hcompound, operator, hquotient]
    simp [hb]
  · refine iff_of_true ?_ fun hzero => h ⟨hzero.1, hzero.2.1⟩
    match op, h with
    | .plus, _ | .minus, _ | .times, _ => rfl
    | .over, h => exact if_neg fun hb => h ⟨rfl, hb⟩

end Compound

/-- The expression comes to a whole number, or to a truth value that counts for it. -/
def Machine.ComesTo (m : Machine) (e : Tree) (k : Int) : Prop :=
  ∃ v m', evaluate e m = .ok v m' ∧ v.whole? = some k

/-- From here on, if a variable and an expression come to whole numbers, the variable has one word
for its value after a compound assignment, and one after an assignment of the operation to it as an
eager variable, unless that one is stopped for want of memory.  The words are the same if it is not
a division by zero, or if it is one of zero. -/
def Machine.CombinesAlike (m : Machine) : Prop :=
  ∀ (op : Compound) (x : String) (e : Tree) (a b : Int) (n : Nat), isLiteral x = false →
    m.ComesTo (.text x) a → m.ComesTo e b →
      (∃ m₁, Exec.readAfter (n + 1) (.compound op (.text x) e) x m =
        .ok (.int (op.onWords a b)) m₁) ∧
      ((∃ m₂, Exec.readAfter (n + 1) (.assign (.text x) (.binary (.text x) op.operator.tag e)) x
          (m.makeEager x) = .error .memoryExceeded m₂) ∨
        ∃ m₂, Exec.readAfter (n + 1) (.assign (.text x) (.binary (.text x) op.operator.tag e)) x
          (m.makeEager x) = .ok (.int (op.operator.onWords a b)) m₂) ∧
      (op.onWords a b = op.operator.onWords a b ↔
        ¬(op = .over ∧ Word.wrap b = 0 ∧ Word.wrap a ≠ 0))

theorem Machine.Numbered.combinesAlike {m : Machine} {reg : Nat → List Value}
    (hm : m.Numbered reg) : m.CombinesAlike := by
  rintro op x e a b n hx ⟨u, _, hu, hua⟩ ⟨v, _, hv, hvb⟩
  have ha := hm.visited.readsWhole hu hua
  have hb := hm.visited.readsWhole hv hvb
  exact ⟨Exec.readAfter_compound hm hx ha hb op n, Exec.readAfter_assign hm hx ha hb op.operator n,
    op.onWords_eq_iff a b⟩

/-- **A compound assignment is the assignment of its operation, but for divisions by zero.**  This
holds on every machine whose values conform to a registry, so whenever something happens in a run
and after each of its statements, whatever names are eager.  A compound division by zero leaves the
low bits of its dividend, where the quotient is zero. -/
theorem compound_matches_assignment (m : Machine) (reg : Nat → List Value) (hm : m.Numbered reg) :
    m.CombinesAlike ∧
    (∀ clock eager n program,
      Run.Everywhere Machine.CombinesAlike n program (.withEager clock eager) ∧
      ∀ m' ∈ (Run.statements n program (.withEager clock eager)).1, m'.CombinesAlike) ∧
    ∀ a b, Word.wrap b = 0 →
      Compound.over.onWords a b = Word.wrap a ∧ Op.over.onWords a b = 0 := by
  classical
  refine ⟨hm.combinesAlike, fun clock eager n program => ?_,
    fun a b => Compound.over_onWords_of_zero⟩
  have hguard : Exec.Trusts (Exec.guarded fun _ m => decide m.CombinesAlike) := fun _ _ hm => by
    obtain ⟨reg, hreg⟩ := hm.numbered
    exact Exec.guarded_eq_ok.2 ⟨decide_eq_true hreg.combinesAlike, rfl⟩
  obtain ⟨hsame, hsound⟩ := Run.statements_sound hguard n program
    (Machine.sound_withEager clock eager)
  refine ⟨hsame, fun m' hm' => ?_⟩
  obtain ⟨reg, hreg⟩ := (hsound m' hm').numbered
  exact hreg.combinesAlike

/-- A machine with a thunk that is to give the largest word, and with a small number. -/
def brimful : Machine where
  bindings := ⟨[(.ofText "x", .thunk 0), (.ofText "y", .int 2)]⟩
  heap := #[{ expression := .int 2147483647 }]

theorem brimful_numbered : brimful.Numbered fun _ => [] where
  known := {
    made := fun _ _ => trivial
    added := fun _ => trivial
    new := fun _ _ => rfl }
  bound {name v} h := by
    simp only [Machine.lookup, brimful, Table.get?, Table.find] at h
    split_ifs at h <;> cases h
    · exact .inr ⟨0, by decide, rfl⟩
    · exact .inl trivial
  worked {id e v} h := by
    have hwaiting : ∀ t ∈ brimful.heap, t.value? = none := by simp [brimful]
    cases hwaiting _ (Array.mem_of_getElem? h)

/-- A product that does not fit in a word: both ways wrap it to `-2`. -/
theorem compound_matches_assignment_brimful :
    brimful.Numbered (fun _ => []) ∧
    (∃ m, Exec.readAfter 1 (.compound .times (.text "x") (.text "y")) "x" brimful =
      .ok (.int (-2)) m) ∧
    ∃ m, Exec.readAfter 1 (.assign (.text "x") (.binary (.text "x") "times" (.text "y"))) "x"
      (brimful.makeEager "x") = .ok (.int (-2)) m := by
  have halike := (compound_matches_assignment brimful _ brimful_numbered).1 .times "x" (.text "y")
    2147483647 2 0 (by cbv) ⟨.int 2147483647, _, by cbv, rfl⟩ ⟨.int 2, _, by cbv, rfl⟩
  refine ⟨brimful_numbered, halike.1, halike.2.1.resolve_left ?_⟩
  rintro ⟨m, hlimit⟩
  obtain ⟨m', hgoes⟩ : ∃ m', Exec.readAfter 1 (.assign (.text "x")
      (.binary (.text "x") "times" (.text "y"))) "x" (brimful.makeEager "x") =
        .ok (.int (-2)) m' := ⟨_, by cbv⟩
  cases hlimit.symm.trans hgoes

/-- Two by zero: the compound assignment leaves two, the assignment of the quotient zero. -/
theorem over_zero_differs :
    (∃ m, Exec.readAfter 1 (.compound .over (.text "y") (.int 0)) "y" brimful = .ok (.int 2) m) ∧
    ∃ m, Exec.readAfter 1 (.assign (.text "y") (.binary (.text "y") "over" (.int 0))) "y"
      (brimful.makeEager "y") = .ok (.int 0) m :=
  ⟨⟨_, by cbv⟩, ⟨_, by cbv⟩⟩

end Retrace
