import Mathlib.Order.Nat
import Retrace.Proofs.Reading

/-!
# Choices with further conditions

A choice may be written with further conditions, each in a line that starts with `elif`.  The
grammar reads such a choice from tokens in which that word is reserved, but in the tokens of its
text the word is a name: the scanner knows no such word.  So what the grammar allows is never met in
a text, and this module says what is met instead.

A name starts a statement only if an assignment follows it, and a condition never starts with one.
So the choice is read as if it ended before the first further condition, and that name is what the
next statement would have to start with.  A program is refused there, and a block is never read up
to its end.

Both are said of tokens that are only known to spell the statement, and not of those of one text,
since a statement may stand inside of others.  They are two properties.  A choice is read, although
not all of it, and what comes next is blocked (`Balks`); a block goes on until it comes to its end,
so it is not read at all (`BlockBalks`).  The induction is on statements, and goes through both at
once: a statement balks because of its own further conditions, or because a block of it does.

A further condition may stand deep inside of a program, and what comes before it is read as written.
That is why reading without further conditions is needed here too (`statement_reads_plain`), of
tokens in which the word is a name.

* `Blocked`: the tokens start with a name that no assignment follows.
* `Balks`, `BlockBalks`: statements and blocks that are never read up to their end.
* `balks`, `blockBalks`: any statement or block with a further condition in it.
* `elif_never_read`: choices with further conditions.
-/

set_option autoImplicit false

namespace Retrace
namespace Grammar

open Phrase

variable {fuel : Nat} {t : Token} {ts rest : List Token}

/-! ## Names that block -/

/-- The tokens start with a name that no assignment follows. -/
def Blocked : List Token → Prop
  | t :: u :: _ => t.kind = .name ∧ u.kind.isAssignment = false
  | _ => False

/-- No block goes on after such a name.  Before a parenthesis it is read as an expression, but then
the parenthesis starts no statement. -/
theorem Blocked.stuck (h : Blocked ts) : Stuck ts := by
  match ts, h with
  | t :: u :: ts, ⟨ht, hu⟩ =>
    by_cases hlparen : u.kind = .lparen
    · refine ⟨by rw [sees_cons, ht]; rfl, fun {stops} hstops fuel a rest h => ?_⟩
      match fuel with
      | 0 => cases h
      | 1 =>
        rw [statements, bind_of_ok (current?_apply _)] at h
        simp only [List.head?_cons, ht, hstops.1, Bool.false_eq_true, if_false] at h
        cases h
      | fuel + 2 =>
        rw [statements, bind_of_ok (current?_apply _)] at h
        simp only [List.head?_cons, ht, hstops.1, Bool.false_eq_true, if_false] at h
        obtain ⟨first, mid, h₁, h₂⟩ := bind_eq_ok.1 h
        rw [statement, bind_of_ok (kind_cons ..), ht] at h₁
        change (nextKind >>= _) (t :: u :: ts) = _ at h₁
        rw [bind_of_ok (nextKind_cons ..), hu, hlparen] at h₁
        -- the name is an expression by itself, and the parenthesis is left
        obtain rfl := expression_name ht hlparen h₁
        have hstuck : Stuck (u :: ts) := stuck_of_lparen hlparen
        rw [bind_of_ok hstuck.sees] at h₂
        obtain ⟨more, _, h₃, -⟩ := bind_eq_ok.1 h₂
        exact hstuck.never hstops h₃
    · exact stuck_of_name ht hu (beq_false_of_ne hlparen)

/-- A program is refused at such a name. -/
theorem program_of_blocked (h : Blocked (t :: ts)) :
    program (fuel + 1) (t :: ts) = .error (.unexpected (some t)) (t :: ts) := by
  match ts, h with
  | u :: ts, ⟨ht, hu⟩ =>
    rw [program, bind_of_ok (current?_apply _), List.head?_cons]
    simp only [ht]
    rw [bind_of_ok (nextKind_cons t u ts), if_neg (by rw [hu]; decide)]
    rfl

theorem program_ne_ok_of_blocked (h : Blocked ts) (trees : List Tree) :
    program fuel ts ≠ .ok trees rest := by
  intro hok
  match fuel, ts, h with
  | 0, _, _ => cases hok
  | fuel + 1, t :: ts, h =>
    rw [program_of_blocked h] at hok
    cases hok

/-- The kinds of tokens that an expression can start with. -/
def expressionKinds : List Kind :=
  .lparen :: .lenWord :: literalKinds

/-- An expression starts with a literal, a bracket or the word for a length. -/
theorem expression_marks_eq_cons (e : Expression) (place : Place) :
    ∃ m ms, e.marks place = m :: ms ∧ m.kind ∈ expressionKinds := by
  induction e generalizing place with
  | literal v =>
    obtain ⟨m, ms, hm, hkind⟩ := literal_marks_eq_cons v
    exact ⟨m, ms, hm, List.mem_cons_of_mem _ (List.mem_cons_of_mem _ hkind)⟩
  | binary l op r ihl _ =>
    obtain ⟨m, ms, hm, hkind⟩ := ihl .left
    rw [Expression.marks, hm]
    cases place with
    | right => exact ⟨_, _, rfl, by decide⟩
    | whole => exact ⟨_, _, rfl, hkind⟩
    | left => exact ⟨_, _, rfl, hkind⟩
  | index name position _ => exact ⟨_, _, rfl, by simp [Mark.kind, expressionKinds, literalKinds]⟩
  | length e _ => cases place <;> exact ⟨_, _, rfl, by decide⟩

/-- The name in front of a condition blocks. -/
theorem blocked_of_condition {name : String} {e : Expression} {ms : List Mark}
    (hs : Spells (.name name :: (e.marks .whole ++ ms)) ts rest) : Blocked ts := by
  obtain ⟨m, ms', hm, hkind⟩ := expression_marks_eq_cons e .whole
  rw [hm] at hs
  obtain ⟨t, _, rfl, ht, u, us, rfl, hu, -⟩ := hs
  refine ⟨ht.1, ?_⟩
  rw [hu.kind_eq]
  generalize m.kind = k at hkind
  revert k
  decide

/-! ## Blocks that never end -/

/-- If the statement is read from the tokens of its text at all, a name blocks what follows. -/
structure Balks (s : Statement) : Prop where
  blocked {fuel : Nat} {ts rest rest' : List Token} {tree : Tree}
    (hfuel : (s.marksWith (.name "elif")).length ≤ fuel)
    (hs : Spells (s.marksWith (.name "elif")) ts rest)
    (h : statement (fuel + 1) ts = .ok tree rest') : Blocked rest'

/-- A block of the statements is never read to its end. -/
structure BlockBalks (ss : List Statement) : Prop where
  never {fuel : Nat} {t : Token} {ts rest rest' : List Token} {trees : List Tree}
    (hfuel : (Statement.marksAllWith (.name "elif") ss).length + 1 < fuel)
    (hs : Spells (Statement.marksAllWith (.name "elif") ss) ts (t :: rest))
    (ht : t.kind = .dedent) :
    statements [.dedent] fuel ts ≠ .ok trees rest'

/-- Without further conditions the tokens are those that the grammar expects. -/
theorem statement_reads_plain {s : Statement} (h : s.isSpellable) (hplain : s.hasElif = false)
    (hfuel : (s.marksWith (.name "elif")).length ≤ fuel)
    (hs : Spells (s.marksWith (.name "elif")) ts rest) (hrest : Fresh rest) :
    statement (fuel + 1) ts = .ok s.tree rest := by
  have hmarks : s.marksWith (.name "elif") = s.marksWith (.sign .elifWord) := by
    rw [Statement.marksWith_eq _ s hplain, Statement.marksWith_eq _ s hplain]
  rw [hmarks] at hfuel hs
  exact statement_reads s h hfuel hs hrest

/-- A block without further conditions is read as written. -/
theorem blockReads_plain {ss : List Statement} (h : Statement.areSpellable ss)
    (hplain : Statement.haveElif ss = false) : BlockReads (.name "elif") ss where
  read hfuel hs ht := by
    have hmarks : Statement.marksAllWith (.name "elif") ss =
        Statement.marksAllWith (.sign .elifWord) ss := by
      rw [Statement.marksAllWith_eq _ ss hplain, Statement.marksAllWith_eq _ ss hplain]
    rw [hmarks] at hfuel hs
    exact (blockReads ss h).read hfuel hs ht

section Balking

variable {ms : List Mark} {ss yes no : List Statement} {elifs : List Elif} {rest' : List Token}
  {tree : Tree}

theorem BlockBalks.block (h : BlockBalks ss)
    (hfuel : (Statement.marksAllWith (.name "elif") ss).length + 2 < fuel)
    (hs : Spells
      (.sign .indent :: (Statement.marksAllWith (.name "elif") ss ++ .sign .dedent :: ms)) ts rest)
    (trees : List Tree) : block fuel ts ≠ .ok trees rest' := by
  intro hok
  obtain ⟨fuel, rfl⟩ : ∃ f, fuel = f + 1 := ⟨fuel - 1, by omega⟩
  obtain ⟨i, is, rfl, hi, hs⟩ := hs
  obtain ⟨_, hs, d, _, rfl, hd, -⟩ := spells_append.1 hs
  rw [Grammar.block, bind_of_ok (kind_cons i is)] at hok
  simp only [show i.kind = .indent from hi] at hok
  rw [bind_of_ok (advance_apply _), List.tail_cons] at hok
  obtain ⟨body, _, hbody, -⟩ := bind_eq_ok.1 hok
  exact h.never (by omega) hs hd hbody

/-- In front of its further conditions, a choice has the tokens of one without any. -/
theorem branch_marks_append (further : Mark) (e : Expression) (yes : List Statement)
    (elifs : List Elif) (no : List Statement) :
    ∃ ms, (Statement.branch e yes elifs no).marksWith further =
      (Statement.branch e yes [] []).marksWith further ++
        (Elif.marksAllWith further elifs ++ ms) := by
  refine ⟨if no.isEmpty then [] else .sign .elseWord :: .sign .colon :: .sign .indent ::
    (Statement.marksAllWith further no ++ [.sign .dedent]), ?_⟩
  simp only [Statement.marksWith, Elif.marksAllWith, List.isEmpty_nil, if_true, List.cons_append,
    List.append_assoc, List.nil_append]

/-- A choice is read up to its first further condition. -/
theorem branch_reads_elif {e : Expression} {x : Elif} (he : e.isWritable)
    (hyes : BlockReads (.name "elif") yes)
    (hs : Spells ((Statement.branch e yes (x :: elifs) no).marksWith (.name "elif")) ts rest) :
    ∃ t mid, Spells ((Statement.branch e yes [] []).marksWith (.name "elif")) ts (t :: mid) ∧
      t.Shows (.name "elif") ∧ Blocked (t :: mid) ∧
      ∀ {fuel},
        ((Statement.branch e yes (x :: elifs) no).marksWith (.name "elif")).length ≤ fuel →
        branch fuel ts = .ok (Statement.branch e yes [] []).tree (t :: mid) := by
  obtain ⟨e', body⟩ := x
  obtain ⟨ms, hms⟩ := branch_marks_append (.name "elif") e yes (.mk e' body :: elifs) no
  rw [hms] at hs ⊢
  rw [Elif.marksAllWith, Elif.marksWith, List.append_assoc, List.cons_append, List.append_assoc]
    at hs
  obtain ⟨_, hfirst, hs⟩ := spells_append.1 hs
  have hblocked := blocked_of_condition hs
  obtain ⟨t, mid, rfl, ht, -⟩ := hs
  refine ⟨t, mid, hfirst, ht, hblocked, fun {fuel} hfuel => ?_⟩
  simp only [Statement.marksWith, Elif.marksAllWith, List.isEmpty_nil, if_true, List.append_nil,
    List.length_cons, List.length_append] at hfuel hfirst
  obtain ⟨fuel, rfl⟩ : ∃ f, fuel = f + 2 := ⟨fuel - 2, by omega⟩
  obtain ⟨_, hbranch, hs⟩ := branch_of_condition he (by omega : _ < fuel + 1) hfirst
  obtain ⟨_, hblock, rfl⟩ := hyes.block (by omega : _ < fuel + 1) hs
  -- after the block there is a name, so nothing more is taken for a part of the choice
  have helif : elifBranches (fuel + 1) (t :: mid) = .ok [] (t :: mid) :=
    elifBranches_of_ne (forall_head_cons (P := (· ≠ .elifWord)) ht.1 (by decide))
  have helse : sees .elseWord (t :: mid) = .ok false (t :: mid) :=
    sees_of_ne (forall_head_cons (P := (· ≠ .elseWord)) ht.1 (by decide))
  rw [hbranch, branchRest, bind_of_ok hblock, bind_of_ok helif, bind_of_ok helse]
  rfl

/-- A choice with such a block in the first place. -/
theorem branch_balks_yes {e : Expression} (he : e.isWritable) (hyes : BlockBalks yes)
    (hfuel : ((Statement.branch e yes elifs no).marksWith (.name "elif")).length ≤ fuel)
    (hs : Spells ((Statement.branch e yes elifs no).marksWith (.name "elif")) ts rest) :
    branch fuel ts ≠ .ok tree rest' := by
  intro hok
  simp only [Statement.marksWith, List.length_cons, List.length_append] at hfuel
  obtain ⟨fuel, rfl⟩ : ∃ f, fuel = f + 1 := ⟨fuel - 1, by omega⟩
  obtain ⟨_, hbranch, hs⟩ := branch_of_condition he (by omega : _ < fuel) hs
  rw [hbranch, branchRest] at hok
  obtain ⟨trees, _, hblock, -⟩ := bind_eq_ok.1 hok
  exact hyes.block (by omega) hs trees hblock

theorem branch_balks_no {e : Expression} (he : e.isWritable) (hyes : BlockReads (.name "elif") yes)
    (hno : BlockBalks no) (hne : no.isEmpty = false)
    (hfuel : ((Statement.branch e yes [] no).marksWith (.name "elif")).length ≤ fuel)
    (hs : Spells ((Statement.branch e yes [] no).marksWith (.name "elif")) ts rest) :
    branch fuel ts ≠ .ok tree rest' := by
  intro hok
  simp only [Statement.marksWith, Elif.marksAllWith, hne, Bool.false_eq_true, if_false,
    List.nil_append, List.length_cons, List.length_append, List.length_nil] at hfuel hs
  obtain ⟨fuel, rfl⟩ : ∃ f, fuel = f + 2 := ⟨fuel - 2, by omega⟩
  obtain ⟨_, hbranch, hs⟩ := branch_of_condition he (by omega : _ < fuel + 1) hs
  obtain ⟨_, hblock, w, _, rfl, hw, c, cs, rfl, hc, hs⟩ := hyes.block (by omega : _ < fuel + 1) hs
  have helif : elifBranches (fuel + 1) (w :: c :: cs) = .ok [] (w :: c :: cs) :=
    elifBranches_of_ne (forall_head_cons (P := (· ≠ .elifWord)) hw (by decide))
  rw [hbranch, branchRest, bind_of_ok hblock, bind_of_ok helif,
    bind_of_ok (sees_cons .elseWord w _), show w.kind = .elseWord from hw, if_pos BEq.rfl,
    bind_of_ok (advance_apply _), List.tail_cons, bind_of_ok (take_cons hc _)] at hok
  obtain ⟨trees, _, hblock, -⟩ := bind_eq_ok.1 hok
  exact hno.block (by omega) hs trees hblock

theorem forLoop_balks {name : String} {source : Source} (hsource : source.isWritable)
    (hbody : BlockBalks ss)
    (hfuel : ((Statement.forLoop name source ss).marksWith (.name "elif")).length ≤ fuel)
    (hs : Spells ((Statement.forLoop name source ss).marksWith (.name "elif")) ts rest) :
    forLoop fuel ts ≠ .ok tree rest' := by
  intro hok
  simp only [Statement.marksWith, List.length_cons, List.length_append] at hfuel
  obtain ⟨fuel, rfl⟩ : ∃ f, fuel = f + 1 := ⟨fuel - 1, by omega⟩
  obtain ⟨t, _, rfl, ht, n, _, rfl, hn, w, _, rfl, hw, hs⟩ := hs
  obtain ⟨_, hs₁, c, _, rfl, hc, hs⟩ := spells_append.1 hs
  rw [forLoop, bind_of_ok (take_cons ht _), bind_of_ok (take_cons hn.1 _),
    bind_of_ok (take_cons hw _),
    bind_of_ok (iterable_reads hsource (by omega) hs₁ (ended_cons hc (by decide))),
    bind_of_ok (take_cons hc _)] at hok
  obtain ⟨trees, _, hblock, -⟩ := bind_eq_ok.1 hok
  exact hbody.block (by omega) hs trees hblock

theorem whileLoop_balks {e : Expression} (he : e.isWritable) (hbody : BlockBalks ss)
    (hfuel : ((Statement.whileLoop e ss).marksWith (.name "elif")).length ≤ fuel)
    (hs : Spells ((Statement.whileLoop e ss).marksWith (.name "elif")) ts rest) :
    whileLoop fuel ts ≠ .ok tree rest' := by
  intro hok
  simp only [Statement.marksWith, List.length_cons, List.length_append] at hfuel
  obtain ⟨fuel, rfl⟩ : ∃ f, fuel = f + 1 := ⟨fuel - 1, by omega⟩
  obtain ⟨t, _, rfl, ht, hs⟩ := hs
  obtain ⟨_, hs₁, c, _, rfl, hc, hs⟩ := spells_append.1 hs
  rw [whileLoop, bind_of_ok (take_cons ht _),
    bind_of_ok ((reads e he).whole.read (by omega) hs₁ (ended_cons hc (by decide))),
    bind_of_ok (kind_cons c _)] at hok
  simp only [show c.kind = .colon from hc] at hok
  rw [bind_of_ok (advance_apply _), List.tail_cons] at hok
  obtain ⟨trees, _, hblock, -⟩ := bind_eq_ok.1 hok
  exact hbody.block (by omega) hs trees hblock

end Balking

/-- What is read of a block: its first statement and, unless a line break follows, the others. -/
theorem statementsFrom_eq_ok {trees : List Tree} (h : statementsFrom fuel ts = .ok trees rest) :
    ∃ tree mid, statement fuel ts = .ok tree mid ∧
      (sees .newline mid = .ok false mid →
        ∃ more, statements [.dedent] fuel mid = .ok more rest) := by
  obtain ⟨tree, mid, hread, -⟩ := bind_eq_ok.1 h
  refine ⟨tree, mid, hread, fun hmid => ?_⟩
  rw [statementsFrom_of_statement hread hmid] at h
  obtain ⟨more, _, hmore, h⟩ := bind_eq_ok.1 h
  cases h
  exact ⟨more, hmore⟩

mutual

/-- No statement with a further condition in it is read up to its end. -/
theorem balks : ∀ (s : Statement), s.isSpellable → s.hasElif → Balks s
  | .branch e yes elifs no, h, helif => by
    refine ⟨fun {fuel ts rest rest' tree} hfuel hs hok => ?_⟩
    simp only [Statement.isSpellable, Bool.and_eq_true] at h
    obtain ⟨⟨⟨⟨he, -⟩, hyes⟩, -⟩, hno⟩ := h
    have hbranch : branch fuel ts = .ok tree rest' := by
      obtain ⟨t, _, rfl, ht, -⟩ := hs
      rwa [statement_of_if ht] at hok
    -- The first block never ends, or the choice ends before a further condition, or its last block
    -- never ends.
    cases hplain : Statement.haveElif yes with
    | true => exact absurd hbranch (branch_balks_yes he (blockBalks yes hyes hplain) hfuel hs)
    | false =>
      have hyes' := blockReads_plain hyes hplain
      match elifs, no with
      | x :: elifs, no =>
        obtain ⟨t, mid, -, -, hblocked, hread⟩ := branch_reads_elif he hyes' hs
        rw [hread hfuel] at hbranch
        cases hbranch
        exact hblocked
      | [], [] => simp [Statement.hasElif, hplain, Statement.haveElif] at helif
      | [], s :: no =>
        have helif' : Statement.haveElif (s :: no) := by
          simpa [Statement.hasElif, hplain] using helif
        exact absurd hbranch
          (branch_balks_no he hyes' (blockBalks (s :: no) hno helif') rfl hfuel hs)
  | .forLoop name source body, h, helif => by
    refine ⟨fun {fuel ts rest rest' tree} hfuel hs hok => ?_⟩
    simp only [Statement.isSpellable, Bool.and_eq_true] at h
    have hloop : forLoop fuel ts = .ok tree rest' := by
      obtain ⟨t, _, rfl, ht, -⟩ := hs
      rwa [statement_of_for ht] at hok
    exact absurd hloop (forLoop_balks h.1.1.2 (blockBalks body h.2 helif) hfuel hs)
  | .whileLoop e body, h, helif => by
    refine ⟨fun {fuel ts rest rest' tree} hfuel hs hok => ?_⟩
    simp only [Statement.isSpellable, Bool.and_eq_true] at h
    have hloop : whileLoop fuel ts = .ok tree rest' := by
      obtain ⟨t, _, rfl, ht, -⟩ := hs
      rwa [statement_of_while ht] at hok
    exact absurd hloop (whileLoop_balks h.1.1 (blockBalks body h.2 helif) hfuel hs)
  | .assign .., _, helif | .compound .., _, helif | .reverse _, _, helif
  | .revtrace .., _, helif | .print .., _, helif | .breakLoop, _, helif
  | .literals _, _, helif => by cases helif

/-- No block with a further condition in it is read up to its end. -/
theorem blockBalks : ∀ (ss : List Statement), Statement.areSpellable ss →
    Statement.haveElif ss → BlockBalks ss
  | [], _, helif => by cases helif
  | s :: ss, h, helif => by
    refine ⟨fun {fuel t ts rest rest' trees} hfuel hs ht hok => ?_⟩
    rw [Statement.areSpellable, Bool.and_eq_true] at h
    rw [Statement.marksAllWith, List.length_append] at hfuel
    obtain ⟨mid, hs₁, hs₂⟩ := spells_append.1 hs
    obtain ⟨m, ms, hm, hkind⟩ := statement_marks_eq_cons (.name "elif") s h.1
    have hpos := statement_marks_pos (.name "elif") h.1
    obtain ⟨fuel, rfl⟩ : ∃ f, fuel = f + 2 := ⟨fuel - 2, by omega⟩
    obtain ⟨u, us, rfl, hu⟩ : ∃ u us, ts = u :: us ∧ u.kind ∈ startKinds := by
      rw [hm] at hs₁
      obtain ⟨u, us, rfl, hu, -⟩ := hs₁
      exact ⟨u, us, rfl, hu.kind_eq ▸ hkind⟩
    rw [statements_of_start hu] at hok
    obtain ⟨tree, mid', hread, hmore⟩ := statementsFrom_eq_ok hok
    -- The first statement leaves off at a further condition, or it is read and the others do.
    cases hplain : s.hasElif with
    | true =>
      have hstuck := ((balks s h.1 hplain).blocked (by omega) hs₁ hread).stuck
      obtain ⟨more, hmore⟩ := hmore hstuck.sees
      exact hstuck.never ⟨rfl, rfl⟩ hmore
    | false =>
      have helif' : Statement.haveElif ss := by
        simpa [Statement.haveElif, hplain] using helif
      have hfresh : Fresh mid := fresh_of_statements h.2 hs₂ (fresh_cons ht (by decide))
      rw [statement_reads_plain h.1 hplain (by omega : _ ≤ fuel) hs₁ hfresh] at hread
      cases hread
      obtain ⟨more, hmore⟩ := hmore hfresh.sees
      exact (blockBalks ss h.2 helif').never (by omega) hs₂ ht hmore

end

/-- A program with a further condition in it, at any depth, is never read. -/
theorem program_balks (ss : List Statement) (h : Statement.areSpellable ss)
    (hbreak : ss.all fun s => !(s matches .breakLoop)) (helif : Statement.haveElif ss)
    (hfuel : (Statement.marksAllWith (.name "elif") ss).length < fuel)
    (hs : Spells (Statement.marksAllWith (.name "elif") ss) ts []) (trees : List Tree) :
    program fuel ts ≠ .ok trees rest := by
  intro hok
  induction ss generalizing fuel ts trees rest with
  | nil => cases helif
  | cons s ss ih =>
    rw [Statement.areSpellable, Bool.and_eq_true] at h
    rw [List.all_cons, Bool.and_eq_true] at hbreak
    rw [Statement.marksAllWith, List.length_append] at hfuel
    obtain ⟨mid, hs₁, hs₂⟩ := spells_append.1 hs
    obtain ⟨fuel, rfl⟩ : ∃ f, fuel = f + 1 := ⟨fuel - 1, by omega⟩
    rw [program_of_statement h.1 (ne_breakLoop hbreak.1) hs₁, statementThen] at hok
    obtain ⟨tree, mid', hread, hok⟩ := bind_eq_ok.1 hok
    obtain ⟨more, rest', hmore, -⟩ := bind_eq_ok.1 hok
    cases hplain : s.hasElif with
    | true =>
      have hblocked := (balks s h.1 hplain).blocked (by omega) hs₁ hread
      exact program_ne_ok_of_blocked hblocked more hmore
    | false =>
      have hfresh : Fresh mid := fresh_of_statements h.2 hs₂ (fun t ht => by cases ht)
      have hpos := statement_marks_pos (.name "elif") h.1
      rw [statement_reads_plain h.1 hplain (by omega) hs₁ hfresh] at hread
      cases hread
      have helif' : Statement.haveElif ss := by
        simpa [Statement.haveElif, hplain] using helif
      exact ih h.2 hbreak.2 helif' (by omega) hs₂ more hmore

theorem program_refuses_elif {e : Expression} {yes no : List Statement} {x : Elif}
    {elifs : List Elif} (h : (Statement.branch e yes (x :: elifs) no).isSpellable)
    (hplain : Statement.haveElif yes = false)
    (hs : Spells ((Statement.branch e yes (x :: elifs) no).marksWith (.name "elif")) ts rest) :
    ∃ t mid, Spells ((Statement.branch e yes [] []).marksWith (.name "elif")) ts (t :: mid) ∧
      t.Shows (.name "elif") ∧
      ∀ {fuel},
        ((Statement.branch e yes (x :: elifs) no).marksWith (.name "elif")).length < fuel →
        program fuel ts = .error (.unexpected (some t)) (t :: mid) := by
  have hprogram {fuel : Nat} : program (fuel + 1) ts = statementThen fuel ts :=
    program_of_statement h nofun hs
  have hpos := statement_marks_pos (.name "elif") h
  simp only [Statement.isSpellable, Bool.and_eq_true] at h
  obtain ⟨⟨⟨⟨he, -⟩, hyes⟩, -⟩, -⟩ := h
  obtain ⟨t, mid, hfirst, ht, hblocked, hread⟩ :=
    branch_reads_elif he (blockReads_plain hyes hplain) hs
  refine ⟨t, mid, hfirst, ht, fun {fuel} hfuel => ?_⟩
  obtain ⟨u, us, rfl, hu, -⟩ := hs
  obtain ⟨fuel, rfl⟩ : ∃ f, fuel = f + 2 := ⟨fuel - 2, by omega⟩
  have hstatement := (statement_of_if hu).trans (hread (Nat.le_of_lt_succ hfuel))
  rw [hprogram, statementThen, bind_of_ok hstatement, bind_apply, program_of_blocked hblocked]

/-- The tokens of a text are fewer than a bound that suffices for them. -/
theorem length_lt_of_enough {ms : List Mark} (hs : Spells ms ts []) (hfuel : enough ts ≤ fuel) :
    ms.length < fuel := by
  rw [enough, hs.length_eq] at hfuel
  omega

end Grammar

open Phrase Grammar

/-- **Choices with further conditions are never read**, although the grammar has them.

Their text is cut into tokens in which `elif` is a name.  No bound on the depth of calls that
suffices for these tokens gives a program.  If there are no further conditions within the first
block, the program is refused at the name in front of the first one, after all tokens of the choice
that come before it.  From the same tokens with `elif` as a reserved word, though, the very choice
is read. -/
theorem elif_never_read {s : Statement} {condition : Expression} {yes no : List Statement}
    {x : Elif} {elifs : List Elif} (hchoice : s = .branch condition yes (x :: elifs) no)
    (h : s.isSpellable) :
    (∃ ts, Token.ofSource (s.write 0) = .ok ts ∧ Spells (s.marksWith (.name "elif")) ts [] ∧
      (∀ fuel, enough ts ≤ fuel → ∀ trees rest, program fuel ts ≠ .ok trees rest) ∧
      (Statement.haveElif yes = false → ∃ t rest,
        Spells ((Statement.branch condition yes [] []).marksWith (.name "elif")) ts (t :: rest) ∧
        t.Shows (.name "elif") ∧
        ∀ fuel, enough ts ≤ fuel → program fuel ts = .error (.unexpected (some t)) (t :: rest))) ∧
    ∀ ts, Spells (s.marksWith (.sign .elifWord)) ts [] → parse ts = .ok [s.tree] := by
  have hspellable : Statement.areSpellable [s] := by simpa [Statement.areSpellable] using h
  have helif : Statement.haveElif [s] := by
    simp [hchoice, Statement.haveElif, Statement.hasElif]
  have hbreak : [s].all fun s => !(s matches .breakLoop) := by
    rw [hchoice]
    rfl
  constructor
  · obtain ⟨ts, hts, hs⟩ := ofSource_spellable hspellable
    have hs' := hs
    rw [Statement.writeAll_singleton] at hts
    rw [Statement.marksAllWith_singleton] at hs'
    refine ⟨ts, hts, hs', fun fuel hfuel trees rest => ?_, fun hplain => ?_⟩
    · exact program_balks [s] hspellable hbreak helif (length_lt_of_enough hs hfuel) hs trees
    · subst hchoice
      obtain ⟨t, rest, hfirst, ht, hrefused⟩ := program_refuses_elif h hplain hs'
      exact ⟨t, rest, hfirst, ht, fun fuel hfuel => hrefused (length_lt_of_enough hs' hfuel)⟩
  · intro ts hs
    rw [← Statement.marksAllWith_singleton] at hs
    have hread := program_reads_spellable [s] hspellable hbreak (length_lt_of_enough hs le_rfl) hs
    rw [parse, run, hread]
    rfl

/-- A choice by the size of a number. -/
def bySize : Statement :=
  .branch (.binary (.literal (.name "x")) (.known .gt) (.literal (.int 10)))
    [.assign "y" (.literal (.int 20))]
    [.mk (.binary (.literal (.name "x")) (.known .eq) (.literal (.int 10)))
      [.assign "y" (.literal (.int 15))]]
    [.assign "y" (.literal (.int 5))]

/-- A choice with one further condition, refused at the word that it starts with. -/
theorem elif_never_read_bySize :
    bySize.write 0 = "if x > 10:\n    y = 20\nelif x == 10:\n    y = 15\nelse:\n    y = 5\n" ∧
    bySize.isSpellable ∧
    ∃ ts, Token.ofSource (bySize.write 0) = .ok ts ∧ ts.length = 27 ∧
      ∃ t rest, t.Shows (.name "elif") ∧
        run program ts = .error (.unexpected (some t)) (t :: rest) := by
  have h : bySize.isSpellable := by decide
  refine ⟨by decide, h, ?_⟩
  obtain ⟨⟨ts, hts, hs, -, hrefused⟩, -⟩ := elif_never_read rfl h
  obtain ⟨t, rest, -, ht, hrun⟩ := hrefused (by decide)
  exact ⟨ts, hts, hs.length_eq, t, rest, ht, hrun _ le_rfl⟩

/-- The text of a choice with a further condition is refused in its third line. -/
theorem read_bySize_ne :
    Run.read (bySize.write 0) =
      .error (.parse, .unexpected (some ⟨.name, .text "elif", 3, 0⟩)) ∧
    Run.read (bySize.write 0) ≠ .ok [bySize.tree] := by
  have hread : Run.read (bySize.write 0) =
      .error (.parse, .unexpected (some ⟨.name, .text "elif", 3, 0⟩)) := by
    cbv
  refine ⟨hread, ?_⟩
  rw [hread]
  intro h
  cases h

end Retrace
