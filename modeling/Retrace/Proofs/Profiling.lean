import Mathlib.Data.List.Nodup
import Retrace.Profile

/-!
# What a profile counts

The names of a program are judged again and again while they are being counted, whenever a batch of
steps is full, and the last time in the end.  All but the last time makes no difference: a name is
found to be frequent by what has been counted of it so far, and nothing is ever counted down.  So
the names that are eager in the end are those that occur often in the whole of the program, whatever
the size of a batch is and in whatever order the statements stand.

What is counted is described without counting.  The parts of a statement that count are a list of
trees (`Profile.parts`), and the texts in a tree are a list of texts; how often a name occurs is a
number that can be read off these lists.  A profile is then compared with the texts that have been
seen and with the number of steps that were made (`Profile.Tallies`).  The eager names of such a
profile are among the frequent ones, but not all of them need be eager yet; that they all are is so
right after judging.  This makes the invariant independent of when names were judged last.

A profiler may be made of several, and it may fail.  `Profile.Counts` says of a profiler that it
does not, and that it adds certain texts to those that were seen; it goes through sequences, and so
the lists of parts are put together as the statements are.  Statements are trees here, of which it
is only assumed that they have the form of a statement, with any trees for names and expressions.

To reorder the statements of a program, at any depth, changes the list of parts by a permutation,
and a count does not depend on the order.

* `Tree.texts`, `Tree.extent`: the texts in a tree, and the number of trees in it.
* `Tree.IsStatement`: the well-formed statements, with any trees for names and expressions.
* `Profile.parts`: the parts of a statement that count.
* `Profile.Tallies`: the invariant.  A step of counting keeps it (`Tallies.step`), and so does
  judging (`Tallies.judge`).
* `Profile.Counts`: a profiler counts some texts, in a number of steps; `node_counts` says this of
  statements.
* `profile_counts_occurrences`: the result.
-/

set_option autoImplicit false

namespace Retrace

/-! ## Texts in trees -/

namespace Tree

mutual

/-- The texts in a tree. -/
def texts : Tree → List String
  | .list xs => textsOf xs
  | .tuple xs => textsOf xs
  | .text s => [s]
  | _ => []

/-- The texts in trees. -/
def textsOf : List Tree → List String
  | [] => []
  | x :: rest => x.texts ++ textsOf rest

end

mutual

/-- The number of trees in a tree, with the tree itself. -/
def extent : Tree → Nat
  | .list xs => extentOf xs + 1
  | .tuple xs => extentOf xs + 1
  | _ => 1

/-- The number of trees in trees. -/
def extentOf : List Tree → Nat
  | [] => 0
  | x :: rest => x.extent + extentOf rest

end

theorem textsOf_eq_flatMap (xs : List Tree) : textsOf xs = xs.flatMap texts := by
  induction xs with
  | nil => rfl
  | cons x rest ih => rw [textsOf, ih, List.flatMap_cons]

theorem textsOf_append (xs ys : List Tree) : textsOf (xs ++ ys) = textsOf xs ++ textsOf ys := by
  simp only [textsOf_eq_flatMap, List.flatMap_append]

theorem extentOf_append (xs ys : List Tree) : extentOf (xs ++ ys) = extentOf xs + extentOf ys := by
  induction xs with
  | nil => rw [List.nil_append, extentOf, Nat.zero_add]
  | cons x rest ih => rw [List.cons_append, extentOf, extentOf, ih, Nat.add_assoc]

/-! ## Statements -/

/-- The further conditions of a branch, each with its block. -/
def elifs (xs : List (Tree × List Tree)) : List Tree :=
  xs.map fun x => .tuple [x.1, .list x.2]

/-- A well-formed statement: it has the parts that belong to its form, its blocks are lists of
well-formed statements, and its names and expressions are any trees. -/
inductive IsStatement : Tree → Prop
  | assign (name value : Tree) : IsStatement (.assign name value)
  | compound (op : Compound) (name value : Tree) : IsStatement (.compound op name value)
  | reverse (name : Tree) : IsStatement (.reverse name)
  | revtrace (name position : Tree) : IsStatement (.revtrace name position)
  | branch (condition : Tree) {yes no : List Tree} {further : List (Tree × List Tree)}
      (hyes : ∀ t ∈ yes, IsStatement t) (hfurther : ∀ x ∈ further, ∀ t ∈ x.2, IsStatement t)
      (hno : ∀ t ∈ no, IsStatement t) : IsStatement (.branch condition yes (elifs further) no)
  | forLoop (name source : Tree) {body : List Tree} (hbody : ∀ t ∈ body, IsStatement t) :
      IsStatement (.forLoop name source body)
  | whileLoop (condition : Tree) {body : List Tree} (hbody : ∀ t ∈ body, IsStatement t) :
      IsStatement (.whileLoop condition body)
  | print (values : List Tree) : IsStatement (.print values)
  | breakLoop : IsStatement .breakLoop
  | length (e : Tree) : IsStatement (.length e)

end Tree

namespace Profile

mutual

/-- The parts of a statement that count: the names and expressions of assignments, reversals,
traces and prints, and the conditions of branches and `while` loops with what counts in their
blocks. -/
def parts : Tree → List Tree
  | .tuple [.text "assign", name, value] => [name, value]
  | .tuple [.text "reverse", name] => [name]
  | .tuple [.text "revtrace", name, position] => [name, position]
  | .tuple [.text "if", condition, .list yes, .list further, .list no] =>
    condition :: (partsOf yes ++ (partsOfElifs further ++ partsOf no))
  | .tuple [.text "while", condition, .list body] => condition :: partsOf body
  | .tuple [.text "print", values] => [values]
  | _ => []

/-- The parts of statements that count. -/
def partsOf : List Tree → List Tree
  | [] => []
  | t :: rest => parts t ++ partsOf rest

/-- The parts of the further conditions of a branch that count. -/
def partsOfElifs : List Tree → List Tree
  | [] => []
  | .tuple [condition, .list body] :: rest =>
    condition :: (partsOf body ++ partsOfElifs rest)
  | _ :: rest => partsOfElifs rest

end

/-- How often a text occurs in the parts of a program that count. -/
def occurrences (s : String) (program : List Tree) : Nat :=
  (Tree.textsOf (partsOf program)).count s

/-- The steps that it takes to count a program: one for each tree in the parts that count. -/
def effort (program : List Tree) : Nat :=
  Tree.extentOf (partsOf program)

/-! ## The invariant -/

/-- The texts have been counted, in so many steps with batches of size `b`, and no name is eager
that does not occur often among them. -/
structure Tallies (b : Nat) (p : Profile) (seen : List String) (calls : Nat) : Prop where
  batch : p.batch = b
  counts : ∀ s, p.counts.get? s = if seen.count s = 0 then none else some (seen.count s)
  keys : p.counts.keys.Nodup
  steps : p.steps = calls % b
  eager : ∀ s ∈ p.eager, threshold < seen.count s
  nodup : p.eager.Nodup

end Profile

namespace Table

variable {κ α : Type} [BEq κ] [LawfulBEq κ]

/-- Setting an entry brings up no key twice. -/
theorem nodup_keys_insert {t : Table κ α} (h : t.keys.Nodup) (key : κ) (a : α) :
    (t.insert key a).keys.Nodup := by
  obtain ⟨entries⟩ := t
  change (entries.map Prod.fst).Nodup at h
  show ((put key a entries).map Prod.fst).Nodup
  induction entries with
  | nil => exact List.nodup_singleton key
  | cons p rest ih =>
    obtain ⟨k, b⟩ := p
    rw [List.map_cons, List.nodup_cons] at h
    rw [put]
    split
    · rw [List.map_cons, List.nodup_cons]
      exact h
    · next hne =>
      rw [List.map_cons, List.nodup_cons]
      refine ⟨fun hmem => ?_, ih h.2⟩
      rcases keys_insert (t := ⟨rest⟩) hmem with heq | hmem
      · exact hne (beq_iff_eq.2 heq)
      · exact h.1 hmem

/-- If no key comes up twice, the entries are those that are found by their keys. -/
theorem mem_entries_iff {t : Table κ α} (h : t.keys.Nodup) {key : κ} {a : α} :
    (key, a) ∈ t.entries ↔ t.get? key = some a := by
  obtain ⟨entries⟩ := t
  change (entries.map Prod.fst).Nodup at h
  show (key, a) ∈ entries ↔ find key entries = some a
  induction entries with
  | nil => simp [find]
  | cons p rest ih =>
    obtain ⟨k, b⟩ := p
    rw [List.map_cons, List.nodup_cons] at h
    rw [find, List.mem_cons]
    by_cases hk : k = key
    · subst hk
      have hrest : (k, a) ∉ rest := fun hmem => h.1 (List.mem_map.2 ⟨_, hmem, rfl⟩)
      simp [hrest, eq_comm]
    · simp [hk, Ne.symm hk, ih h.2]

end Table

namespace Profile

theorem mem_addEager {p : Profile} {s name : String} :
    s ∈ (p.addEager name).eager ↔ s ∈ p.eager ∨ s = name := by
  rw [addEager]
  split
  · next h =>
    rw [List.contains_iff_mem] at h
    exact ⟨.inl, fun hs => hs.elim id fun heq => heq ▸ h⟩
  · simp

theorem nodup_addEager {p : Profile} (h : p.eager.Nodup) (name : String) :
    (p.addEager name).eager.Nodup := by
  rw [addEager]
  split
  · exact h
  · next hname =>
    rw [List.contains_iff_mem] at hname
    exact List.nodup_append.2 ⟨h, List.nodup_singleton _, by
      intro s hs _ ht heq
      rw [List.mem_singleton] at ht
      exact hname (ht ▸ heq ▸ hs)⟩

/-- The name is one that some entry counts often. -/
def Frequent (entries : List (String × Nat)) (s : String) : Prop :=
  ∃ n, (s, n) ∈ entries ∧ threshold < n

theorem frequent_cons {name s : String} {n : Nat} {entries : List (String × Nat)} :
    Frequent ((name, n) :: entries) s ↔ (s = name ∧ threshold < n) ∨ Frequent entries s := by
  simp only [Frequent, List.mem_cons, Prod.mk.injEq, or_and_right, exists_or]
  refine or_congr_left ⟨?_, ?_⟩
  · rintro ⟨_, ⟨rfl, rfl⟩, hn⟩
    exact ⟨rfl, hn⟩
  · rintro ⟨rfl, hn⟩
    exact ⟨n, ⟨rfl, rfl⟩, hn⟩

/-- Judging adds names to those that are eager, and changes nothing else. -/
theorem judge_eq (p : Profile) : p.judge = { p with eager := p.judge.eager } ∧
    (∀ s, s ∈ p.judge.eager ↔ s ∈ p.eager ∨ Frequent p.counts.entries s) ∧
    (p.eager.Nodup → p.judge.eager.Nodup) := by
  rw [judge]
  generalize p.counts.entries = entries
  induction entries generalizing p with
  | nil => simp [Frequent]
  | cons entry rest ih =>
    obtain ⟨name, n⟩ := entry
    rw [List.foldl_cons]
    by_cases hn : threshold < n
    · obtain ⟨hsame, hmem, hnodup⟩ := ih (p.addEager name)
      rw [if_pos hn]
      refine ⟨?_, fun s => ?_, fun h => hnodup (nodup_addEager h name)⟩
      · rw [hsame, addEager]
        split <;> rfl
      · rw [hmem, mem_addEager, frequent_cons, or_assoc, and_iff_left hn]
    · obtain ⟨hsame, hmem, hnodup⟩ := ih p
      rw [if_neg hn]
      refine ⟨hsame, fun s => ?_, hnodup⟩
      rw [hmem, frequent_cons, iff_false_intro hn, and_false, false_or]

namespace Tallies

variable {b calls : Nat} {p : Profile} {seen : List String}

theorem new (b : Nat) : Tallies b { batch := b } [] 0 where
  batch := rfl
  counts _ := rfl
  keys := List.nodup_nil
  steps := (Nat.zero_mod b).symm
  eager := nofun
  nodup := List.nodup_nil

/-- What is counted often is what occurs often. -/
theorem frequent_iff (h : Tallies b p seen calls) (s : String) :
    Frequent p.counts.entries s ↔ threshold < seen.count s := by
  simp only [Frequent, Table.mem_entries_iff h.keys, h.counts]
  constructor
  · rintro ⟨n, hn, hlt⟩
    split at hn
    · cases hn
    · cases hn
      exact hlt
  · intro hlt
    exact ⟨_, if_neg (Nat.ne_of_gt (Nat.lt_of_le_of_lt (Nat.zero_le _) hlt)), hlt⟩

/-- After judging, the eager names are the frequent ones. -/
theorem mem_judge_iff (h : Tallies b p seen calls) (s : String) :
    s ∈ p.judge.eager ↔ threshold < seen.count s := by
  rw [(judge_eq p).2.1, h.frequent_iff]
  exact ⟨fun hs => hs.elim (h.eager s) id, .inr⟩

/-- Names may be judged at any time. -/
theorem judge (h : Tallies b p seen calls) : Tallies b p.judge seen calls := by
  obtain ⟨hsame, -, hnodup⟩ := judge_eq p
  refine ⟨?_, ?_, ?_, ?_, fun s hs => (h.mem_judge_iff s).1 hs, hnodup h.nodup⟩
  · rw [hsame]
    exact h.batch
  · rw [hsame]
    exact h.counts
  · rw [hsame]
    exact h.keys
  · rw [hsame]
    exact h.steps

/-- One text more was seen. -/
theorem countText (h : Tallies b p seen calls) (s : String) :
    Tallies b (p.countText s) (seen ++ [s]) calls where
  batch := h.batch
  counts t := by
    rw [Profile.countText, Table.get?_insert, h.counts, h.counts, List.count_append,
      List.count_singleton]
    by_cases hs : s = t
    · subst hs
      by_cases hzero : seen.count s = 0 <;> simp [hzero]
    · simp [hs]
  keys := Table.nodup_keys_insert h.keys _ _
  steps := h.steps
  eager t ht := by
    rw [List.count_append]
    exact Nat.lt_add_right _ (h.eager t ht)
  nodup := h.nodup

/-- A step is counted modulo the size of a batch. -/
theorem step (hb : 0 < b) (h : Tallies b p seen calls) : Tallies b p.step seen (calls + 1) := by
  have hlt := Nat.mod_lt calls hb
  have hsucc : (calls + 1) % b = (calls % b + 1) % b := (Nat.mod_add_mod calls b 1).symm
  rw [Profile.step]
  split
  · next hfull =>
    rw [h.batch, h.steps] at hfull
    have hall : calls % b + 1 = b := Nat.le_antisymm hlt hfull
    have hzero : (calls + 1) % b = 0 := by rw [hsucc, hall, Nat.mod_self]
    exact judge ⟨h.batch, h.counts, h.keys, hzero.symm, h.eager, h.nodup⟩
  · next hmore =>
    rw [h.batch, h.steps, Nat.not_le] at hmore
    refine ⟨h.batch, h.counts, h.keys, ?_, h.eager, h.nodup⟩
    show p.steps + 1 = _
    rw [h.steps, hsucc, Nat.mod_eq_of_lt hmore]

end Tallies

/-! ## Trees and statements -/

mutual

/-- The texts of a tree are seen, in one step for each tree in it. -/
theorem Tallies.count {b : Nat} (hb : 0 < b) {p : Profile} {seen : List String} {calls : Nat}
    (h : Tallies b p seen calls) : ∀ t : Tree,
    Tallies b (p.count t) (seen ++ t.texts) (calls + t.extent)
  | .list xs => (h.countItems hb xs).step hb
  | .tuple xs => (h.countItems hb xs).step hb
  | .text s => (h.countText s).step hb
  | .none | .bool _ | .int _ | .float _ | .thunk _ => by
    show Tallies b p.step (seen ++ []) (calls + 1)
    rw [List.append_nil]
    exact h.step hb

theorem Tallies.countItems {b : Nat} (hb : 0 < b) {p : Profile} {seen : List String} {calls : Nat}
    (h : Tallies b p seen calls) : ∀ xs : List Tree,
    Tallies b (p.countItems xs) (seen ++ Tree.textsOf xs) (calls + Tree.extentOf xs)
  | [] => by
    rw [Tree.textsOf, List.append_nil]
    exact h
  | x :: rest => by
    rw [Profile.countItems, Tree.textsOf, Tree.extentOf, ← List.append_assoc, ← Nat.add_assoc]
    exact (h.count hb x).countItems hb rest

end

/-- The profiler comes to its end and counts the texts of some trees. -/
def Counts (b : Nat) (x : Profiler Unit) (ts : List Tree) : Prop :=
  ∀ p seen calls, Tallies b p seen calls →
    ∃ p', x p = .ok () p' ∧ Tallies b p' (seen ++ Tree.textsOf ts) (calls + Tree.extentOf ts)

theorem counts_pure (b : Nat) : Counts b (pure ()) [] := by
  intro p seen calls h
  refine ⟨p, rfl, ?_⟩
  rw [Tree.textsOf, List.append_nil]
  exact h

/-- One profiler after another. -/
theorem counts_bind {b : Nat} {x y : Profiler Unit} {ts us : List Tree} (hx : Counts b x ts)
    (hy : Counts b y us) : Counts b (x >>= fun _ => y) (ts ++ us) := by
  intro p seen calls h
  obtain ⟨p₁, hx₁, h₁⟩ := hx _ _ _ h
  obtain ⟨p₂, hy₂, h₂⟩ := hy _ _ _ h₁
  refine ⟨p₂, ?_, ?_⟩
  · show EStateM.bind x (fun _ => y) p = _
    rw [EStateM.bind, hx₁]
    exact hy₂
  · rw [Tree.textsOf_append, Tree.extentOf_append, ← List.append_assoc, ← Nat.add_assoc]
    exact h₂

/-- Statements in a row. -/
theorem nodes_counts {b : Nat} {ts : List Tree} (h : ∀ t ∈ ts, Counts b (node t) (parts t)) :
    Counts b (nodes ts) (partsOf ts) := by
  induction ts with
  | nil => exact counts_pure b
  | cons t rest ih =>
    rw [nodes, partsOf]
    exact counts_bind (h t (List.mem_cons_self ..))
      (ih fun u hu => h u (List.mem_cons_of_mem _ hu))

section Counting

variable {b : Nat} (hb : 0 < b)
include hb

theorem part_counts (t : Tree) : Counts b (part t) [t] := by
  intro p seen calls h
  refine ⟨p.count t, rfl, ?_⟩
  have hcount := h.count hb t
  rwa [Tree.textsOf, Tree.textsOf, List.append_nil, Tree.extentOf, Tree.extentOf]

theorem elifBranchItems_counts {further : List (Tree × List Tree)}
    (h : ∀ x ∈ further, ∀ t ∈ x.2, Counts b (node t) (parts t)) :
    Counts b (elifBranchItems (Tree.elifs further)) (partsOfElifs (Tree.elifs further)) := by
  induction further with
  | nil => exact counts_pure b
  | cons x rest ih =>
    obtain ⟨condition, body⟩ := x
    have hbranch : Counts b (elifBranch (.tuple [condition, .list body]))
        ([condition] ++ partsOf body) :=
      counts_bind (part_counts hb condition) (nodes_counts (h _ (List.mem_cons_self ..)))
    exact counts_bind hbranch (ih fun y hy => h y (List.mem_cons_of_mem _ hy))

/-- A statement comes to its end, and its parts are counted. -/
theorem node_counts {t : Tree} (ht : t.IsStatement) : Counts b (node t) (parts t) := by
  induction ht with
  | assign name value => exact counts_bind (part_counts hb name) (part_counts hb value)
  | reverse name => exact part_counts hb name
  | revtrace name position => exact counts_bind (part_counts hb name) (part_counts hb position)
  | branch condition _ _ _ hyes hfurther hno =>
    exact counts_bind (part_counts hb condition) (counts_bind (nodes_counts hyes)
      (counts_bind (elifBranchItems_counts hb hfurther) (nodes_counts hno)))
  | whileLoop condition _ hbody =>
    exact counts_bind (part_counts hb condition) (nodes_counts hbody)
  | print values => exact part_counts hb _
  | compound op name value => cases op <;> exact counts_pure b
  | forLoop => exact counts_pure b
  | breakLoop => exact counts_pure b
  | length => exact counts_pure b

/-- The profile of a well-formed program. -/
theorem program_tallies {ast : List Tree} (hast : ∀ t ∈ ast, t.IsStatement) :
    ∃ p, program ast { batch := b } = .ok () p ∧
      Tallies b p (Tree.textsOf (partsOf ast)) (effort ast) ∧
      ∀ s, s ∈ p.eager ↔ threshold < occurrences s ast := by
  have hnodes : Counts b (nodes ast) (partsOf ast) :=
    nodes_counts fun t ht => node_counts hb (hast t ht)
  obtain ⟨p, hp, h⟩ := hnodes _ _ _ (Tallies.new b)
  rw [List.nil_append, Nat.zero_add] at h
  refine ⟨p.judge, ?_, h.judge, h.mem_judge_iff⟩
  show EStateM.bind (nodes ast) (fun _ => modify judge) { batch := b } = _
  rw [EStateM.bind, hp]
  rfl

end Counting

/-! ## The order of statements -/

/-- The statements of a program, and those of the blocks of its branches and loops, are put into
another order. -/
inductive Reordered : List Tree → List Tree → Prop
  | refl (ts : List Tree) : Reordered ts ts
  | swap (t u : Tree) (rest : List Tree) : Reordered (t :: u :: rest) (u :: t :: rest)
  | cons (t : Tree) {ts us : List Tree} : Reordered ts us → Reordered (t :: ts) (t :: us)
  | trans {ts us vs : List Tree} : Reordered ts us → Reordered us vs → Reordered ts vs
  | yes {condition : Tree} {ts us further no rest : List Tree} : Reordered ts us →
      Reordered (.branch condition ts further no :: rest) (.branch condition us further no :: rest)
  | elif {condition guard : Tree} {yes ts us no rest : List Tree}
      {before after : List (Tree × List Tree)} : Reordered ts us →
      Reordered (.branch condition yes (Tree.elifs (before ++ (guard, ts) :: after)) no :: rest)
        (.branch condition yes (Tree.elifs (before ++ (guard, us) :: after)) no :: rest)
  | no {condition : Tree} {yes further ts us rest : List Tree} : Reordered ts us →
      Reordered (.branch condition yes further ts :: rest)
        (.branch condition yes further us :: rest)
  | whileBody {condition : Tree} {ts us rest : List Tree} : Reordered ts us →
      Reordered (.whileLoop condition ts :: rest) (.whileLoop condition us :: rest)
  | forBody {name source : Tree} {ts us rest : List Tree} : Reordered ts us →
      Reordered (.forLoop name source ts :: rest) (.forLoop name source us :: rest)

theorem partsOfElifs_perm {guard : Tree} {ts us : List Tree} (h : (partsOf ts).Perm (partsOf us))
    (before after : List (Tree × List Tree)) :
    (partsOfElifs (Tree.elifs (before ++ (guard, ts) :: after))).Perm
      (partsOfElifs (Tree.elifs (before ++ (guard, us) :: after))) := by
  induction before with
  | nil => exact (h.append_right _).cons _
  | cons x rest ih => exact (ih.append_left _).cons _

/-- What counts is the same in any order. -/
theorem Reordered.partsOf_perm {ts us : List Tree} (h : Reordered ts us) :
    (partsOf ts).Perm (partsOf us) := by
  induction h with
  | refl => exact List.Perm.refl _
  | swap t u rest =>
    show (parts t ++ (parts u ++ partsOf rest)).Perm (parts u ++ (parts t ++ partsOf rest))
    rw [← List.append_assoc, ← List.append_assoc]
    exact List.perm_append_comm.append_right _
  | cons t _ ih => exact ih.append_left _
  | trans _ _ ih₁ ih₂ => exact ih₁.trans ih₂
  | yes _ ih => exact ((ih.append_right _).cons _).append_right _
  | elif _ ih =>
    exact ((((partsOfElifs_perm ih _ _).append_right _).append_left _).cons _).append_right _
  | no _ ih => exact (((ih.append_left _).append_left _).cons _).append_right _
  | whileBody _ ih => exact (ih.cons _).append_right _
  | forBody => exact List.Perm.refl _

theorem Reordered.occurrences_eq {ts us : List Tree} (h : Reordered ts us) (s : String) :
    occurrences s ts = occurrences s us := by
  rw [occurrences, occurrences, Tree.textsOf_eq_flatMap, Tree.textsOf_eq_flatMap]
  exact (h.partsOf_perm.flatMap_right _).count_eq s

end Profile

/-- A program of well-formed statements is profiled without a fault, for all sizes of a batch.  Each
text is counted as often as it occurs in the parts that count, and has no entry if it does not
occur; the eager names are those that occur more than three times, each once; and the steps since
the last full batch are all steps modulo the size of a batch.  With batches of another size, and
with the statements in another order, the eager names are the same. -/
theorem profile_counts_occurrences {ast : List Tree} (hast : ∀ t ∈ ast, t.IsStatement) {b : Nat}
    (hb : 0 < b) :
    ∃ p, Profile.program ast { batch := b } = .ok () p ∧
      (∀ s, p.counts.get? s =
        if Profile.occurrences s ast = 0 then none else some (Profile.occurrences s ast)) ∧
      (∀ s, s ∈ p.eager ↔ 3 < Profile.occurrences s ast) ∧ p.eager.Nodup ∧
      p.steps = Profile.effort ast % b ∧
      ∀ ast' b', Profile.Reordered ast ast' → (∀ t ∈ ast', t.IsStatement) → 0 < b' →
        ∃ p', Profile.program ast' { batch := b' } = .ok () p' ∧
          ∀ s, s ∈ p'.eager ↔ s ∈ p.eager := by
  obtain ⟨p, hp, h, heager⟩ := Profile.program_tallies hb hast
  refine ⟨p, hp, h.counts, heager, h.nodup, h.steps, ?_⟩
  intro ast' b' hreordered hast' hb'
  obtain ⟨p', hp', -, heager'⟩ := Profile.program_tallies hb' hast'
  refine ⟨p', hp', fun s => ?_⟩
  rw [heager, heager', hreordered.occurrences_eq]

/-- A loop that counts up to five, and a statement before and after it; the statements of its block
stand in the order that is given. -/
def Tree.countUp (block : List Tree) : List Tree :=
  [.assign (.text "x") (.int 0),
    .whileLoop (.tuple [.text "x", .text "lt", .int 5]) block,
    .reverse (.text "x")]

/-- One is added, and the count is printed. -/
def Tree.countAndPrint : List Tree :=
  [.assign (.text "x") (.tuple [.text "x", .text "plus", .int 1]), .print [.text "x"]]

theorem Tree.isStatement_countUp {block : List Tree} (h : ∀ t ∈ block, t.IsStatement) :
    ∀ t ∈ Tree.countUp block, t.IsStatement := by
  simp only [countUp, List.forall_mem_cons]
  exact ⟨.assign _ _, .whileLoop _ h, .reverse _, nofun⟩

theorem Tree.isStatement_countAndPrint : ∀ t ∈ Tree.countAndPrint, t.IsStatement := by
  simp only [countAndPrint, List.forall_mem_cons]
  exact ⟨.assign _ _, .print _, nofun⟩

/-- A loop that counts, with two statements in its block, in batches of four. -/
theorem profile_counts_occurrences_countUp :
    ∃ p, Profile.program (Tree.countUp Tree.countAndPrint) { batch := 4 } = .ok () p ∧
      p.counts.get? "x" = some 6 ∧ "x" ∈ p.eager ∧ "plus" ∉ p.eager ∧ p.steps = 2 ∧
      ∃ p', Profile.program (Tree.countUp Tree.countAndPrint.reverse) { batch := 250 } = .ok () p' ∧
        ∀ s, s ∈ p'.eager ↔ s ∈ p.eager := by
  have hblock := Tree.isStatement_countAndPrint
  have hreverse : ∀ t ∈ Tree.countAndPrint.reverse, t.IsStatement := fun t ht =>
    hblock t (List.mem_reverse.1 ht)
  obtain ⟨p, hp, hcounts, heager, -, hsteps, horder⟩ :=
    profile_counts_occurrences (Tree.isStatement_countUp hblock) (b := 4) (by decide)
  have hreordered : Profile.Reordered (Tree.countUp Tree.countAndPrint)
      (Tree.countUp Tree.countAndPrint.reverse) := .cons _ (.whileBody (.swap _ _ _))
  refine ⟨p, hp, (hcounts "x").trans (by decide), (heager "x").2 (by decide),
    mt (heager "plus").1 (by decide), hsteps.trans (by decide), ?_⟩
  exact horder _ 250 hreordered (Tree.isStatement_countUp hreverse) (by decide)

end Retrace
