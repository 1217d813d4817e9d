import Retrace.Proofs.Breaking
import Retrace.Proofs.Checking
import Retrace.Proofs.Ready

/-!
# Accepted programs read bound names

If a program is accepted by the checker and settled, every evaluation of its run reads bound names
only: its strict run goes as its run does.

A strict run stops with a fault of its own at the first name that is looked up and not bound.  So
the result is an equation of two runs.  It says more than that no run stops at such a name, which no
run ever does: a name that is not bound has no value, and a run goes on with that.

The invariant is `Machine.Ready D K`: the names in `D` are bound, and so are all that waiting thunks
read, and the counters in `K` are bound to what reads no names.  It belongs to a place in the
program, so it is not kept by statements but moved on by them: a settled statement brings it from
the place before it to the place after it, where the names that it assigns are bound too
(`Statement.after`).  For this reason the framework for relations that all statements keep does not
apply here, and the induction is made once more, on statements and with the places at hand.

After a `break` no more is said to be bound than before the statement, since it is not known how far
the block came.  The same is said after a loop, as it may have no pass at all.  A block of a loop
starts from what was bound before the loop, and comes back to there, which is what the next pass
starts from.

Both runs take the same steps, and so the proof is in terms of `Exec.Matches`: the outcomes are
equal, and the invariant holds at the next place.

* `Exec.RunsAlike`: settled statements go one way as they go another way.
* `Exec.statement_matches`, `Exec.runsAlike_perform`: they go strictly as they go.
* `accepted_reads_bound`: the result, and `accepted_reads_unbound`: it does not hold of programs
  that are accepted but not settled.
-/

set_option autoImplicit false

namespace Retrace

open Name (within every isOneOf)
open Phrase

namespace Exec

variable {m : Machine} {D K : List String}

/-! ## Blocks -/

/-- The block that is chosen is settled, and it binds what all of them bind. -/
theorem chooseElif_matches {no : List Statement} {elifs : List Elif}
    (hno : Statement.settledAll every D K no = true)
    (helifs : Elif.settledAll every D K elifs = true) (hm : m.Ready D K) :
    Matches m (chooseElif strictly (.list (Statement.trees no)) (Elif.trees elifs))
      (chooseElif unwatched (.list (Statement.trees no)) (Elif.trees elifs)) fun chosen n =>
        n.Ready D K ∧ ∃ ss, chosen = .list (Statement.trees ss) ∧
          Statement.settledAll every D K ss = true ∧ ∀ x ∈ Statement.afterAll D no,
            Elif.allBind D x elifs = true → x ∈ Statement.afterAll D ss := by
  induction elifs generalizing m with
  | nil => exact matches_pure ⟨hm, no, rfl, hno, fun x hx _ => hx⟩
  | cons x rest ih =>
    obtain ⟨condition, body⟩ := x
    rw [Elif.settledAll, Bool.and_eq_true, Bool.and_eq_true] at helifs
    obtain ⟨⟨hcondition, hbody⟩, hrest⟩ := helifs
    refine matches_bind_of_ok rfl ?_
    refine matches_bind (evaluate_matches hm hcondition) fun v n hn => ?_
    refine matches_bind_of_ok (isTruthy_apply v n) (matches_ite (fun _ => ?_) fun _ => ?_)
    · refine matches_pure ⟨hn, body, rfl, hbody, fun x _ hx => ?_⟩
      rw [Elif.allBind, Bool.and_eq_true, List.contains_iff_mem] at hx
      exact hx.1
    · refine (ih hrest hn).imp fun chosen k ⟨hk, ss, hchosen, hss, hbind⟩ => ?_
      refine ⟨hk, ss, hchosen, hss, fun x hno hx => hbind x hno ?_⟩
      rw [Elif.allBind, Bool.and_eq_true] at hx
      exact hx.2

theorem strideOf_matches {step : Tree} (hm : m.Ready D K)
    (hstep : within every D step.reads = true) :
    Matches m (strideOf strictly step) (strideOf unwatched step) fun _ n => n.Ready D K :=
  matches_ite (fun _ => evaluate_matches hm hstep) fun _ => matches_pure hm

theorem advance_matches (v stride : Value) (hm : m.Ready D K) :
    Matches m (advance strictly v stride) (advance unwatched v stride)
      fun _ n => n.Ready D K where
  same := by
    cases v <;> rfl
  ok h := by
    obtain ⟨_, mid, hwatch, hrest⟩ := bind_eq_ok.1 h
    have hmid : mid = m := by
      cases v <;> cases hwatch <;> rfl
    subst hmid
    rw [bind_of_ok (get_apply mid)] at hrest
    obtain ⟨⟨w, lists⟩, _, hadvance, hend⟩ := bind_eq_ok.1 hrest
    obtain ⟨-, rfl⟩ := ofExcept_eq_ok.1 hadvance
    cases hend
    exact hm.congr rfl rfl

/-- A way to carry out statements that goes as another one does, as far as statements are settled:
after them the names are bound that are said to be. -/
def RunsAlike (run run' : Tree → Exec Bool) : Prop :=
  ∀ (s : Statement) {D K : List String} {m : Machine}, s.settled every D K = true → m.Ready D K →
    Matches m (run s.tree) (run' s.tree) fun b n => n.Ready (if b then s.after D else D) K

section Blocks

variable {run run' : Tree → Exec Bool} (hrun : RunsAlike run run')
include hrun

/-- Statements in a row, each from the place where the one before it has led to. -/
theorem inOrder_matches {ss : List Statement} (hs : Statement.settledAll every D K ss = true)
    (hm : m.Ready D K) :
    Matches m (inOrder run (Statement.trees ss)) (inOrder run' (Statement.trees ss))
      fun b n => n.Ready (if b then Statement.afterAll D ss else D) K := by
  induction ss generalizing m D with
  | nil => exact matches_pure hm
  | cons s rest ih =>
    rw [Statement.settledAll, Bool.and_eq_true] at hs
    refine matches_bind (hrun s hs.1 hm) fun b n hn => ?_
    cases b with
    | false => exact matches_pure hn
    | true =>
      refine (ih hs.2 hn).imp fun b k hk => ?_
      cases b with
      | true => exact hk
      | false => exact hk.mono (fun _ hx => s.mem_after hx) (List.Subset.refl K)

theorem block_matches {ss : List Statement} (hs : Statement.settledAll every D K ss = true)
    (hm : m.Ready D K) :
    Matches m (block run (.list (Statement.trees ss))) (block run' (.list (Statement.trees ss)))
      fun b n => n.Ready (if b then Statement.afterAll D ss else D) K :=
  matches_bind_of_ok rfl (inOrder_matches hrun hs hm)

/-- What is bound before a block is bound after it, whether there was a `break` or not. -/
theorem block_keeps {ss : List Statement} (hs : Statement.settledAll every D K ss = true)
    (hm : m.Ready D K) :
    Matches m (block run (.list (Statement.trees ss))) (block run' (.list (Statement.trees ss)))
      fun _ n => n.Ready D K := by
  refine (block_matches hrun hs hm).imp fun b n hn => ?_
  cases b with
  | true => exact hn.mono (fun _ hx => Statement.mem_afterAll ss hx) (List.Subset.refl K)
  | false => exact hn

theorem branch_matches {condition : Expression} {yes no : List Statement} {elifs : List Elif}
    (hs : (Statement.branch condition yes elifs no).settled every D K = true) (hm : m.Ready D K) :
    Matches m (branch strictly run (Statement.branch condition yes elifs no).tree)
      (branch unwatched run' (Statement.branch condition yes elifs no).tree) fun b n =>
        n.Ready (if b then (Statement.branch condition yes elifs no).after D else D) K := by
  rw [Statement.settled, Bool.and_eq_true, Bool.and_eq_true, Bool.and_eq_true] at hs
  obtain ⟨⟨⟨hcondition, hyes⟩, helifs⟩, hno⟩ := hs
  have hafter {x : String} (hx : x ∈ (Statement.branch condition yes elifs no).after D) :
      x ∈ Statement.afterAll D yes ∧ x ∈ Statement.afterAll D no ∧
        Elif.allBind D x elifs = true := by
    rw [Statement.after, List.mem_filter, Bool.and_eq_true, List.contains_iff_mem] at hx
    exact hx
  refine matches_bind_of_ok rfl ?_
  refine matches_bind (evaluate_matches hm hcondition) fun v n hn => ?_
  refine matches_bind_of_ok (isTruthy_apply v n) (matches_ite (fun _ => ?_) fun _ => ?_)
  · refine (block_matches hrun hyes hn).imp fun b k hk => ?_
    -- a `break` may come before the block has bound its names
    cases b with
    | true => exact hk.mono (fun _ hx => (hafter hx).1) (List.Subset.refl K)
    | false => exact hk
  · refine matches_bind_of_ok rfl ?_
    refine matches_bind (chooseElif_matches hno helifs hn) ?_
    rintro _ k ⟨hk, ss, rfl, hss, hbind⟩
    refine (block_matches hrun hss hk).imp fun b j hj => ?_
    cases b with
    | true =>
      refine hj.mono (fun x hx => ?_) (List.Subset.refl K)
      exact hbind x (hafter hx).2.1 (hafter hx).2.2
    | false => exact hj

/-! ## Loops -/

section

variable {body : List Statement}

/-- Each pass starts from what was bound before the loop. -/
theorem plainLoop_matches {condition : Tree} (n : Nat)
    (hcondition : within every D condition.reads = true)
    (hs : Statement.settledAll every D K body = true) (hm : m.Ready D K) :
    Matches m (plainLoop strictly run n condition (.list (Statement.trees body)))
      (plainLoop unwatched run' n condition (.list (Statement.trees body)))
      fun _ n => n.Ready D K := by
  refine matches_iterate (fun m _ hm => ?_) n () hm
  refine matches_bind (evaluate_matches hm hcondition) fun v k hk => ?_
  refine matches_bind_of_ok (isTruthy_apply v k) (matches_ite (fun _ => ?_) fun _ => ?_)
  · refine matches_bind (block_keeps hrun hs hk) fun b j hj => ?_
    exact matches_pure hj
  · exact matches_pure hk

/-- In the block the counter is bound to what reads no names, so that it can be stepped after it. -/
theorem countingLoop_matches {counter stop : Tree} {counters : List String} (n : Nat)
    (hcounters : ∀ x, x ∈ counters ↔ counter = .text x)
    (hcounter : within every D counter.reads = true) (hstop : stop.whole?.isSome = true)
    (hs : Statement.settledAll every D (counters ++ K) body = true) (hm : m.Ready D K) :
    Matches m (countingLoop strictly run n counter stop (.list (Statement.trees body)))
      (countingLoop unwatched run' n counter stop (.list (Statement.trees body)))
      fun _ n => n.Ready D K := by
  obtain ⟨hreads, hnumber⟩ := evaluate_whole hstop
  have hwithin : within every D stop.reads = true := by
    rw [hreads]
    rfl
  have hlast := evaluate_matches hm hwithin
  refine matches_bind (P := fun last k => k.Ready D K ∧ last.isNumber = true)
    ⟨hlast.same, fun h => ⟨hlast.ok h, hnumber h⟩⟩ ?_
  rintro last k ⟨hk, hlast⟩
  refine matches_iterate (fun m _ hm => ?_) n () hk
  have hvalue := evaluate_matches hm hcounter
  refine matches_bind (P := fun v k => evaluate counter m = .ok v k)
    ⟨hvalue.same, fun h => h⟩ fun v k hv => ?_
  refine matches_bind (P := fun _ j => j.Ready D (counters ++ K))
    (matches_refl fun h => test_ready hm (fun x hx => (hcounters x).1 hx) hv h hlast)
    fun b j hj => ?_
  -- within a pass the counter is one of the counters around, and after it that is forgotten
  have hback {l : Machine} (hl : l.Ready D (counters ++ K)) : l.Ready D K :=
    hl.mono (List.Subset.refl D) (List.subset_append_right counters K)
  refine matches_ite (fun _ => ?_) fun _ => matches_pure (hback hj)
  refine matches_bind (block_keeps hrun hs hj) fun b l hl => ?_
  refine matches_ite (fun _ => ?_) fun _ => matches_pure (hback hl)
  have hdriven : ∀ x, counter = .text x → x ∈ counters ++ K :=
    fun x hx => List.mem_append_left K ((hcounters x).2 hx)
  refine matches_bind (increment_matches hl hdriven) fun _ i hi => ?_
  exact matches_pure (hback hi)

theorem whileLoop_matches {condition : Expression} (n : Nat)
    (hs : (Statement.whileLoop condition body).settled every D K = true) (hm : m.Ready D K) :
    Matches m (whileLoop strictly run n (Statement.whileLoop condition body).tree)
      (whileLoop unwatched run' n (Statement.whileLoop condition body).tree)
      fun _ n => n.Ready D K := by
  rw [Statement.settled, Bool.and_eq_true] at hs
  obtain ⟨hcondition, hbody⟩ := hs
  change Matches m (whileLoop strictly run n (.whileLoop condition.tree (Statement.trees body)))
    (whileLoop unwatched run' n (.whileLoop condition.tree (Statement.trees body))) _
  generalize condition.tree = t at hcondition hbody
  refine matches_bind_of_ok rfl ?_
  dsimp only
  split
  · next counter op stop =>
    have hreads := Name.within_append.1 hcondition
    refine matches_ite (fun hcounts => ?_) fun hplain => ?_
    · have hstop := (Bool.and_eq_true_iff.1 hcounts).2
      exact countingLoop_matches hrun n (fun x => Tree.mem_counters hcounts) hreads.1 hstop hbody hm
    · rw [Tree.counters_of_not hplain] at hbody
      exact plainLoop_matches hrun n hcondition hbody hm
  · next hother =>
    rw [Tree.counters_of_ne hother] at hbody
    exact plainLoop_matches hrun n hcondition hbody hm

/-- The variable of a loop is bound in its block. -/
theorem forPass_matches {x : String} (v : Value) (hx : x ∉ K)
    (hs : Statement.settledAll every (x :: D) K body = true) (hm : m.Ready D K) :
    Matches m (forPass strictly run (.text x) (.list (Statement.trees body)) v)
      (forPass unwatched run' (.text x) (.list (Statement.trees body)) v)
      fun _ n => n.Ready D K := by
  refine matches_bind_of_ok rfl ?_
  refine matches_bind (bind_matches hm fun hx' => absurd hx' hx) fun _ k hk => ?_
  refine (block_keeps hrun hs hk).imp fun _ j hj => ?_
  exact hj.mono (List.subset_cons_self x D) (List.Subset.refl K)

/-- The variable of the loop is bound in its block, and no more is known of it after the loop. -/
theorem eachLoop_matches {x : String} (vs : List Value) (hx : x ∉ K)
    (hs : Statement.settledAll every (x :: D) K body = true) (hm : m.Ready D K) :
    Matches m (eachLoop strictly run (.text x) (.list (Statement.trees body)) vs)
      (eachLoop unwatched run' (.text x) (.list (Statement.trees body)) vs)
      fun _ n => n.Ready D K := by
  induction vs generalizing m with
  | nil => exact matches_pure hm
  | cons v rest ih =>
    refine matches_bind (forPass_matches hrun v hx hs hm) fun b k hk => ?_
    exact matches_ite (fun _ => ih hk) fun _ => matches_pure hk

theorem laterLoop_matches {x : String} (n id : Nat) (hx : x ∉ K)
    (hs : Statement.settledAll every (x :: D) K body = true) (hm : m.Ready D K) :
    Matches m (laterLoop strictly run n (.text x) (.list (Statement.trees body)) id)
      (laterLoop unwatched run' n (.text x) (.list (Statement.trees body)) id)
      fun _ n => n.Ready D K := by
  refine matches_iterate (fun m k hm => ?_) n 0 hm
  refine matches_bind_of_ok (get_apply m) ?_
  cases (m.lists.addedTo id)[k]? with
  | none => exact matches_pure hm
  | some v =>
    refine matches_bind (forPass_matches hrun v hx hs hm) fun b j hj => ?_
    exact matches_pure hj

theorem itemLoop_matches {x : String} (n : Nat) (source : Tree) (v : Value) (hx : x ∉ K)
    (hs : Statement.settledAll every (x :: D) K body = true) (hm : m.Ready D K) :
    Matches m (itemLoop strictly run n (.text x) source (.list (Statement.trees body)) v)
      (itemLoop unwatched run' n (.text x) source (.list (Statement.trees body)) v)
      fun _ n => n.Ready D K := by
  cases v with
  | list id items =>
    refine matches_bind (eachLoop_matches hrun items hx hs hm) fun b k hk => ?_
    exact matches_ite (fun _ => laterLoop_matches hrun n id hx hs hk) fun _ => matches_pure hk
  | text t =>
    refine matches_bind (eachLoop_matches hrun _ hx hs hm) fun b k hk => ?_
    exact matches_pure hk
  | _ => exact matches_throw

theorem rangeLoop_matches {x : String} {range tag start stop step : Tree} (n : Nat)
    (hrange : range.unpack4 = .ok (tag, start, stop, step))
    (hstart : within every D start.reads = true) (hstop : within every D stop.reads = true)
    (hstep : within every D step.reads = true) (hx : x ∉ K)
    (hs : Statement.settledAll every (x :: D) K body = true) (hm : m.Ready D K) :
    Matches m (rangeLoop strictly run n (.text x) range (.list (Statement.trees body)))
      (rangeLoop unwatched run' n (.text x) range (.list (Statement.trees body)))
      fun _ n => n.Ready D K := by
  rw [rangeLoop, rangeLoop, hrange]
  refine matches_bind_of_ok rfl ?_
  refine matches_bind (evaluate_matches hm hstart) fun first k hk => ?_
  refine matches_bind (evaluate_matches hk hstop) fun last k hk => ?_
  refine matches_bind (strideOf_matches hk hstep) fun stride k hk => ?_
  refine matches_iterate (fun m v hm => ?_) n first hk
  refine matches_bind (matches_looking (isLess_looks v last) hm) fun b k hk => ?_
  refine matches_ite (fun _ => ?_) fun _ => matches_pure hk
  refine matches_bind (forPass_matches hrun v hx hs hk) fun b k hk => ?_
  refine matches_ite (fun _ => ?_) fun _ => matches_pure hk
  refine matches_bind (advance_matches v stride hk) fun w k hk => ?_
  exact matches_pure hk

theorem forLoop_matches {x : String} {source : Source} (n : Nat)
    (hs : (Statement.forLoop x source body).settled every D K = true) (hm : m.Ready D K) :
    Matches m (forLoop strictly run n (Statement.forLoop x source body).tree)
      (forLoop unwatched run' n (Statement.forLoop x source body).tree)
      fun _ n => n.Ready D K := by
  rw [Statement.settled, ite_self, Bool.and_eq_true, Bool.and_eq_true] at hs
  obtain ⟨⟨hsource, hcounter⟩, hbody⟩ := hs
  have hx : x ∉ K := by simpa using hcounter
  change Matches m
    (forLoop strictly run n (.forLoop (.text x) source.tree (Statement.trees body)))
    (forLoop unwatched run' n (.forLoop (.text x) source.tree (Statement.trees body))) _
  generalize source.tree = t at hsource
  refine matches_bind_of_ok rfl (matches_ofExcept_bind fun first hfirst => ?_)
  refine matches_ite (fun hrange => ?_) fun _ => ?_
  · cases hparts : t.unpack4 with
    | error e =>
      rw [rangeLoop, rangeLoop, hparts]
      exact matches_throw
    | ok parts =>
      obtain ⟨tag, start, stop, step⟩ := parts
      obtain ⟨hstart, hstop, hstep⟩ := Tree.within_parts hparts hfirst hrange hsource
      exact rangeLoop_matches hrun n hparts hstart hstop hstep hx hbody hm
  · split
    · next es =>
      have heach : ∀ e ∈ es, within every D e.reads = true := fun e he =>
        Tree.within_item he hsource
      refine matches_bind (matches_mapM hm fun e he m hm => evaluate_matches hm (heach e he))
        fun vs k hk => ?_
      refine matches_bind (eachLoop_matches hrun vs hx hbody hk) fun b j hj => ?_
      exact matches_pure hj
    · refine matches_bind (evaluate_matches hm (Tree.within_reads hsource)) fun v k hk => ?_
      exact itemLoop_matches hrun n _ v hx hbody hk

end

/-! ## Statements -/

/-- One statement, if the statements inside of it go alike. -/
theorem statement_matches (s : Statement) (n : Nat) (hs : s.settled every D K = true)
    (hm : m.Ready D K) :
    Matches m (statementStrictly run n s.tree) (statement unwatched run' n s.tree)
      fun b n => n.Ready (if b then s.after D else D) K := by
  have hback {j : Machine} {b : Bool} (hj : j.Ready D K) : j.Ready (if b then D else D) K := by
    rwa [ite_self]
  cases s with
  | assign x e => exact alone_matches n hs hm
  | compound op x e => exact alone_matches n hs hm
  | reverse x => exact alone_matches n hs hm
  | literals items => exact alone_matches n hs hm
  | revtrace x position =>
    have hrevtrace : (Statement.revtrace x position).tree.unpack3 =
        .ok (.text "revtrace", .text x, position.tree) := rfl
    exact simply_matches (revtrace_matches hm hrevtrace hs)
  | branch condition yes elifs no => exact branch_matches hrun hs hm
  | forLoop x source body =>
    exact (forLoop_matches hrun n hs hm).imp fun _ _ hj => hback hj
  | whileLoop condition body =>
    exact (whileLoop_matches hrun n hs hm).imp fun _ _ hj => hback hj
  | print first rest =>
    have hprint : (Statement.print first rest).tree.unpack2 =
        .ok (.text "print", .list (Expression.trees (first :: rest))) := rfl
    refine simply_matches (print_matches hm hprint fun e he => ?_)
    obtain ⟨e', he', rfl⟩ := List.mem_map.1 he
    exact List.all_eq_true.1 hs e' he'
  | breakLoop => exact matches_pure hm

end Blocks

/-- A settled statement goes strictly as it goes, at any depth. -/
theorem runsAlike_perform : ∀ n, RunsAlike (performStrictly n) (perform unwatched n)
  | 0 => fun _ _ _ _ _ _ => matches_throw
  | n + 1 => fun s _ _ _ hs hm => statement_matches (runsAlike_perform n) s n hs hm

theorem carryOut_matches {s : Statement} (n : Nat) (hs : s.settled every D K = true)
    (hm : m.Ready D K) :
    Matches m (carryOutStrictly n s.tree) (carryOutWatched unwatched n s.tree)
      fun _ k => k.Ready (s.after D) K := by
  refine matches_bind (runsAlike_perform n s hs hm) fun b k hk => ?_
  cases b with
  | true => exact matches_pure hk
  | false => exact matches_throw

end Exec

/-! ## Runs -/

namespace Run

variable {m : Machine}

theorem topLevel_matches {s : Statement} {D K : List String} (n : Nat)
    (hs : s.settled every D K = true) (hm : m.Ready D K) :
    Exec.Matches m (topLevelStrictly n s.tree) (topLevel Exec.unwatched n s.tree)
      fun _ k => k.Ready (s.after D) K := by
  refine Exec.matches_bind (Exec.carryOut_matches n hs hm) fun _ k hk => ?_
  refine Exec.matches_refl fun h => ?_
  obtain ⟨k', hprune, hstore, -⟩ := Exec.prune_ok k
  cases hprune.symm.trans h
  exact hk.congr hstore.bindings hstore.heap

/-- A program, statement by statement. -/
theorem statementsStrictly_eq {ss : List Statement} {D K : List String} (n : Nat)
    (hs : Statement.settledAll every D K ss = true) (hm : m.Ready D K) :
    statementsBy (topLevelStrictly n) (Statement.trees ss) m =
      statements n (Statement.trees ss) m := by
  induction ss generalizing m D with
  | nil => rfl
  | cons s rest ih =>
    rw [Statement.settledAll, Bool.and_eq_true] at hs
    have hhead := topLevel_matches n hs.1 hm
    rw [Statement.trees, statementsBy, statements, statementsWatched, hhead.same]
    cases htop : topLevel Exec.unwatched n s.tree m with
    | error e m' => rfl
    | ok u m' =>
      have hrest := ih hs.2 (hhead.ok htop)
      rw [statements] at hrest
      simp only [hrest]

/-- Before a program is carried out, nothing is bound. -/
theorem profile_same {program : List Tree} {m' : Machine}
    (h : (do Exec.put .machine title; profile program : Exec Unit) m = .ok () m') :
    m'.bindings = m.bindings ∧ m'.heap = m.heap := by
  rw [Exec.bind_of_ok (Exec.put_apply ..), profile, Exec.bind_of_ok (Exec.get_apply _)] at h
  cases hp : Profile.program program m.profile with
  | ok _ p =>
    simp only [hp] at h
    cases h
    exact ⟨rfl, rfl⟩
  | error e p =>
    simp only [hp] at h
    cases h

/-- A whole run, from a new machine where nothing is bound. -/
theorem executeStrictly_eq {program : List Statement} (n : Nat)
    (hs : Statement.settledAll every [] [] program = true) (clock : Clock) (eager : List String) :
    executeStrictly n (Statement.trees program) (Machine.withEager clock eager) =
      execute n (Statement.trees program) (Machine.withEager clock eager) := by
  rw [executeStrictly, executeBy, execute]
  cases hprofile : (do Exec.put .machine title; profile (Statement.trees program) : Exec Unit)
      (Machine.withEager clock eager) with
  | error e m => rfl
  | ok u m =>
    obtain ⟨hbindings, hheap⟩ := profile_same hprofile
    have hm : m.Ready [] [] := (Machine.ready_withEager clock eager).congr hbindings hheap
    simp only [statementsStrictly_eq n hs hm]

/-! ### No run stops at a name -/

/-- No run stops at an unbound name by itself. -/
theorem execute_ne_unbound {n : Nat} {program : List Tree} {t : Tree} :
    (execute n program m).fault? ≠ some (.unbound t) := by
  intro h
  rcases execute_stops h with hbreak | hrun
  · cases hbreak
  · cases hrun

end Run

/-! ## The result -/

/-- While a program runs that the checker accepts, no evaluation looks up a name that is not bound
at that moment, be it for a statement or for a thunk: the program may be run strictly, and will not
stop because of a name.  It must be settled, but where the checker looks this is asked only of names
that are assigned in blocks; for all others it follows, whatever names are eager and however many
passes loops have. -/
theorem accepted_reads_bound (program : List Statement) (n : Nat) (clock : Clock)
    (eager : List String) (haccepted : Run.check (Statement.trees program) = .ok ())
    (hsettled : Statement.settledAll (isOneOf (Statement.assignedInBlocks program)) [] [] program =
      true) :
    Run.executeStrictly n (Statement.trees program) (Machine.withEager clock eager) =
        Run.execute n (Statement.trees program) (Machine.withEager clock eager) ∧
      ∀ t, (Run.executeStrictly n (Statement.trees program)
        (Machine.withEager clock eager)).fault? ≠ some (.unbound t) := by
  have hrun : ∃ names, Check.run (Statement.trees program) = .ok () names := by
    rw [Run.check] at haccepted
    split at haccepted
    · next names h => exact ⟨names, h⟩
    · cases haccepted
  obtain ⟨names, hrun⟩ := hrun
  have hevery := Check.settled_of_accepted hrun hsettled
  have heq := Run.executeStrictly_eq n hevery clock eager
  refine ⟨heq, fun t => ?_⟩
  rw [heq]
  exact Run.execute_ne_unbound

/-- A loop that counts and assigns to its counter, and a loop whose block assigns to a name in both
branches before it reads it. -/
def boundInBlocks : List Statement :=
  [.assign "x" (.literal (.int 0)),
   .assign "total" (.literal (.int 0)),
   .whileLoop (.binary (.literal (.name "x")) (.known .lt) (.literal (.int 3)))
    [.assign "x" (.binary (.literal (.name "x")) (.known .plus) (.literal (.int 1))),
     .compound .plus "total" (.literal (.name "x"))],
   .forLoop "i" (.between (.literal (.int 0)) (.literal (.name "x")))
    [.branch (.binary (.literal (.name "i")) (.known .eq) (.literal (.int 1)))
      [.assign "z" (.literal (.name "i"))] [] [.assign "z" (.literal (.name "total"))],
     .compound .plus "total" (.literal (.name "z"))],
   .branch (.literal (.name "total")) [.print (.literal (.string "\"done\"")) []] [] []]

theorem accepted_reads_bound_blocks :
    Run.check (Statement.trees boundInBlocks) = .ok () ∧
    Statement.settledAll (isOneOf (Statement.assignedInBlocks boundInBlocks)) [] [] boundInBlocks =
      true ∧
    (Run.executeStrictly 10 (Statement.trees boundInBlocks) (Machine.withEager {} [])).fault? =
      none := by
  have haccepted : Run.check (Statement.trees boundInBlocks) = .ok () := by cbv
  have hsettled : Statement.settledAll (isOneOf (Statement.assignedInBlocks boundInBlocks)) [] []
      boundInBlocks = true := by cbv
  refine ⟨haccepted, hsettled, ?_⟩
  rw [(accepted_reads_bound boundInBlocks 10 {} [] haccepted hsettled).1]
  exact (Run.execute_of_profile (by cbv)).trans (by cbv)

/-- A name that is read in an assignment only. -/
def copied : List Statement :=
  [.assign "y" (.literal (.name "x")), .print (.literal (.name "y")) []]

/-- A name that is assigned in a block that is not carried out. -/
def skipped : List Statement :=
  [.branch (.literal (.int 0)) [.assign "x" (.literal (.int 1))] [] [],
   .print (.literal (.name "x")) []]

/-- A counter that is bound to a letter. -/
def spelled : List Statement :=
  [.assign "x" (.literal (.int 0)),
   .assign "k" (.literal (.int 0)),
   .assign "t" (.literal (.string "\"ab\"")),
   .whileLoop (.binary (.literal (.name "x")) (.known .lt) (.literal (.int 5)))
    [.forLoop "x" (.items (.literal (.name "t")))
      [.compound .plus "k" (.literal (.int 1)),
       .branch (.binary (.literal (.name "k")) (.known .eq) (.literal (.int 2)))
        [.breakLoop] [] []]]]

/-- The checker accepts programs that read names that are not bound.  It does not look at what is
assigned, it takes what is assigned in a block for declared, and it does not know that a counter is
taken for an expression. -/
theorem accepted_reads_unbound :
    Run.check (Statement.trees copied) = .ok () ∧
    (Run.execute 3 (Statement.trees copied) (Machine.withEager {} [])).fault? = none ∧
    (Run.executeStrictly 3 (Statement.trees copied) (Machine.withEager {} [])).fault? =
      some (.unbound (.text "x")) ∧
    Run.check (Statement.trees skipped) = .ok () ∧
    (Run.executeStrictly 3 (Statement.trees skipped) (Machine.withEager {} [])).fault? =
      some (.unbound (.text "x")) ∧
    Run.check (Statement.trees spelled) = .ok () ∧
    (Run.executeStrictly 10 (Statement.trees spelled) (Machine.withEager {} [])).fault? =
      some (.unbound (.text "a")) := by
  refine ⟨by cbv, ?_, ?_, by cbv, ?_, by cbv, ?_⟩
  · exact (Run.execute_of_profile (by cbv)).trans (by cbv)
  · exact (Run.executeBy_of_profile (by cbv)).trans (by cbv)
  · exact (Run.executeBy_of_profile (by cbv)).trans (by cbv)
  · exact (Run.executeBy_of_profile (by cbv)).trans (by cbv)

end Retrace
