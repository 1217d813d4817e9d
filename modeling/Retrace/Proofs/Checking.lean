import Retrace.Proofs.Scope

/-!
# What the checker finds out

The checker accepts an expression if all names are declared that it would read, and what it has
declared at a place was assigned before it in the text: on the outermost level, where it is bound
then, or in a block.  So if a program is accepted, and names that are assigned in blocks are bound
where they are read, all names are bound where the checker looks.

The checker goes through a text once, and does not follow what a run does.  A name that was assigned
in a block is declared from there on, though the block may never be carried out.  It is this that
makes the condition on names of blocks necessary, and nothing else: for all other names the order of
the text is the order of the run.

That every name is bound where it is read is a condition on statements that is computed from the
text (`settled`), with a parameter for the names that are looked at.  What is assumed is the
condition for names that are assigned in blocks, and what follows is the condition for all names.
The two are carried along together, by induction on statements as the checker goes through them,
with three lists: the names that are bound here for certain, those that are assigned in some block,
and those that the checker has declared.  The invariant is that the declared names are among the
others (`Known`), so whenever the checker has accepted a name, it is bound for certain, or it is one
that the condition is assumed for.

A `for` loop takes its variable back at its end, if it was not declared before.  That makes fewer
names declared, and so it does no harm.

* `expression_declared`: the names of an expression that is accepted are declared.
* `Known`: all that is declared is among some names.
* `node_settled`: one statement, and `settled_of_accepted`: a program.
-/

set_option autoImplicit false

namespace Retrace
namespace Check

open Name (within every isOneOf)
open Phrase

variable {α β : Type} {names names' : Table Name Tree}

/-- A sequence of checks is passed if each of them is. -/
theorem bind_eq_ok {x : Checker α} {f : α → Checker β} {b : β} :
    (x >>= f) names = .ok b names' ↔ ∃ a mid, x names = .ok a mid ∧ f a mid = .ok b names' := by
  show EStateM.bind x f names = _ ↔ _
  unfold EStateM.bind
  cases x names with
  | ok a mid =>
    constructor
    · intro hf
      exact ⟨a, mid, rfl, hf⟩
    · rintro ⟨a', mid', hx, hf⟩
      cases hx
      exact hf
  | error e mid => simp

theorem ofExcept_eq_ok {r : Except Fault α} {a : α} :
    ofExcept r names = .ok a names' ↔ r = .ok a ∧ names' = names := by
  cases r with
  | ok b =>
    show EStateM.Result.ok b names = .ok a names' ↔ _
    simp [eq_comm]
  | error e =>
    show EStateM.Result.error e names = .ok a names' ↔ _
    simp

/-- A name is declared, and checking that changes nothing. -/
theorem mustBeDeclared_eq_ok {s : String} {u : Unit} :
    mustBeDeclared (.text s) names = .ok u names' ↔
      names.contains (.ofText s) = true ∧ names' = names := by
  show (if (!names.contains (.ofText s)) = true then object (.undeclared (.text s)) else pure ())
    names = _ ↔ _
  cases h : names.contains (.ofText s) with
  | true =>
    show EStateM.Result.ok () names = _ ↔ _
    simp [eq_comm]
  | false =>
    show EStateM.Result.error _ names = _ ↔ _
    simp

/-- A text that is looked up is declared. -/
theorem textExpression_declared {s : String} {u : Unit}
    (h : textExpression s names = .ok u names') :
    (∀ name ∈ (Tree.text s).reads, names.contains name = true) ∧ names' = names := by
  rw [textExpression] at h
  split at h
  · obtain ⟨hs, rfl⟩ := mustBeDeclared_eq_ok.1 h
    refine ⟨fun name hn => ?_, rfl⟩
    rw [Tree.eq_of_mem_reads_text hn]
    exact hs
  · next hs =>
    cases h
    refine ⟨fun name hn => ?_, rfl⟩
    have hliteral : Exec.isLiteral s = true := by
      simp only [Bool.and_eq_true, Bool.not_eq_true', not_and, Bool.not_eq_false, isLiteral] at hs
      grind [Exec.isLiteral]
    rw [Tree.reads, if_pos hliteral] at hn
    cases hn

mutual

/-- The names of an expression that the checker accepts are declared. -/
theorem expression_declared : ∀ (e : Tree) {u : Unit} {names names' : Table Name Tree},
    expression e names = .ok u names' →
    (∀ name ∈ e.reads, names.contains name = true) ∧ names' = names
  | .list es, _, _, _, h => expressions_declared es h
  | .tuple [first], _, _, _, h => by
    change (if first.isText "len" = true then throw _ else object _) _ = _ at h
    split at h
    · cases h
    · cases h
  | .tuple (first :: _ :: _ :: _ :: _), _, _, _, h => by
    change (if first.isText "len" = true then throw _ else object _) _ = _ at h
    split at h
    · cases h
    · cases h
  | .tuple [first, e], _, _, _, h => by
    rw [expression] at h
    rw [Tree.reads]
    split at h
    · next hlen =>
      rw [if_pos hlen]
      exact expression_declared e h
    · cases h
  | .tuple [left, op, right], _, _, _, h => by
    rw [expression] at h
    split at h
    · cases h
    · obtain ⟨_, mid, hl, hr⟩ := bind_eq_ok.1 h
      obtain ⟨hleft, rfl⟩ := expression_declared left hl
      obtain ⟨hright, rfl⟩ := expression_declared right hr
      refine ⟨fun name hn => ?_, rfl⟩
      rcases List.mem_append.1 hn with hn | hn
      · exact hleft name hn
      · exact hright name hn
  | .text s, _, _, _, h => textExpression_declared h
  | .int _, _, _, _, h => by
    cases h
    exact ⟨nofun, rfl⟩
  | .bool _, _, _, _, h => by
    cases h
    exact ⟨nofun, rfl⟩

theorem expressions_declared : ∀ (es : List Tree) {u : Unit} {names names' : Table Name Tree},
    expressions es names = .ok u names' →
    (∀ name ∈ Tree.readsOf es, names.contains name = true) ∧ names' = names
  | [], _, _, _, h => by
    cases h
    exact ⟨nofun, rfl⟩
  | e :: rest, _, _, _, h => by
    rw [expressions] at h
    obtain ⟨_, mid, he, hr⟩ := bind_eq_ok.1 h
    obtain ⟨hhead, rfl⟩ := expression_declared e he
    obtain ⟨htail, rfl⟩ := expressions_declared rest hr
    refine ⟨fun name hn => ?_, rfl⟩
    rcases List.mem_append.1 hn with hn | hn
    · exact hhead name hn
    · exact htail name hn

end

/-! ### Statements -/

/-- Folding an expression declares nothing. -/
theorem fold_eq_ok {e folded : Tree} (h : fold e names = .ok folded names') : names' = names :=
  (ofExcept_eq_ok.1 h).2

/-- The checker looks at what a `for` loop goes through, if that is a name. -/
theorem iterable_declared {t : Tree} {u : Unit} (h : iterable t names = .ok u names') :
    (∀ s, t = .text s → names.contains (.ofText s) = true) ∧ names' = names := by
  unfold iterable at h
  obtain ⟨first, mid, hhead, hbody⟩ := bind_eq_ok.1 h
  obtain ⟨hfirst, rfl⟩ := ofExcept_eq_ok.1 hhead
  split at hbody
  · next hrange =>
    obtain ⟨⟨_, start, stop, step⟩, mid₁, hunpack, hfolds⟩ := bind_eq_ok.1 hbody
    obtain ⟨-, rfl⟩ := ofExcept_eq_ok.1 hunpack
    obtain ⟨_, mid₂, hstart, hfolds⟩ := bind_eq_ok.1 hfolds
    obtain ⟨_, mid₃, hstop, hfolds⟩ := bind_eq_ok.1 hfolds
    constructor
    · rintro s rfl
      -- the head of a name is a single character, so it is not `range`
      rw [Tree.isText_of_head_text hfirst (by decide)] at hrange
      cases hrange
    · rw [← fold_eq_ok hstart, ← fold_eq_ok hstop]
      split at hfolds
      · obtain ⟨_, mid₄, hstep, hend⟩ := bind_eq_ok.1 hfolds
        cases hend
        exact fold_eq_ok hstep
      · cases hfolds
        rfl
  · split at hbody
    · next xs =>
      generalize List.find? _ xs = found at hbody
      cases found with
      | some x => cases hbody
      | none =>
        cases hbody
        exact ⟨nofun, rfl⟩
    · obtain ⟨_, mid, hfold, hlast⟩ := bind_eq_ok.1 hbody
      obtain rfl := fold_eq_ok hfold
      split at hlast
      · obtain ⟨hs, rfl⟩ := mustBeDeclared_eq_ok.1 hlast
        refine ⟨?_, rfl⟩
        rintro _ ⟨⟩
        exact hs
      · next hother =>
        cases hlast
        exact ⟨fun s hs => absurd hs (hother s), rfl⟩

variable {sequenceName : String} {x : String} {e : Tree} {u : Unit}

/-- An assignment declares its target. -/
theorem form_assign (h : form sequenceName [.text "assign", .text x, e] names = .ok u names') :
    ∃ folded, names' = names.insert (.ofText x) folded := by
  have htag : Form.ofTree? (.text "assign") = some .assign := Form.ofTree?_tag .assign
  rw [form, htag] at h
  obtain ⟨folded, mid, hfold, hdeclare⟩ := bind_eq_ok.1 h
  rw [fold_eq_ok hfold] at hdeclare
  cases hdeclare
  exact ⟨folded, rfl⟩

theorem form_compound (op : Compound)
    (h : form sequenceName [.text op.tag, .text x, e] names = .ok u names') : names' = names := by
  have htag : Form.ofTree? (.text op.tag) = some (.compound op) := Form.ofTree?_tag (.compound op)
  rw [form, htag] at h
  obtain ⟨_, mid, hdeclared, hbody⟩ := bind_eq_ok.1 h
  obtain ⟨-, rfl⟩ := mustBeDeclared_eq_ok.1 hdeclared
  obtain ⟨_, mid, hfold, hend⟩ := bind_eq_ok.1 hbody
  cases hend
  exact fold_eq_ok hfold

theorem form_reverse (h : form sequenceName [.text "reverse", .text x] names = .ok u names') :
    names' = names := by
  have htag : Form.ofTree? (.text "reverse") = some .reverse := Form.ofTree?_tag .reverse
  rw [form, htag] at h
  exact (mustBeDeclared_eq_ok.1 h).2

theorem node_revtrace (h : node (.revtrace (.text x) e) names = .ok u names') :
    names' = names := by
  change form "tuple" [.text "revtrace", .text x, e] names = _ at h
  have htag : Form.ofTree? (.text "revtrace") = some .revtrace := Form.ofTree?_tag .revtrace
  rw [form, htag] at h
  exact (mustBeDeclared_eq_ok.1 h).2

theorem node_branch {yes elifs no : List Tree}
    (h : node (.branch e yes elifs no) names = .ok u names') :
    (∀ name ∈ e.reads, names.contains name = true) ∧ ∃ mid mid',
      statements yes names = .ok () mid ∧ elifBranchItems elifs mid = .ok () mid' ∧
        statements no mid' = .ok () names' := by
  change form "tuple" [.text "if", e, .list yes, .list elifs, .list no] names = _ at h
  have htag : Form.ofTree? (.text "if") = some .branch := Form.ofTree?_tag .branch
  rw [form, htag] at h
  obtain ⟨_, mid, hcondition, hblocks⟩ := bind_eq_ok.1 h
  obtain ⟨hreads, rfl⟩ := expression_declared e hcondition
  obtain ⟨_, mid₁, hyes, hblocks⟩ := bind_eq_ok.1 hblocks
  obtain ⟨_, mid₂, helifs, hno⟩ := bind_eq_ok.1 hblocks
  exact ⟨hreads, mid₁, mid₂, hyes, helifs, hno⟩

/-- The variable of a loop is forgotten after it, unless it was declared before. -/
theorem node_forLoop {body : List Tree}
    (h : node (.forLoop (.text x) e body) names = .ok u names') :
    (∀ s, e = .text s → names.contains (.ofText s) = true) ∧ ∃ mid,
      statements body (names.insert (.ofText x) .none) = .ok () mid ∧
        names' = if names.contains (.ofText x) then mid else mid.erase (.ofText x) := by
  change form "tuple" [.text "for", .text x, e, .list body] names = _ at h
  have htag : Form.ofTree? (.text "for") = some .forLoop := Form.ofTree?_tag .forLoop
  rw [form, htag] at h
  obtain ⟨_, mid, hsource, hloop⟩ := bind_eq_ok.1 h
  obtain ⟨hdeclared, rfl⟩ := iterable_declared hsource
  change (statements body >>= fun _ =>
    if (!mid.contains (.ofText x)) = true then modify fun names => names.erase (.ofText x)
    else pure ()) (mid.insert (.ofText x) .none) = .ok u names' at hloop
  obtain ⟨_, mid₁, hbody, hend⟩ := bind_eq_ok.1 hloop
  refine ⟨hdeclared, mid₁, hbody, ?_⟩
  cases hknown : mid.contains (.ofText x) with
  | true =>
    rw [hknown] at hend
    cases hend
    rfl
  | false =>
    rw [hknown] at hend
    cases hend
    rfl

theorem node_whileLoop {body : List Tree}
    (h : node (.whileLoop e body) names = .ok u names') :
    (∀ name ∈ e.reads, names.contains name = true) ∧ statements body names = .ok () names' := by
  change form "tuple" [.text "while", e, .list body] names = _ at h
  have htag : Form.ofTree? (.text "while") = some .whileLoop := Form.ofTree?_tag .whileLoop
  rw [form, htag] at h
  obtain ⟨_, mid, hcondition, hbody⟩ := bind_eq_ok.1 h
  obtain ⟨hreads, rfl⟩ := expression_declared e hcondition
  exact ⟨hreads, hbody⟩

theorem node_print {values : List Tree}
    (h : node (.print values) names = .ok u names') :
    (∀ name ∈ Tree.readsOf values, names.contains name = true) ∧ names' = names := by
  change form "tuple" [.text "print", .list values] names = _ at h
  have htag : Form.ofTree? (.text "print") = some .print := Form.ofTree?_tag .print
  rw [form, htag] at h
  exact expressions_declared values h

theorem node_breakLoop (h : node .breakLoop names = .ok u names') :
    names' = names := by
  change form "tuple" [.text "break"] names = _ at h
  have htag : Form.ofTree? (.text "break") = some .breakLoop := Form.ofTree?_tag .breakLoop
  rw [form.eq_def] at h
  simp only [htag] at h
  cases h
  rfl

/-- All names that are declared are among those that the texts give. -/
def Known (xs : List String) (names : Table Name Tree) : Prop :=
  ∀ name, names.contains name = true → isOneOf xs name = true

variable {xs : List String}

/-- One name more is declared. -/
theorem Known.insert (h : Known xs names) (value : Tree) :
    Known (x :: xs) (names.insert (.ofText x) value) := by
  intro name hn
  rw [Table.contains, Table.get?_insert] at hn
  rw [Name.isOneOf_cons, Bool.or_eq_true]
  split at hn
  · next hx => exact .inl (BEq.symm hx)
  · exact .inr (h name hn)

/-- A name that is known anyway need not be listed. -/
theorem Known.of_cons (h : Known (x :: xs) names) (hx : isOneOf xs (.ofText x) = true) :
    Known xs names := by
  intro name hn
  have hname := h name hn
  rw [Name.isOneOf_cons, Bool.or_eq_true] at hname
  rcases hname with hname | hname
  · rw [Name.isOneOf_congr hname]
    exact hx
  · exact hname

theorem Known.erase (h : Known (x :: xs) names) : Known xs (names.erase (.ofText x)) := by
  intro name hn
  rw [Table.contains, Table.get?_erase] at hn
  split at hn
  · cases hn
  · next hx =>
    have hname := h name hn
    rw [Name.isOneOf_cons, Bool.or_eq_true] at hname
    rcases hname with hname | hname
    · exact absurd (BEq.symm hname) hx
    · exact hname

/-- Names that are declared but not assigned in blocks are bound. -/
theorem Known.within {bound blocks D : List String} {reads : List Name}
    (h : Known (bound ++ blocks) names) (hbound : bound ⊆ D)
    (hreads : ∀ name ∈ reads, names.contains name = true)
    (hs : within (isOneOf blocks) D reads = true) : within every D reads = true := by
  refine Name.within_every_of hs fun name hn hblocks => ?_
  have hname := h name (hreads name hn)
  rw [Name.isOneOf_append, hblocks, Bool.or_false] at hname
  exact Name.isOneOf_mono hname hbound

/-- What the checker does about a statement that changes a variable. -/
theorem node_alone {s : Statement} {D K : List String} (hs : s.settledAlone D K = true)
    (hassigned : ∀ x, s.assigned? = some x → x ∈ xs) (hk : Known xs names)
    (h : node s.tree names = .ok u names') : Known xs names' := by
  have hform {items : List Tree} (hplain : s.plain.tree = .tuple items) :
      ∃ sequenceName, form sequenceName items names = .ok u names' := by
    rcases s.tree_plain with heq | ⟨items', hlist, htuple⟩
    · rw [← heq, hplain] at h
      exact ⟨"tuple", h⟩
    · rw [hplain] at htuple
      cases htuple
      rw [hlist] at h
      exact ⟨"list", h⟩
  rw [Statement.settledAlone] at hs
  rw [Statement.assigned?] at hassigned
  cases hp : s.plain with
  | assign x e =>
    obtain ⟨_, h⟩ := hform (by rw [hp]; rfl)
    obtain ⟨folded, rfl⟩ := form_assign h
    rw [hp] at hassigned
    exact (hk.insert folded).of_cons (Name.isOneOf_ofText (hassigned x rfl))
  | compound op x e =>
    obtain ⟨_, h⟩ := hform (by rw [hp]; rfl)
    rw [form_compound op h]
    exact hk
  | reverse x =>
    obtain ⟨_, h⟩ := hform (by rw [hp]; rfl)
    rw [form_reverse h]
    exact hk
  | _ =>
    rw [hp] at hs
    cases hs

mutual

/-- What the checker accepts is settled if it is settled but for the names that are not assigned in
blocks. -/
theorem node_settled {blocks : List String} : ∀ (s : Statement) {bound D K : List String}
    {names names' : Table Name Tree} {u : Unit}, s.assigns ⊆ blocks → bound ⊆ D →
    Known (bound ++ blocks) names → node s.tree names = .ok u names' →
    s.settled (isOneOf blocks) D K = true →
    s.settled every D K = true ∧ Known (bound ++ blocks) names'
  | .assign x e, _, D, K, _, _, _, hassigns, _, hk, h, hs => by
    have halone : (Statement.assign x e).settledAlone D K = true := hs
    refine ⟨hs, node_alone halone (fun y hy => List.mem_append_right _ (hassigns ?_)) hk h⟩
    cases hy
    exact List.mem_singleton_self _
  | .compound op x e, _, D, K, _, _, _, _, _, hk, h, hs => by
    have halone : (Statement.compound op x e).settledAlone D K = true := hs
    exact ⟨hs, node_alone halone (fun y hy => by cases hy) hk h⟩
  | .reverse x, _, D, K, _, _, _, _, _, hk, h, hs => by
    have halone : (Statement.reverse x).settledAlone D K = true := hs
    exact ⟨hs, node_alone halone (fun y hy => by cases hy) hk h⟩
  | .literals items, _, D, K, _, _, _, hassigns, _, hk, h, hs => by
    have halone : (Statement.literals items).settledAlone D K = true := hs
    refine ⟨hs, node_alone halone (fun y hy => List.mem_append_right _ (hassigns ?_)) hk h⟩
    change y ∈ (Statement.literals items).assigned?.toList
    rw [hy]
    exact List.mem_singleton_self _
  | .revtrace .., _, _, _, _, _, _, _, _, hk, h, hs => by
    obtain rfl := node_revtrace h
    exact ⟨hs, hk⟩
  | .branch condition yes elifs no, _, D, K, _, _, _, hassigns, hbound, hk, h, hs => by
    rw [Statement.assigns, List.append_subset, List.append_subset] at hassigns
    obtain ⟨⟨hayes, haelifs⟩, hano⟩ := hassigns
    rw [Statement.settled, Bool.and_eq_true, Bool.and_eq_true, Bool.and_eq_true] at hs ⊢
    obtain ⟨⟨⟨hcondition, hyes⟩, helifs⟩, hno⟩ := hs
    obtain ⟨hreads, _, _, hcyes, hcelifs, hcno⟩ := node_branch h
    obtain ⟨hsyes, hk₁⟩ := statements_settled yes hayes hbound hk hcyes hyes
    obtain ⟨hselifs, hk₂⟩ := elifs_settled elifs haelifs hbound hk₁ hcelifs helifs
    obtain ⟨hsno, hk₃⟩ := statements_settled no hano hbound hk₂ hcno hno
    exact ⟨⟨⟨⟨hk.within hbound hreads hcondition, hsyes⟩, hselifs⟩, hsno⟩, hk₃⟩
  | .forLoop x source body, bound, D, K, names, _, _, hassigns, hbound, hk, h, hs => by
    rw [Statement.settled, Bool.and_eq_true, Bool.and_eq_true] at hs ⊢
    obtain ⟨⟨hsource, hcounter⟩, hbody⟩ := hs
    obtain ⟨hdeclared, mid, hcbody, rfl⟩ := node_forLoop h
    have hinner : Known (x :: bound ++ blocks) (names.insert (.ofText x) .none) := hk.insert .none
    have hcons : x :: bound ⊆ x :: D := List.cons_subset_cons x hbound
    obtain ⟨hsbody, hmid⟩ := statements_settled body hassigns hcons hinner hcbody hbody
    refine ⟨⟨⟨?_, hcounter⟩, hsbody⟩, ?_⟩
    · rw [ite_self]
      split at hsource
      · next htext =>
        obtain ⟨s, hs⟩ := source.tree_of_isText htext
        rw [hs] at hsource ⊢
        change within _ D (Tree.text s).reads = true at hsource
        show within every D (Tree.text s).reads = true
        refine hk.within hbound (fun name hn => ?_) hsource
        rw [Tree.eq_of_mem_reads_text hn]
        exact hdeclared s hs
      · exact hsource
    · split
      · next hknown => exact Known.of_cons hmid (hk _ hknown)
      · exact Known.erase hmid
  | .whileLoop condition body, _, D, K, _, _, _, hassigns, hbound, hk, h, hs => by
    rw [Statement.settled, Bool.and_eq_true] at hs ⊢
    obtain ⟨hcondition, hbody⟩ := hs
    obtain ⟨hreads, hcbody⟩ := node_whileLoop h
    obtain ⟨hsbody, hend⟩ := statements_settled body hassigns hbound hk hcbody hbody
    exact ⟨⟨hk.within hbound hreads hcondition, hsbody⟩, hend⟩
  | .print first rest, _, _, _, _, _, _, _, hbound, hk, h, hs => by
    obtain ⟨hreads, rfl⟩ := node_print h
    refine ⟨?_, hk⟩
    rw [Statement.settled, List.all_eq_true] at hs ⊢
    intro e he
    refine hk.within hbound (fun name hn => hreads name ?_) (hs e he)
    exact Tree.mem_readsOf (List.mem_map_of_mem (f := Expression.tree) he) hn
  | .breakLoop, _, _, _, _, _, _, _, _, hk, h, hs => by
    obtain rfl := node_breakLoop h
    exact ⟨hs, hk⟩

/-- The statements of a block, each with what was declared before it. -/
theorem statements_settled {blocks : List String} : ∀ (ss : List Statement)
    {bound D K : List String} {names names' : Table Name Tree} {u : Unit},
    Statement.assignsAll ss ⊆ blocks → bound ⊆ D → Known (bound ++ blocks) names →
    statements (Statement.trees ss) names = .ok u names' →
    Statement.settledAll (isOneOf blocks) D K ss = true →
    Statement.settledAll every D K ss = true ∧ Known (bound ++ blocks) names'
  | [], _, _, _, _, _, _, _, _, hk, h, _ => by
    cases h
    exact ⟨rfl, hk⟩
  | s :: rest, bound, D, _, _, _, _, hassigns, hbound, hk, h, hs => by
    rw [Statement.assignsAll, List.append_subset] at hassigns
    rw [Statement.settledAll, Bool.and_eq_true] at hs
    rw [Statement.trees, statements] at h
    obtain ⟨_, mid, hhead, htail⟩ := bind_eq_ok.1 h
    obtain ⟨hsettled, hmid⟩ := node_settled s hassigns.1 hbound hk hhead hs.1
    have hafter : bound ⊆ s.after D := fun _ hx => s.mem_after (hbound hx)
    obtain ⟨hrest, hend⟩ := statements_settled rest hassigns.2 hafter hmid htail hs.2
    rw [Statement.settledAll, Bool.and_eq_true]
    exact ⟨⟨hsettled, hrest⟩, hend⟩

/-- Further branches, one after the other. -/
theorem elifs_settled {blocks : List String} : ∀ (xs : List Elif)
    {bound D K : List String} {names names' : Table Name Tree} {u : Unit},
    Elif.assignsAll xs ⊆ blocks → bound ⊆ D → Known (bound ++ blocks) names →
    elifBranchItems (Elif.trees xs) names = .ok u names' →
    Elif.settledAll (isOneOf blocks) D K xs = true →
    Elif.settledAll every D K xs = true ∧ Known (bound ++ blocks) names'
  | [], _, _, _, _, _, _, _, _, hk, h, _ => by
    cases h
    exact ⟨rfl, hk⟩
  | .mk condition body :: rest, _, D, K, _, _, _, hassigns, hbound, hk, h, hs => by
    rw [Elif.assignsAll, List.append_subset] at hassigns
    rw [Elif.settledAll, Bool.and_eq_true, Bool.and_eq_true] at hs ⊢
    obtain ⟨⟨hcondition, hbody⟩, hrest⟩ := hs
    rw [Elif.trees, elifBranchItems, Elif.tree, elifBranch] at h
    obtain ⟨_, mid, hone, hmore⟩ := bind_eq_ok.1 h
    obtain ⟨_, mid', hccondition, hcbody⟩ := bind_eq_ok.1 hone
    obtain ⟨hreads, rfl⟩ := expression_declared condition.tree hccondition
    obtain ⟨hsbody, hk₁⟩ := statements_settled body hassigns.1 hbound hk hcbody hbody
    obtain ⟨hsrest, hk₂⟩ := elifs_settled rest hassigns.2 hbound hk₁ hmore hrest
    exact ⟨⟨⟨hk.within hbound hreads hcondition, hsbody⟩, hsrest⟩, hk₂⟩

end

theorem known_empty : Known xs Table.empty := by
  intro name hn
  cases hn

theorem Known.mono {ys : List String} (h : Known xs names) (hxy : xs ⊆ ys) : Known ys names :=
  fun name hn => Name.isOneOf_mono (h name hn) hxy

/-- On the outermost level, what is assigned is bound. -/
theorem program_settled {blocks : List String} {ss : List Statement} {bound K : List String}
    (hblocks : Statement.assignedInBlocks ss ⊆ blocks) (hk : Known (bound ++ blocks) names)
    (h : statements (Statement.trees ss) names = .ok u names')
    (hs : Statement.settledAll (isOneOf blocks) bound K ss = true) :
    Statement.settledAll every bound K ss = true := by
  induction ss generalizing bound names with
  | nil => rfl
  | cons s rest ih =>
    rw [Statement.assignedInBlocks, List.flatMap_cons, List.append_subset] at hblocks
    rw [Statement.settledAll, Bool.and_eq_true] at hs ⊢
    rw [Statement.trees, statements] at h
    obtain ⟨_, mid, hhead, htail⟩ := bind_eq_ok.1 h
    -- An assignment binds its name for the rest; what any other statement assigns is in its blocks.
    cases hassigned : s.assigned? with
    | some x =>
      have halone := hs.1
      rw [Statement.settled_of_assigned hassigned] at halone
      have hafter := Statement.after_of_assigned hassigned bound
      have hmid : Known (s.after bound ++ blocks) mid := by
        rw [hafter]
        refine node_alone halone (fun y hy => ?_) (hk.mono (List.subset_cons_self ..)) hhead
        rw [hassigned] at hy
        cases hy
        exact List.mem_cons_self ..
      refine ⟨?_, ih hblocks.2 hmid htail hs.2⟩
      rw [Statement.settled_of_assigned hassigned]
      exact halone
    | none =>
      have hassigns : s.assigns ⊆ blocks := by
        have hhere := hblocks.1
        rwa [hassigned] at hhere
      obtain ⟨hsettled, hmid⟩ :=
        node_settled s hassigns (List.Subset.refl bound) hk hhead hs.1
      have hafter : bound ++ blocks ⊆ s.after bound ++ blocks :=
        List.append_subset.2 ⟨fun _ hx => List.mem_append_left _ (s.mem_after hx),
          List.subset_append_right ..⟩
      exact ⟨hsettled, ih hblocks.2 (hmid.mono hafter) htail hs.2⟩

/-- In a program that is accepted, all names are bound where the checker looks, except perhaps
those that are assigned in blocks. -/
theorem settled_of_accepted {program : List Statement}
    (h : run (Statement.trees program) = .ok u names)
    (hs : Statement.settledAll (isOneOf (Statement.assignedInBlocks program)) [] [] program =
      true) :
    Statement.settledAll every [] [] program = true :=
  program_settled (List.Subset.refl _) known_empty h hs

end Check
end Retrace
