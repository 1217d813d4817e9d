import Retrace.Proofs.Library
import Retrace.Proofs.Phrase

/-!
# What comes of reading tokens

A list of tokens may be malformed in any way, but if a program comes of it, the program is a list of
phrases (`phrases_of_parse`).  All parsers but one are alike in this: what they read is a phrase,
and the tokens that they leave are as they were (`Yields`).

Nothing is said of which phrase is read, or of which tokens are accepted.  That is what makes one
predicate enough for all parsers: a result is of some sort if the parts are, along the way in which
the parser is put together, and the tokens come in only at the places where one is taken.  There the
content of the token becomes a part of the tree, so it has to suit its kind; this is assumed of all
tokens at the start (`Token.Carries`), and since parsers leave a rest of them, it holds of what is
left.

The exception is the parser of one statement in a block.  At a name that no assignment follows it
reads nothing, or the name alone, and neither is a statement.  But then the block does not come to
its end: in the one case the next statement starts at the same name again, in the other one it would
have to start with a parenthesis (`Stuck`).  So such a thing is never part of what is returned.  In
the induction this is said of the parser of one statement as an alternative: it gives a statement,
or what it leaves is stuck.

The parsers of statements and blocks call each other, and each call lowers a bound on the depth.
What is to be shown of them is one structure with a field for each (`BlocksYield`), and the
induction is on the bound.

* `bind_eq_ok` and one lemma for each way to look at the tokens or to go on.
* `RefusesAt`: the tokens are refused at one of a given sort.
* `Token.Carries`: the content of a token suits its kind.
* `blocksYield`: the parsers of blocks, by induction on the bound of the depth of calls.
* `phrases_of_parse`: a program that is read is a list of phrases.
-/

set_option autoImplicit false

namespace Retrace
namespace Grammar

variable {α β : Type}

/-! ## Parsers, applied to tokens -/

theorem bind_apply (x : Parse α) (f : α → Parse β) (ts : List Token) :
    (x >>= f) ts = match x ts with
      | .ok a rest => f a rest
      | .error e rest => .error e rest := by
  show EStateM.bind x f ts = _
  unfold EStateM.bind
  cases x ts <;> rfl

/-- A sequence of two parsers comes to its end if both do. -/
theorem bind_eq_ok {x : Parse α} {f : α → Parse β} {ts rest : List Token} {b : β} :
    (x >>= f) ts = .ok b rest ↔ ∃ a mid, x ts = .ok a mid ∧ f a mid = .ok b rest := by
  rw [bind_apply]
  cases h : x ts with
  | ok a mid =>
    constructor
    · intro hf
      exact ⟨a, mid, rfl, hf⟩
    · rintro ⟨a', mid', hx, hf⟩
      cases hx
      exact hf
  | error e mid => simp

theorem bind_of_ok {x : Parse α} {f : α → Parse β} {ts mid : List Token} {a : α}
    (h : x ts = .ok a mid) : (x >>= f) ts = f a mid := by
  rw [bind_apply, h]

@[simp] theorem current?_apply (ts : List Token) : current? ts = .ok ts.head? ts := rfl

@[simp] theorem advance_apply (ts : List Token) : advance ts = .ok () ts.tail := rfl

@[simp] theorem kind_cons (t : Token) (ts : List Token) :
    kind (t :: ts) = .ok t.kind (t :: ts) := rfl

@[simp] theorem nextKind_cons (t u : Token) (ts : List Token) :
    nextKind (t :: u :: ts) = .ok u.kind (t :: u :: ts) := rfl

@[simp] theorem sees_nil (k : Kind) : sees k [] = .ok false [] := rfl

@[simp] theorem sees_cons (k : Kind) (t : Token) (ts : List Token) :
    sees k (t :: ts) = .ok (t.kind == k) (t :: ts) := rfl

/-- A token of the kind that is expected is taken, and its content is the result. -/
theorem take_cons {k : Kind} {t : Token} (h : t.kind = k) (ts : List Token) :
    take k (t :: ts) = .ok t.content ts := by
  show (if t.kind == k then _ else _ : Parse Tree) (t :: ts) = _
  rw [h, if_pos BEq.rfl]
  rfl

theorem kind_eq_ok {ts rest : List Token} {k : Kind} (h : kind ts = .ok k rest) :
    ∃ t mid, ts = t :: mid ∧ t.kind = k ∧ rest = ts := by
  cases ts with
  | nil => cases h
  | cons t mid =>
    cases h
    exact ⟨t, mid, rfl, rfl, rfl⟩

theorem nextKind_eq_ok {ts rest : List Token} {k : Kind} (h : nextKind ts = .ok k rest) :
    ∃ t u mid, ts = t :: u :: mid ∧ u.kind = k ∧ rest = ts := by
  match ts with
  | [] => cases h
  | [_] => cases h
  | t :: u :: mid =>
    cases h
    exact ⟨t, u, mid, rfl, rfl, rfl⟩

theorem take_eq_ok {k : Kind} {ts rest : List Token} {c : Tree} (h : take k ts = .ok c rest) :
    ∃ t, ts = t :: rest ∧ t.kind = k ∧ t.content = c := by
  cases ts with
  | nil => cases h
  | cons t mid =>
    by_cases hk : t.kind = k
    · rw [take_cons hk] at h
      cases h
      exact ⟨t, rfl, hk, rfl⟩
    · have hne : (t.kind == k) = false := beq_false_of_ne hk
      change (if t.kind == k then _ else _ : Parse Tree) (t :: mid) = _ at h
      rw [hne] at h
      cases h

/-- Any other token is refused, and stays. -/
theorem take_of_ne {k : Kind} {t : Token} (h : t.kind ≠ k) (ts : List Token) :
    take k (t :: ts) = .error (.unexpected (some t)) (t :: ts) := by
  show (if t.kind == k then _ else _ : Parse Tree) (t :: ts) = _
  rw [if_neg fun hk => h (eq_of_beq hk)]
  rfl

/-- The tokens are refused at one with the property. -/
def RefusesAt (P : Token → Prop) (x : Parse α) (ts : List Token) : Prop :=
  ∃ t rest, P t ∧ x ts = .error (.unexpected (some t)) (t :: rest)

/-- What refuses the tokens refuses them before anything else. -/
theorem RefusesAt.bind {P : Token → Prop} {x : Parse α} {ts : List Token} (h : RefusesAt P x ts)
    (f : α → Parse β) : RefusesAt P (x >>= f) ts := by
  obtain ⟨t, rest, ht, hx⟩ := h
  exact ⟨t, rest, ht, by rw [bind_apply, hx]⟩

end Grammar

/-! ## Parsers that read phrases -/

/-- The content of a token suits its kind: numerals carry numbers, names and literal texts carry
texts. -/
def Token.Carries (t : Token) : Prop :=
  match t.kind with
  | .number => ∃ n, t.content = .int n
  | .name => ∃ s, t.content = .text s
  | .string => ∃ s, t.content = .text s
  | _ => True

namespace Grammar

open Phrase

variable {α β : Type}

/-- If the contents of all tokens suit their kinds, then what is read has the property, and the
contents of the tokens that remain suit their kinds. -/
structure Yields (x : Parse α) (P : α → Prop) : Prop where
  ok : ∀ {ts a rest}, x ts = .ok a rest → (∀ t ∈ ts, t.Carries) → P a ∧ ∀ t ∈ rest, t.Carries

theorem yields_pure {a : α} {P : α → Prop} (h : P a) : Yields (pure a) P := by
  constructor
  intro ts b rest hx hts
  cases hx
  exact ⟨h, hts⟩

theorem yields_throw {e : Fault} {P : α → Prop} : Yields (throw e) P :=
  ⟨fun h => nomatch h⟩

theorem yields_unexpected {P : α → Prop} : Yields unexpected P :=
  ⟨fun h => nomatch h⟩

/-- One parser after another. -/
theorem yields_bind {x : Parse α} {f : α → Parse β} {P : α → Prop} {Q : β → Prop}
    (hx : Yields x P) (hf : ∀ a, P a → Yields (f a) Q) : Yields (x >>= f) Q := by
  constructor
  intro ts b rest h hts
  obtain ⟨a, mid, h1, h2⟩ := bind_eq_ok.1 h
  obtain ⟨ha, hmid⟩ := hx.ok h1 hts
  exact (hf a ha).ok h2 hmid

theorem yields_ite {c : Prop} [Decidable c] {x y : Parse α} {P : α → Prop} (hx : Yields x P)
    (hy : Yields y P) : Yields (if c then x else y) P := by
  split
  · exact hx
  · exact hy

theorem yields_map {x : Parse α} {f : α → β} {P : α → Prop} {Q : β → Prop} (hx : Yields x P)
    (hf : ∀ a, P a → Q (f a)) : Yields (x >>= fun a => pure (f a)) Q :=
  yields_bind hx fun a ha => yields_pure (hf a ha)

/-- A parser that looks at the tokens only. -/
theorem yields_of_looking {x : Parse α} (h : ∀ {ts a rest}, x ts = .ok a rest → rest = ts) :
    Yields x fun _ => True := by
  constructor
  intro ts a rest hx hts
  obtain rfl := h hx
  exact ⟨trivial, hts⟩

theorem yields_current? : Yields current? fun _ => True :=
  yields_of_looking fun h => by cases h; rfl

theorem yields_kind : Yields kind fun _ => True :=
  yields_of_looking fun h => by
    obtain ⟨_, _, -, -, rfl⟩ := kind_eq_ok h
    rfl

theorem yields_nextKind : Yields nextKind fun _ => True :=
  yields_of_looking fun h => by
    obtain ⟨_, _, _, -, -, rfl⟩ := nextKind_eq_ok h
    rfl

theorem yields_sees (k : Kind) : Yields (sees k) fun _ => True :=
  yields_of_looking fun {ts _ _} h => by cases ts <;> cases h <;> rfl

theorem yields_advance : Yields advance fun _ => True := by
  constructor
  intro ts a rest h hts
  cases h
  exact ⟨trivial, fun t ht => hts t (List.mem_of_mem_tail ht)⟩

/-- A token may be passed over. -/
theorem yields_advance_bind {f : Unit → Parse α} {P : α → Prop} (hf : Yields (f ()) P) :
    Yields (advance >>= f) P :=
  yields_bind yields_advance fun _ _ => hf

/-- What a token of a kind carries suits the kind. -/
theorem yields_take (k : Kind) : Yields (take k) fun c => Token.Carries ⟨k, c, 0, 0⟩ := by
  constructor
  intro ts c rest h hts
  obtain ⟨t, rfl, rfl, rfl⟩ := take_eq_ok h
  exact ⟨hts t (List.mem_cons_self ..), fun u hu => hts u (List.mem_cons_of_mem _ hu)⟩

theorem yields_take_bind {k : Kind} {f : Tree → Parse α} {P : α → Prop}
    (hf : ∀ c, Yields (f c) P) : Yields (take k >>= f) P :=
  yields_bind (yields_take k) fun c _ => hf c

/-- The content of a name is a text. -/
theorem yields_name_bind {f : Tree → Parse α} {P : α → Prop}
    (hf : ∀ s, Yields (f (.text s)) P) : Yields (take .name >>= f) P := by
  refine yields_bind (yields_take .name) ?_
  rintro c ⟨s, rfl⟩
  exact hf s

/-! ## Expressions -/

/-- The tree of a literal. -/
def IsLiteral (t : Tree) : Prop :=
  ∃ v : Literal, v.tree = t

/-- The trees of literals. -/
def AreLiterals (ts : List Tree) : Prop :=
  ∃ vs : List Literal, Literal.trees vs = ts

/-- The tree of an expression. -/
def IsExpression (t : Tree) : Prop :=
  ∃ e : Expression, e.tree = t

theorem IsLiteral.isExpression {t : Tree} : IsLiteral t → IsExpression t
  | ⟨v, hv⟩ => ⟨.literal v, hv⟩

theorem Yields.imp {x : Parse α} {P Q : α → Prop} (hx : Yields x P) (h : ∀ a, P a → Q a) :
    Yields x Q :=
  ⟨fun ho hts => (hx.ok ho hts).imp_left (h _)⟩

/-- Literals, which hold literals. -/
theorem values_yield : ∀ fuel, Yields (value fuel) IsLiteral ∧ Yields (values fuel) AreLiterals
  | 0 => ⟨yields_throw, yields_throw⟩
  | fuel + 1 => by
    obtain ⟨hvalue, hvalues⟩ := values_yield fuel
    constructor
    · rw [value]
      refine yields_bind yields_current? fun t? _ => ?_
      split
      · exact yields_throw
      · split
        · refine yields_advance_bind (yields_map hvalues ?_)
          rintro _ ⟨vs, rfl⟩
          exact ⟨.list vs, rfl⟩
        · refine (yields_take .number).imp ?_
          rintro c ⟨n, rfl⟩
          exact ⟨.int n, rfl⟩
        · refine (yields_take .name).imp ?_
          rintro c ⟨s, rfl⟩
          exact ⟨.name s, rfl⟩
        · refine (yields_take .string).imp ?_
          rintro c ⟨s, rfl⟩
          exact ⟨.string s, rfl⟩
        · exact yields_advance_bind (yields_pure ⟨.bool true, rfl⟩)
        · exact yields_advance_bind (yields_pure ⟨.bool false, rfl⟩)
        · exact yields_unexpected
    · rw [values]
      refine yields_bind yields_current? fun t? _ => ?_
      split
      · exact yields_unexpected
      · refine yields_ite (yields_advance_bind (yields_pure ⟨[], rfl⟩)) ?_
        refine yields_bind hvalue ?_
        rintro _ ⟨v, rfl⟩
        have hrest : Yields (values fuel >>= fun rest => pure (v.tree :: rest)) AreLiterals := by
          refine yields_map hvalues ?_
          rintro _ ⟨vs, rfl⟩
          exact ⟨v :: vs, rfl⟩
        refine yields_bind yields_kind fun k _ => ?_
        exact yields_ite (yields_advance_bind hrest) hrest

theorem value_yields (fuel : Nat) : Yields (value fuel) IsLiteral :=
  (values_yield fuel).1

/-- After an opening bracket comes a list. -/
theorem value_of_lbracket {fuel : Nat} {t : Token} {ts rest : List Token} {v : Tree}
    (ht : t.kind = .lbracket) (h : value fuel (t :: ts) = .ok v rest)
    (hts : ∀ u ∈ t :: ts, u.Carries) :
    (∃ items : List Literal, .list (Literal.trees items) = v) ∧ ∀ u ∈ rest, u.Carries := by
  cases fuel with
  | zero => cases h
  | succ fuel =>
    rw [value, bind_of_ok (current?_apply _), List.head?_cons] at h
    simp only [ht] at h
    have hlist : Yields (do advance; return .list (← values fuel))
        fun v => ∃ items : List Literal, Tree.list (Literal.trees items) = v := by
      refine yields_advance_bind (yields_map (values_yield fuel).2 ?_)
      rintro _ ⟨items, rfl⟩
      exact ⟨items, rfl⟩
    exact hlist.ok h hts

/-- A token that stands for an operator stands for one of those that phrases know. -/
theorem exists_infix {k : Kind} {s : String} (h : k.operator? = some s) :
    ∃ op : Infix, op.tag = s := by
  have known (op : Op) : ∃ op' : Infix, op'.tag = op.tag := ⟨.known op, rfl⟩
  cases k with
  | dot =>
    cases h
    exact ⟨.dot, rfl⟩
  | _ => cases h <;> exact known _

theorem IsExpression.binary {left right : Tree} {k : Kind} {s : String} (hl : IsExpression left)
    (hk : k.operator? = some s) (hr : IsExpression right) :
    IsExpression (.binary left s right) := by
  obtain ⟨l, rfl⟩ := hl
  obtain ⟨r, rfl⟩ := hr
  obtain ⟨op, rfl⟩ := exists_infix hk
  exact ⟨.binary l op r, rfl⟩

/-- A length: the expression stands between parentheses. -/
theorem length_yields {x : Parse Tree} (hx : Yields x IsExpression) :
    Yields (take .lparen >>= fun _ => x >>= fun e => take .rparen >>= fun _ =>
      pure (.length e)) IsExpression := by
  refine yields_take_bind fun _ => yields_bind hx ?_
  rintro _ ⟨e, rfl⟩
  exact yields_take_bind fun _ => yields_pure ⟨.length e, rfl⟩

/-- Operands, expressions and chains of operands, by the bound of the depth. -/
theorem expressions_yield : ∀ fuel, Yields (primary fuel) IsExpression ∧
    Yields (expression fuel) IsExpression ∧
    ∀ left, IsExpression left → Yields (chain fuel left) IsExpression
  | 0 => ⟨yields_throw, yields_throw, fun _ _ => yields_throw⟩
  | fuel + 1 => by
    obtain ⟨hprimary, hexpression, hchain⟩ := expressions_yield fuel
    refine ⟨?_, ?_, fun left hleft => ?_⟩
    · rw [primary]
      refine yields_bind yields_kind fun k _ => ?_
      split
      · refine yields_advance_bind (yields_bind hexpression fun e he => ?_)
        exact yields_take_bind fun _ => yields_pure he
      · exact yields_advance_bind (length_yields hexpression)
      · refine yields_name_bind fun s => yields_bind (yields_sees .lbracket) fun b _ => ?_
        refine yields_ite ?_ (yields_pure ⟨.literal (.name s), rfl⟩)
        refine yields_advance_bind (yields_bind hexpression ?_)
        rintro _ ⟨e, rfl⟩
        exact yields_take_bind fun _ => yields_pure ⟨.index s e, rfl⟩
      · exact (value_yields fuel).imp fun _ => IsLiteral.isExpression
    · rw [expression]
      refine yields_bind yields_kind fun k _ => ?_
      split
      · exact yields_advance_bind (length_yields hexpression)
      · exact yields_bind hprimary hchain
    · rw [chain]
      refine yields_bind yields_current? fun t? _ => ?_
      split
      · next s hs =>
        obtain ⟨t, -, hk⟩ := Option.bind_eq_some_iff.1 hs
        refine yields_advance_bind (yields_bind hprimary fun right hright => ?_)
        exact hchain _ (hleft.binary hk hright)
      · exact yields_pure hleft

theorem expression_yields (fuel : Nat) : Yields (expression fuel) IsExpression :=
  (expressions_yield fuel).2.1

/-! ## Statements without blocks -/

/-- The tree of a statement. -/
def IsStatement (t : Tree) : Prop :=
  ∃ s : Statement, s.tree = t

/-- The trees of statements. -/
def AreStatements (ts : List Tree) : Prop :=
  ∃ ss : List Statement, Statement.trees ss = ts

theorem assignment_yields (fuel : Nat) : Yields (assignment fuel) IsStatement := by
  refine yields_name_bind fun name => yields_bind yields_kind fun k _ => ?_
  refine yields_ite ?_ ?_
  · refine yields_advance_bind (yields_map (expression_yields fuel) ?_)
    rintro _ ⟨e, rfl⟩
    exact ⟨.assign name e, rfl⟩
  · split
    · next op _ =>
      refine yields_advance_bind (yields_map (expression_yields fuel) ?_)
      rintro _ ⟨e, rfl⟩
      exact ⟨.compound op name e, rfl⟩
    · exact yields_unexpected

theorem reverse_yields : Yields reverse IsStatement :=
  yields_take_bind fun _ => yields_name_bind fun name => yields_pure ⟨.reverse name, rfl⟩

theorem revtrace_yields (fuel : Nat) : Yields (revtrace fuel) IsStatement := by
  refine yields_take_bind fun _ => yields_name_bind fun name => ?_
  refine yields_map (expression_yields fuel) ?_
  rintro _ ⟨e, rfl⟩
  exact ⟨.revtrace name e, rfl⟩

theorem breakLoop_yields : Yields breakLoop IsStatement :=
  yields_take_bind fun _ => yields_pure ⟨.breakLoop, rfl⟩

/-- Further expressions of a print. -/
theorem arguments_yield : ∀ fuel, Yields (arguments fuel) fun ts =>
    ∃ es : List Expression, Expression.trees es = ts
  | 0 => yields_throw
  | fuel + 1 => by
    refine yields_bind yields_kind fun k _ => yields_ite ?_ (yields_pure ⟨[], rfl⟩)
    refine yields_advance_bind (yields_bind (expression_yields fuel) ?_)
    rintro _ ⟨e, rfl⟩
    refine yields_map (arguments_yield fuel) ?_
    rintro _ ⟨es, rfl⟩
    exact ⟨e :: es, rfl⟩

theorem print_yields (fuel : Nat) : Yields (print fuel) IsStatement := by
  refine yields_take_bind fun _ => yields_take_bind fun _ => ?_
  refine yields_bind (expression_yields fuel) ?_
  rintro _ ⟨e, rfl⟩
  refine yields_bind (arguments_yield fuel) ?_
  rintro _ ⟨es, rfl⟩
  exact yields_take_bind fun _ => yields_pure ⟨.print e es, rfl⟩

/-! ## Conditions and ranges -/

/-- Conditions that are joined by words are one expression. -/
theorem conditionRest_yields : ∀ fuel left, IsExpression left →
    Yields (conditionRest fuel left) IsExpression
  | 0, _, _ => yields_throw
  | fuel + 1, left, hleft => by
    rw [conditionRest]
    refine yields_bind yields_current? fun t? _ => ?_
    dsimp only
    split
    · next hk =>
      refine yields_advance_bind (yields_bind (expression_yields fuel) fun right hright => ?_)
      refine conditionRest_yields fuel _ ?_
      -- the token is an `and` or an `or`
      obtain hk | hk : t?.map Token.kind = some .andWord ∨ t?.map Token.kind = some .orWord := by
        simpa using hk
      · rw [hk]
        exact hleft.binary (k := .andWord) rfl hright
      · rw [hk]
        exact hleft.binary (k := .orWord) rfl hright
    · exact yields_pure hleft

theorem condition_yields (fuel : Nat) : Yields (condition fuel) IsExpression :=
  yields_bind (expression_yields fuel) fun e he => conditionRest_yields fuel e he

/-- The tree of what a `for` loop goes through. -/
def IsSource (t : Tree) : Prop :=
  ∃ s : Source, s.tree = t

theorem range_yields (fuel : Nat) : Yields (range fuel) IsSource := by
  refine yields_take_bind fun _ => yields_take_bind fun _ => ?_
  refine yields_bind (expression_yields fuel) ?_
  rintro _ ⟨first, rfl⟩
  refine yields_bind yields_kind fun k _ => yields_ite ?_ ?_
  · refine yields_advance_bind (yields_bind (expression_yields fuel) ?_)
    rintro _ ⟨second, rfl⟩
    refine yields_bind yields_kind fun k _ => yields_ite ?_ ?_
    · refine yields_advance_bind (yields_bind (expression_yields fuel) ?_)
      rintro _ ⟨third, rfl⟩
      exact yields_take_bind fun _ => yields_pure ⟨.steps first second third, rfl⟩
    · exact yields_take_bind fun _ => yields_pure ⟨.between first second, rfl⟩
  · exact yields_take_bind fun _ => yields_pure ⟨.upTo first, rfl⟩

/-- What a `for` loop goes through. -/
theorem iterable_yields (fuel : Nat) : Yields (iterable fuel) IsSource := by
  refine yields_bind yields_kind fun k _ => ?_
  split
  · refine (value_yields fuel).imp ?_
    rintro _ ⟨v, rfl⟩
    exact ⟨.items (.literal v), rfl⟩
  · exact range_yields fuel
  · refine (expression_yields fuel).imp ?_
    rintro _ ⟨e, rfl⟩
    exact ⟨.items e, rfl⟩

/-! ## Blocks -/

/-- Kinds of tokens that may end a block; a name or an opening parenthesis never does. -/
def Ends (stops : List Kind) : Prop :=
  stops.contains .name = false ∧ stops.contains .lparen = false

/-- No block that goes on with these tokens comes to its end. -/
structure Stuck (ts : List Token) : Prop where
  sees : sees .newline ts = .ok false ts
  never : ∀ {stops}, Ends stops → ∀ {fuel a rest}, statements stops fuel ts ≠ .ok a rest

/-- At a name that starts no statement nothing is read, again and again. -/
theorem stuck_of_name {t u : Token} {ts : List Token} (ht : t.kind = .name)
    (hu : u.kind.isAssignment = false) (hu' : (u.kind == .lparen) = false) :
    Stuck (t :: u :: ts) where
  sees := by
    rw [sees_cons, ht]
    rfl
  never {stops} hstops fuel a rest := by
    have hnothing (fuel : Nat) :
        statement (fuel + 1) (t :: u :: ts) = .ok .none (t :: u :: ts) := by
      rw [statement, bind_of_ok (kind_cons ..), ht]
      show (nextKind >>= _) (t :: u :: ts) = _
      rw [bind_of_ok (nextKind_cons ..), hu, hu']
      rfl
    induction fuel generalizing a rest with
    | zero => nofun
    | succ fuel ih =>
      intro h
      rw [statements, bind_of_ok (current?_apply _)] at h
      simp only [List.head?_cons, ht, hstops.1, Bool.false_eq_true, if_false] at h
      obtain ⟨first, mid, h1, h2⟩ := bind_eq_ok.1 h
      cases fuel with
      | zero => cases h1
      | succ fuel =>
        rw [hnothing] at h1
        cases h1
        rw [bind_of_ok (sees_cons ..), ht] at h2
        obtain ⟨more, mid, h3, -⟩ := bind_eq_ok.1 h2
        exact ih _ _ h3

/-- No statement starts with a parenthesis. -/
theorem stuck_of_lparen {t : Token} {ts : List Token} (ht : t.kind = .lparen) :
    Stuck (t :: ts) where
  sees := by
    rw [sees_cons, ht]
    rfl
  never {stops} hstops fuel a rest := by
    cases fuel with
    | zero => nofun
    | succ fuel =>
      intro h
      rw [statements, bind_of_ok (current?_apply _)] at h
      simp only [List.head?_cons, ht, hstops.2, Bool.false_eq_true, if_false] at h
      obtain ⟨first, mid, h1, -⟩ := bind_eq_ok.1 h
      cases fuel with
      | zero => cases h1
      | succ fuel =>
        rw [statement, bind_of_ok (kind_cons ..), ht] at h1
        cases h1

/-- A name before a parenthesis is an expression of its own. -/
theorem expression_name {t u : Token} {ts rest : List Token} {fuel : Nat} {e : Tree}
    (ht : t.kind = .name) (hu : u.kind = .lparen)
    (h : expression fuel (t :: u :: ts) = .ok e rest) : rest = u :: ts := by
  match fuel with
  | 0 => cases h
  | 1 =>
    rw [expression, bind_of_ok (kind_cons ..), ht] at h
    cases h
  | fuel + 2 =>
    have hname : primary (fuel + 1) (t :: u :: ts) = .ok t.content (u :: ts) := by
      rw [primary, bind_of_ok (kind_cons ..), ht]
      show (take .name >>= _) (t :: u :: ts) = _
      rw [bind_of_ok (take_cons ht _), bind_of_ok (sees_cons ..), hu]
      rfl
    rw [expression, bind_of_ok (kind_cons ..), ht] at h
    change (primary (fuel + 1) >>= _) (t :: u :: ts) = _ at h
    rw [bind_of_ok hname, chain, bind_of_ok (current?_apply _)] at h
    simp only [List.head?_cons, Option.bind_some, hu] at h
    cases h
    rfl

/-- The trees of further conditions of a branch. -/
def AreElifs (ts : List Tree) : Prop :=
  ∃ xs : List Elif, Elif.trees xs = ts

/-- What the parsers of statements read, with a bound on the depth of calls. -/
structure BlocksYield (fuel : Nat) : Prop where
  statement : ∀ {ts t rest}, statement fuel ts = .ok t rest → (∀ t ∈ ts, t.Carries) →
    (IsStatement t ∨ Stuck rest) ∧ ∀ t ∈ rest, t.Carries
  statements : ∀ {stops}, Ends stops → Yields (statements stops fuel) AreStatements
  block : Yields (block fuel) AreStatements
  branch : Yields (branch fuel) IsStatement
  elifBranches : Yields (elifBranches fuel) AreElifs
  forLoop : Yields (forLoop fuel) IsStatement
  whileLoop : Yields (whileLoop fuel) IsStatement

namespace BlocksYield

theorem zero : BlocksYield 0 where
  statement h := nomatch h
  statements _ := yields_throw
  block := yields_throw
  branch := yields_throw
  elifBranches := yields_throw
  forLoop := yields_throw
  whileLoop := yields_throw

variable {fuel : Nat} (hfuel : BlocksYield fuel)
include hfuel

/-- One statement of a block, or what it leaves is stuck. -/
theorem statement_succ {ts rest : List Token} {t : Tree}
    (h : Grammar.statement (fuel + 1) ts = .ok t rest) (hts : ∀ t ∈ ts, t.Carries) :
    (IsStatement t ∨ Stuck rest) ∧ ∀ t ∈ rest, t.Carries := by
  have good {x : Parse Tree} (hx : Yields x IsStatement) (h : x ts = .ok t rest) :
      (IsStatement t ∨ Stuck rest) ∧ ∀ t ∈ rest, t.Carries :=
    (hx.ok h hts).imp_left .inl
  rw [Grammar.statement] at h
  obtain ⟨k, mid, hkind, h⟩ := bind_eq_ok.1 h
  obtain ⟨t₀, ts', rfl, ht₀, rfl⟩ := kind_eq_ok hkind
  split at h
  · obtain ⟨k, mid, hnext, h⟩ := bind_eq_ok.1 h
    obtain ⟨_, u, ts', hcons, rfl, rfl⟩ := nextKind_eq_ok hnext
    cases hcons
    split at h
    · exact good (assignment_yields fuel) h
    · next hassign =>
      split at h
      · next hlparen =>
        obtain ⟨-, hrest⟩ := (expression_yields fuel).ok h hts
        refine ⟨.inr ?_, hrest⟩
        rw [expression_name ht₀ (eq_of_beq hlparen) h]
        exact stuck_of_lparen (eq_of_beq hlparen)
      · next hlparen =>
        cases h
        exact ⟨.inr (stuck_of_name ht₀ (by simpa using hassign) (by simpa using hlparen)), hts⟩
  · obtain ⟨⟨items, rfl⟩, hrest⟩ := value_of_lbracket ht₀ h hts
    exact ⟨.inl ⟨.literals items, rfl⟩, hrest⟩
  · obtain ⟨k, mid, hnext, h⟩ := bind_eq_ok.1 h
    obtain ⟨_, u, ts', hcons, rfl, rfl⟩ := nextKind_eq_ok hnext
    split at h
    · exact good reverse_yields h
    · cases h
  · exact good (revtrace_yields fuel) h
  · exact good hfuel.branch h
  · exact good hfuel.forLoop h
  · exact good hfuel.whileLoop h
  · exact good (print_yields fuel) h
  · exact good breakLoop_yields h
  · cases h

/-- A block whose statements are read is a list of statements, as none of them has left it stuck. -/
theorem statements_succ {stops : List Kind} (hstops : Ends stops) :
    Yields (Grammar.statements stops (fuel + 1)) AreStatements := by
  constructor
  intro ts a rest h hts
  rw [Grammar.statements, bind_of_ok (current?_apply ts)] at h
  cases ts with
  | nil =>
    cases h
    exact ⟨⟨[], rfl⟩, hts⟩
  | cons t ts =>
    simp only [List.head?_cons] at h
    split at h
    · cases h
      exact ⟨⟨[], rfl⟩, hts⟩
    · obtain ⟨first, mid, h1, h⟩ := bind_eq_ok.1 h
      obtain ⟨hfirst, hmid⟩ := hfuel.statement h1 hts
      -- where the parser is stuck, no list of statements comes to an end
      rcases hfirst with ⟨s, rfl⟩ | hstuck
      · have hrest : Yields (Grammar.statements stops fuel >>= fun more => pure (s.tree :: more))
            AreStatements := by
          refine yields_map (hfuel.statements hstops) ?_
          rintro _ ⟨ss, rfl⟩
          exact ⟨s :: ss, rfl⟩
        refine (yields_bind (yields_sees .newline) fun b _ => ?_ : Yields _ AreStatements).ok h hmid
        exact yields_ite (yields_advance_bind hrest) hrest
      · rw [bind_of_ok hstuck.sees] at h
        obtain ⟨more, mid, h2, -⟩ := bind_eq_ok.1 h
        exact absurd h2 (hstuck.never hstops)

theorem block_succ : Yields (Grammar.block (fuel + 1)) AreStatements := by
  rw [Grammar.block]
  refine yields_bind yields_kind fun k _ => ?_
  split
  · refine yields_advance_bind (yields_bind (hfuel.statements ⟨rfl, rfl⟩) fun body hbody => ?_)
    exact yields_take_bind fun _ => yields_pure hbody
  · refine yields_advance_bind (yields_bind (hfuel.statements ⟨rfl, rfl⟩) fun body hbody => ?_)
    exact yields_take_bind fun _ => yields_pure hbody
  · exact hfuel.statements ⟨rfl, rfl⟩

theorem branch_succ : Yields (Grammar.branch (fuel + 1)) IsStatement := by
  rw [Grammar.branch]
  refine yields_take_bind fun _ => yields_bind (condition_yields fuel) ?_
  rintro _ ⟨test, rfl⟩
  refine yields_take_bind fun _ => yields_bind hfuel.block ?_
  rintro _ ⟨yes, rfl⟩
  refine yields_bind hfuel.elifBranches ?_
  rintro _ ⟨elifs, rfl⟩
  refine yields_bind (yields_sees .elseWord) fun b _ => yields_ite ?_ ?_
  · refine yields_advance_bind (yields_take_bind fun _ => yields_map hfuel.block ?_)
    rintro _ ⟨no, rfl⟩
    exact ⟨.branch test yes elifs no, rfl⟩
  · exact yields_pure ⟨.branch test yes elifs [], rfl⟩

theorem elifBranches_succ : Yields (Grammar.elifBranches (fuel + 1)) AreElifs := by
  rw [Grammar.elifBranches]
  refine yields_bind (yields_sees .elifWord) fun b _ => yields_ite ?_ (yields_pure ⟨[], rfl⟩)
  refine yields_advance_bind (yields_bind (expression_yields fuel) ?_)
  rintro _ ⟨test, rfl⟩
  refine yields_take_bind fun _ => yields_bind hfuel.block ?_
  rintro _ ⟨body, rfl⟩
  refine yields_map hfuel.elifBranches ?_
  rintro _ ⟨elifs, rfl⟩
  exact ⟨.mk test body :: elifs, rfl⟩

theorem forLoop_succ : Yields (Grammar.forLoop (fuel + 1)) IsStatement := by
  rw [Grammar.forLoop]
  refine yields_take_bind fun _ => yields_name_bind fun name => yields_take_bind fun _ => ?_
  refine yields_bind (iterable_yields fuel) ?_
  rintro _ ⟨source, rfl⟩
  refine yields_take_bind fun _ => yields_map hfuel.block ?_
  rintro _ ⟨body, rfl⟩
  exact ⟨.forLoop name source body, rfl⟩

theorem whileLoop_succ : Yields (Grammar.whileLoop (fuel + 1)) IsStatement := by
  rw [Grammar.whileLoop]
  refine yields_take_bind fun _ => yields_bind (expression_yields fuel) ?_
  rintro _ ⟨test, rfl⟩
  have hbody : Yields (Grammar.block fuel >>= fun body => pure (.whileLoop test.tree body))
      IsStatement := by
    refine yields_map hfuel.block ?_
    rintro _ ⟨body, rfl⟩
    exact ⟨.whileLoop test body, rfl⟩
  refine yields_bind yields_kind fun k _ => ?_
  split
  · exact yields_advance_bind hbody
  · exact hbody
  · exact yields_unexpected

theorem succ : BlocksYield (fuel + 1) where
  statement := hfuel.statement_succ
  statements := hfuel.statements_succ
  block := hfuel.block_succ
  branch := hfuel.branch_succ
  elifBranches := hfuel.elifBranches_succ
  forLoop := hfuel.forLoop_succ
  whileLoop := hfuel.whileLoop_succ

end BlocksYield

/-- All parsers of blocks, for every bound. -/
theorem blocksYield : ∀ fuel, BlocksYield fuel
  | 0 => .zero
  | fuel + 1 => (blocksYield fuel).succ

/-! ## Programs -/

/-- A statement in front of a program. -/
theorem yields_cons {x : Parse Tree} {y : Parse (List Tree)} (hx : Yields x IsStatement)
    (hy : Yields y AreStatements) :
    Yields (x >>= fun first => y >>= fun rest => pure (first :: rest)) AreStatements := by
  refine yields_bind hx ?_
  rintro _ ⟨s, rfl⟩
  refine yields_map hy ?_
  rintro _ ⟨ss, rfl⟩
  exact ⟨s :: ss, rfl⟩

/-- A program, statement by statement. -/
theorem program_yields : ∀ fuel, Yields (program fuel) AreStatements
  | 0 => yields_throw
  | fuel + 1 => by
    have hrest := program_yields fuel
    have hblocks := blocksYield fuel
    rw [program]
    refine yields_bind yields_current? fun t? _ => ?_
    split
    · exact yields_pure ⟨[], rfl⟩
    · split
      · refine yields_advance_bind (yields_bind hblocks.block ?_)
        rintro _ ⟨body, rfl⟩
        refine yields_take_bind fun _ => yields_map hrest ?_
        rintro _ ⟨ss, rfl⟩
        exact ⟨body ++ ss, Statement.trees_append body ss⟩
      · refine yields_bind yields_nextKind fun k _ => ?_
        exact yields_ite (yields_cons (assignment_yields fuel) hrest) yields_unexpected
      · exact yields_cons reverse_yields hrest
      · exact yields_cons (revtrace_yields fuel) hrest
      · exact yields_cons hblocks.branch hrest
      · exact yields_cons hblocks.forLoop hrest
      · exact yields_cons hblocks.whileLoop hrest
      · exact yields_cons (print_yields fuel) hrest
      · exact yields_unexpected

/-- **A program that is read is a list of phrases**, whatever the tokens are, if only numerals carry
numbers and names and literal texts carry texts. -/
theorem phrases_of_parse {tokens : List Token} {program : List Tree}
    (hcarries : ∀ t ∈ tokens, t.Carries) (h : parse tokens = .ok program) :
    ∃ statements : List Statement, Statement.trees statements = program := by
  unfold parse run at h
  split at h
  · next statements rest hrun =>
    cases h
    exact ((program_yields _).ok hrun hcarries).1
  · cases h

/-- Tokens of a loop in braces, and of another one over a range. -/
def loops : List Token :=
  [⟨.whileWord, .text "while", 1, 0⟩, ⟨.name, .text "x", 1, 6⟩, ⟨.lt, .text "<", 1, 8⟩,
   ⟨.number, .int 3, 1, 10⟩, ⟨.lbrace, .text "\x7b", 1, 12⟩, ⟨.lbracket, .text "[", 1, 14⟩,
   ⟨.name, .text "y", 1, 15⟩, ⟨.string, .text "\"a\"", 1, 17⟩, ⟨.rbracket, .text "]", 1, 20⟩,
   ⟨.printWord, .text "print", 1, 22⟩, ⟨.lparen, .text "(", 1, 27⟩, ⟨.name, .text "x", 1, 28⟩,
   ⟨.lbracket, .text "[", 1, 29⟩, ⟨.number, .int 0, 1, 30⟩, ⟨.rbracket, .text "]", 1, 31⟩,
   ⟨.rparen, .text ")", 1, 32⟩, ⟨.rbrace, .text "\x7d", 1, 34⟩, ⟨.forWord, .text "for", 2, 0⟩,
   ⟨.name, .text "i", 2, 4⟩, ⟨.inWord, .text "in", 2, 6⟩, ⟨.rangeWord, .text "range", 2, 9⟩,
   ⟨.lparen, .text "(", 2, 14⟩, ⟨.number, .int 2, 2, 15⟩, ⟨.rparen, .text ")", 2, 16⟩,
   ⟨.colon, .text ":", 2, 17⟩, ⟨.breakWord, .text "break", 2, 19⟩]

/-- A loop with a block in braces and a list of literals in it, and a second loop. -/
theorem phrases_of_parse_loops : ∃ program, parse loops = .ok program ∧ program.length = 2 ∧
    ∃ statements : List Statement, Statement.trees statements = program := by
  have hparse : parse loops = .ok
      [.whileLoop (.binary (.text "x") "lt" (.int 3))
        [.list [.text "y", .text "\"a\""], .print [.index (.text "x") (.int 0)]],
       .forLoop (.text "i") (.range implicitStart (.int 2) .none) [.breakLoop]] := by cbv
  have hcarries : ∀ t ∈ loops, t.Carries := by
    simp [loops, Token.Carries]
  exact ⟨_, hparse, rfl, phrases_of_parse hcarries hparse⟩

end Grammar
end Retrace
