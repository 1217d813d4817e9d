import Mathlib.Order.Basic
import Mathlib.Order.Nat
import Retrace.Proofs.Parsing

/-!
# Whether reading tokens ends

The parsers take a bound on the depth of their calls.  With a bound that suffices for the tokens
(`enough`) a greater one makes no difference: the result is the same, or the fault is.  There is one
exception.  At a *stray* name, one that is followed neither by an assignment nor by a parenthesis,
the parser of one statement reads nothing and is content with that.  A block that comes to such a
name reads it again and again, and no bound is enough for it.

So what is to be shown is not that parsers end, but that there is one reason only for which they do
not.  `Comes S x y ts b` says it of two parsers, of which one has the larger bound: they do the same
on the tokens `ts`; if there is a result, tokens were taken, fewer than `b` being left; and if the
bound runs out, then at tokens of the kind `S`.  The three go together.  That the two do the same
follows for a sequence only if the second part still has a bound that suffices, and this it has
because the first part took tokens.  With `S` empty it says that the bound never runs out, which is
so for expressions, and with stray names for `S` it is what holds of statements.

How much of the bound is needed is a multiple of the number of tokens and a constant.  The parsers
call each other several times before a token is taken, in a chain that is at most eight calls long,
and so eight times the number of tokens suffices, with a constant for the place in the chain at
which a parser stands.  `Come` has these numbers as parameters, and each parser has its own.

For the parsers of statements, which call each other, the whole is one structure (`BlocksCome`) with
one field for each of them, and the induction on the bound goes through all at once.

* `Stray`: the tokens start with such a name.
* `Comes`: two parsers come to the same end; a result takes tokens, and only at tokens of a given
  kind the bound may run out.
* `expressions_come`: expressions, where it never runs out.
* `BlocksCome`: statements and blocks, where it runs out at stray names.
* `ends_unless_stray`: whether a statement, a block and a program come to an end.
* `expressions_settle`: expressions, and all that they are made of, always do.
-/

set_option autoImplicit false

namespace Retrace
namespace Grammar

variable {α β : Type}

/-- The tokens start with a name that starts no statement. -/
def Stray : List Token → Prop
  | t :: u :: _ => t.kind = .name ∧ u.kind.isAssignment = false ∧ u.kind ≠ .lparen
  | _ => False

/-! ## Two parsers that come to the same end -/

/-- On the tokens `ts` both parsers come to the same end.  The tokens that remain are the last ones
of `ts`; if there is a result, they are fewer than `b`; and if the bound on the depth of calls has
run out, they have the property `S`. -/
structure Comes (S : List Token → Prop) (x y : Parse α) (ts : List Token) (b : Nat) : Prop where
  same : x ts = y ts
  ok : ∀ {a rest}, x ts = .ok a rest → rest <:+ ts ∧ rest.length < b
  error : ∀ {e rest}, x ts = .error e rest → rest <:+ ts ∧ (e = .outOfFuel → S rest)

variable {S : List Token → Prop} {ts : List Token} {b c : Nat}

/-- More kinds of tokens may be allowed, and fewer taken. -/
theorem Comes.imp {S' : List Token → Prop} {x y : Parse α} (h : Comes S x y ts b)
    (hS : ∀ rest, S rest → S' rest) (hb : b ≤ c) : Comes S' x y ts c where
  same := h.same
  ok hx := (h.ok hx).imp_right fun hlt => by omega
  error hx := (h.error hx).imp_right fun hS' he => hS _ (hS' he)

theorem comes_pure {a : α} (h : ts.length < b) : Comes S (pure a) (pure a) ts b where
  same := rfl
  ok hx := by
    cases hx
    exact ⟨List.suffix_rfl, h⟩
  error hx := nomatch hx

/-- Both parsers stop where they are. -/
theorem comes_of_fault {x y : Parse α} {e : Fault} (hx : x ts = .error e ts)
    (hy : y ts = .error e ts) (he : e ≠ .outOfFuel) : Comes S x y ts b where
  same := hx.trans hy.symm
  ok h := by cases hx.symm.trans h
  error h := by
    cases hx.symm.trans h
    exact ⟨List.suffix_rfl, fun h => absurd h he⟩

theorem comes_throw {e : Fault} (he : e ≠ .outOfFuel) :
    Comes S (throw e : Parse α) (throw e) ts b :=
  comes_of_fault rfl rfl he

theorem comes_unexpected : Comes S (unexpected : Parse α) unexpected ts b :=
  comes_of_fault rfl rfl (e := .unexpected ts.head?) nofun

/-- One parser after another: the second one starts with what the first has left, which is less. -/
theorem comes_bind {x y : Parse α} {f g : α → Parse β} (hx : Comes S x y ts b)
    (hf : ∀ a rest, rest.length < b → Comes S (f a) (g a) rest c) :
    Comes S (x >>= f) (y >>= g) ts c := by
  cases h : x ts with
  | ok a rest =>
    obtain ⟨hsuffix, hlt⟩ := hx.ok h
    have hrest := hf a rest hlt
    have h1 : (x >>= f) ts = f a rest := bind_of_ok h
    have h2 : (y >>= g) ts = g a rest := bind_of_ok (hx.same ▸ h)
    constructor
    · rw [h1, h2, hrest.same]
    · intro a' rest' h'
      exact (hrest.ok (h1 ▸ h')).imp_left (·.trans hsuffix)
    · intro e rest' h'
      exact (hrest.error (h1 ▸ h')).imp_left (·.trans hsuffix)
  | error e rest =>
    have h1 : (x >>= f) ts = .error e rest := by rw [bind_apply, h]
    have h2 : (y >>= g) ts = .error e rest := by rw [bind_apply, ← hx.same, h]
    constructor
    · rw [h1, h2]
    · intro a' rest' h'
      cases h1.symm.trans h'
    · intro e' rest' h'
      cases h1.symm.trans h'
      exact hx.error h

theorem comes_ite {p : Prop} [Decidable p] {x x' y y' : Parse α} (hx : Comes S x y ts b)
    (hy : Comes S x' y' ts b) : Comes S (if p then x else x') (if p then y else y') ts b := by
  split
  · exact hx
  · exact hy

/-- What remains to be done after a parser has looked at the tokens. -/
theorem comes_of_look {x : Parse α} {a : α} {f g : α → Parse β} (h : x ts = .ok a ts)
    (hf : Comes S (f a) (g a) ts b) : Comes S (x >>= f) (x >>= g) ts b where
  same := by rw [bind_of_ok h, bind_of_ok h, hf.same]
  ok hx := hf.ok ((bind_of_ok h).symm.trans hx)
  error hx := hf.error ((bind_of_ok h).symm.trans hx)

theorem comes_current?_bind {f g : Option Token → Parse α}
    (hf : Comes S (f ts.head?) (g ts.head?) ts b) :
    Comes S (current? >>= f) (current? >>= g) ts b :=
  comes_of_look (current?_apply ts) hf

/-- Looking at the next token takes nothing, and tells that there is one. -/
theorem comes_kind_bind {f g : Kind → Parse α}
    (hf : ∀ t rest, ts = t :: rest → Comes S (f t.kind) (g t.kind) ts b) :
    Comes S (kind >>= f) (kind >>= g) ts b := by
  cases ts with
  | nil => exact comes_of_fault rfl rfl nofun
  | cons t rest => exact comes_of_look (kind_cons t rest) (hf t rest rfl)

theorem comes_nextKind_bind {f g : Kind → Parse α}
    (hf : ∀ t u rest, ts = t :: u :: rest → Comes S (f u.kind) (g u.kind) ts b) :
    Comes S (nextKind >>= f) (nextKind >>= g) ts b := by
  match ts with
  | [] => exact comes_of_fault rfl rfl nofun
  | [_] => exact comes_of_fault rfl rfl nofun
  | t :: u :: rest => exact comes_of_look (nextKind_cons t u rest) (hf t u rest rfl)

theorem comes_sees_bind {k : Kind} {f g : Bool → Parse α}
    (hf : ∀ seen, (seen = true → ts ≠ []) → Comes S (f seen) (g seen) ts b) :
    Comes S (sees k >>= f) (sees k >>= g) ts b := by
  cases ts with
  | nil => exact comes_of_look (sees_nil k) (hf false nofun)
  | cons t rest => exact comes_of_look (sees_cons k t rest) (hf _ fun _ => List.cons_ne_nil t rest)

theorem comes_advance_bind {f g : Unit → Parse α} (hne : ts ≠ [])
    (hf : ∀ rest, rest.length < ts.length → Comes S (f ()) (g ()) rest b) :
    Comes S (advance >>= f) (advance >>= g) ts b := by
  cases ts with
  | nil => exact absurd rfl hne
  | cons t rest =>
    refine comes_bind (x := advance) (y := advance) (b := (t :: rest).length) ?_ fun _ => hf
    constructor
    · rfl
    · intro _ _ h
      cases h
      exact ⟨List.suffix_cons t rest, Nat.lt_succ_self _⟩
    · nofun

/-- A token that is taken is one token less. -/
theorem comes_take (k : Kind) : Comes S (take k) (take k) ts ts.length where
  same := rfl
  ok h := by
    obtain ⟨t, rfl, -, -⟩ := take_eq_ok h
    exact ⟨List.suffix_cons t _, Nat.lt_succ_self _⟩
  error h := by
    cases ts with
    | nil =>
      cases h
      exact ⟨List.suffix_rfl, nofun⟩
    | cons t rest =>
      change (if t.kind == k then _ else _ : Parse Tree) (t :: rest) = _ at h
      split at h
      · cases h
      · cases h
        exact ⟨List.suffix_rfl, nofun⟩

theorem comes_take_bind {k : Kind} {f g : Tree → Parse α}
    (hf : ∀ content rest, rest.length < ts.length → Comes S (f content) (g content) rest b) :
    Comes S (take k >>= f) (take k >>= g) ts b :=
  comes_bind (comes_take k) hf

/-- Both parsers come to the same end on all tokens for which a bound of eight calls for each of
them and `k` more lies within `fuel`.  A result takes a token at least, if `d` is zero. -/
def Come (S : List Token → Prop) (fuel k d : Nat) (x y : Parse α) : Prop :=
  ∀ ts, 8 * ts.length + k ≤ fuel → Comes S x y ts (ts.length + d)

/-! ## Expressions -/

/-- Never. -/
abbrev Nowhere (_ : List Token) : Prop := False

/-- Literals and lists of literals, which are read in terms of each other. -/
theorem values_come : ∀ {fuel fuel'}, fuel ≤ fuel' →
    Come Nowhere fuel 1 0 (value fuel) (value fuel') ∧
    Come Nowhere fuel 2 0 (values fuel) (values fuel')
  | 0, _, _ => ⟨fun _ h => absurd h (by omega), fun _ h => absurd h (by omega)⟩
  | fuel + 1, fuel' + 1, hle => by
    obtain ⟨hvalue, hvalues⟩ := values_come (Nat.le_of_succ_le_succ hle)
    constructor
    · intro ts hts
      rw [value, value]
      refine comes_current?_bind ?_
      cases ts with
      | nil => exact comes_throw (fun h => by cases h)
      | cons t ts =>
        have hlt : 8 * ts.length + 8 ≤ fuel := by
          simp only [List.length_cons] at hts
          omega
        simp only [List.head?_cons]
        split
        · refine comes_advance_bind (List.cons_ne_nil t ts) fun rest hrest => ?_
          refine comes_bind (hvalues rest ?_) fun _ _ h => comes_pure ?_ <;>
            simp only [List.length_cons] at * <;> omega
        · exact comes_take .number
        · exact comes_take .name
        · exact comes_take .string
        · exact comes_advance_bind (List.cons_ne_nil t ts) fun _ => comes_pure
        · exact comes_advance_bind (List.cons_ne_nil t ts) fun _ => comes_pure
        · exact comes_unexpected
    · intro ts hts
      rw [values, values]
      refine comes_current?_bind ?_
      cases ts with
      | nil => exact comes_unexpected
      | cons t ts =>
        simp only [List.head?_cons]
        refine comes_ite (comes_advance_bind (List.cons_ne_nil t ts) fun _ => comes_pure) ?_
        refine comes_bind (hvalue (t :: ts) (by omega)) fun first rest hrest => ?_
        have hmore (rest' : List Token) (hrest' : rest'.length ≤ rest.length) :
            Comes Nowhere (values fuel >>= fun more => pure (first :: more))
              (values fuel' >>= fun more => pure (first :: more)) rest' (t :: ts).length := by
          refine comes_bind (hvalues rest' (by omega)) fun _ _ h => comes_pure ?_
          omega
        refine comes_kind_bind fun u rest' hcons => comes_ite ?_ (hmore rest le_rfl)
        refine comes_advance_bind (hcons ▸ List.cons_ne_nil u rest') fun rest'' h => ?_
        exact hmore rest'' h.le

theorem value_comes {fuel fuel' : Nat} (hle : fuel ≤ fuel') :
    Come Nowhere fuel 1 0 (value fuel) (value fuel') :=
  (values_come hle).1

/-- What is read between two brackets, the second of kind `k`. -/
theorem comes_enclosed {fuel m : Nat} {x y : Parse Tree} {k : Kind} {f : Tree → Tree}
    (hx : Come Nowhere fuel m 0 x y) (hts : 8 * ts.length + m ≤ fuel) (hb : ts.length ≤ b) :
    Comes Nowhere (x >>= fun e => take k >>= fun _ => pure (f e))
      (y >>= fun e => take k >>= fun _ => pure (f e)) ts b := by
  refine comes_bind (hx ts hts) fun e rest hrest => ?_
  refine comes_take_bind fun _ rest' hrest' => comes_pure ?_
  omega

/-- Expressions come to an end: a primary, a whole expression, and the rest of a chain. -/
theorem expressions_come : ∀ {fuel fuel'}, fuel ≤ fuel' →
    Come Nowhere fuel 2 0 (primary fuel) (primary fuel') ∧
    Come Nowhere fuel 3 0 (expression fuel) (expression fuel') ∧
    ∀ left, Come Nowhere fuel 1 1 (chain fuel left) (chain fuel' left)
  | 0, _, _ =>
    ⟨fun _ h => absurd h (by omega), fun _ h => absurd h (by omega),
      fun _ _ h => absurd h (by omega)⟩
  | fuel + 1, fuel' + 1, hle => by
    have hle := Nat.le_of_succ_le_succ hle
    obtain ⟨hprimary, hexpression, hchain⟩ := expressions_come hle
    have hlength {ts : List Token} {b : Nat} (hts : 8 * ts.length ≤ fuel) (hb : ts.length ≤ b) :
        Comes Nowhere (take .lparen >>= fun _ => expression fuel >>= fun e =>
            take .rparen >>= fun _ => pure (Tree.length e))
          (take .lparen >>= fun _ => expression fuel' >>= fun e =>
            take .rparen >>= fun _ => pure (Tree.length e)) ts b :=
      comes_take_bind fun _ rest hrest => comes_enclosed hexpression (by omega) (by omega)
    refine ⟨fun ts hts => ?_, fun ts hts => ?_, fun left ts hts => ?_⟩
    · rw [primary, primary]
      refine comes_kind_bind fun t rest hcons => ?_
      have hne : ts ≠ [] := hcons ▸ List.cons_ne_nil t rest
      split
      · refine comes_advance_bind hne fun rest hrest => ?_
        exact comes_enclosed (f := id) hexpression (by omega) (by omega)
      · exact comes_advance_bind hne fun rest hrest => hlength (by omega) (by omega)
      · refine comes_take_bind fun name rest hrest => comes_sees_bind fun seen hseen => ?_
        split
        · refine comes_advance_bind (hseen ‹_›) fun rest' hrest' => ?_
          exact comes_enclosed hexpression (by omega) (by omega)
        · exact comes_pure hrest
      · exact value_comes hle ts (by omega)
    · rw [expression, expression]
      refine comes_kind_bind fun t rest hcons => ?_
      have hne : ts ≠ [] := hcons ▸ List.cons_ne_nil t rest
      split
      · exact comes_advance_bind hne fun rest hrest => hlength (by omega) (by omega)
      · refine comes_bind (hprimary ts (by omega)) fun left rest hrest => ?_
        exact (hchain left rest (by omega)).imp (fun _ h => h) hrest
    · rw [chain, chain]
      refine comes_current?_bind ?_
      cases ts with
      | nil => exact comes_pure (Nat.lt_succ_self _)
      | cons t ts =>
        simp only [List.head?_cons, Option.bind_some]
        split
        · refine comes_advance_bind (List.cons_ne_nil t ts) fun rest hrest => ?_
          refine comes_bind (hprimary rest (by omega)) fun right rest' hrest' => ?_
          exact (hchain _ rest' (by omega)).imp (fun _ h => h) (by omega)
        · exact comes_pure (Nat.lt_succ_self _)

theorem expression_comes {fuel fuel' : Nat} (hle : fuel ≤ fuel') :
    Come Nowhere fuel 3 0 (expression fuel) (expression fuel') :=
  (expressions_come hle).2.1

/-! ## Statements without blocks -/

theorem assignment_comes {fuel fuel' : Nat} (hle : fuel ≤ fuel') :
    Come Nowhere fuel 1 0 (assignment fuel) (assignment fuel') := by
  intro ts hts
  refine comes_take_bind fun name rest hrest => comes_kind_bind fun t rest' hcons => ?_
  have hright {f : Tree → Tree} : Comes Nowhere (advance >>= fun _ => expression fuel >>= fun e =>
      pure (f e)) (advance >>= fun _ => expression fuel' >>= fun e => pure (f e)) rest
      (ts.length + 0) := by
    refine comes_advance_bind (hcons ▸ List.cons_ne_nil t rest') fun rest hrest => ?_
    refine comes_bind (expression_comes hle rest (by omega)) fun e rest hrest => comes_pure ?_
    omega
  refine comes_ite hright ?_
  split
  · exact hright
  · exact comes_unexpected

theorem reverse_comes : Comes S reverse reverse ts ts.length :=
  comes_take_bind fun _ _ hrest => comes_take_bind fun _ _ hrest' =>
    comes_pure (hrest'.trans hrest)

theorem revtrace_comes {fuel fuel' : Nat} (hle : fuel ≤ fuel') :
    Come Nowhere fuel 1 0 (revtrace fuel) (revtrace fuel') := by
  intro ts hts
  refine comes_take_bind fun _ rest hrest => comes_take_bind fun name rest' hrest' => ?_
  refine comes_bind (expression_comes hle rest' (by omega)) fun e rest hrest => comes_pure ?_
  omega

theorem breakLoop_comes : Comes S breakLoop breakLoop ts ts.length :=
  comes_take_bind fun _ _ => comes_pure

theorem arguments_come : ∀ {fuel fuel'}, fuel ≤ fuel' →
    Come Nowhere fuel 1 1 (arguments fuel) (arguments fuel')
  | 0, _, _ => fun _ h => absurd h (by omega)
  | fuel + 1, fuel' + 1, hle => by
    intro ts hts
    have hle := Nat.le_of_succ_le_succ hle
    rw [arguments, arguments]
    refine comes_kind_bind fun t rest hcons => comes_ite ?_ (comes_pure (Nat.lt_succ_self _))
    refine comes_advance_bind (hcons ▸ List.cons_ne_nil t rest) fun rest hrest => ?_
    refine comes_bind (expression_comes hle rest (by omega)) fun e rest' hrest' => ?_
    refine comes_bind (arguments_come hle rest' (by omega)) fun _ _ h => comes_pure ?_
    omega

theorem print_comes {fuel fuel' : Nat} (hle : fuel ≤ fuel') :
    Come Nowhere fuel 1 0 (print fuel) (print fuel') := by
  intro ts hts
  refine comes_take_bind fun _ rest hrest => comes_take_bind fun _ rest' hrest' => ?_
  refine comes_bind (expression_comes hle rest' (by omega)) fun first rest h1 => ?_
  refine comes_bind (arguments_come hle rest (by omega)) fun more rest h2 => ?_
  refine comes_take_bind fun _ rest h3 => comes_pure ?_
  omega

/-- Further operands of a condition. -/
theorem conditionRest_comes : ∀ {fuel fuel'}, fuel ≤ fuel' → ∀ left,
    Come Nowhere fuel 1 1 (conditionRest fuel left) (conditionRest fuel' left)
  | 0, _, _, _ => fun _ h => absurd h (by omega)
  | fuel + 1, fuel' + 1, hle, left => by
    intro ts hts
    have hle := Nat.le_of_succ_le_succ hle
    rw [conditionRest, conditionRest]
    refine comes_current?_bind ?_
    cases ts with
    | nil => exact comes_pure (Nat.lt_succ_self _)
    | cons t ts =>
      refine comes_ite ?_ (comes_pure (Nat.lt_succ_self _))
      refine comes_advance_bind (List.cons_ne_nil t ts) fun rest hrest => ?_
      refine comes_bind (expression_comes hle rest (by omega)) fun right rest' hrest' => ?_
      exact (conditionRest_comes hle _ rest' (by omega)).imp (fun _ h => h) (by omega)

theorem condition_comes {fuel fuel' : Nat} (hle : fuel ≤ fuel') :
    Come Nowhere fuel 3 0 (condition fuel) (condition fuel') := by
  intro ts hts
  refine comes_bind (expression_comes hle ts hts) fun e rest hrest => ?_
  exact (conditionRest_comes hle e rest (by omega)).imp (fun _ h => h) hrest

theorem range_comes {fuel fuel' : Nat} (hle : fuel ≤ fuel') :
    Come Nowhere fuel 1 0 (range fuel) (range fuel') := by
  intro ts hts
  have hclose {a : Tree} {rest : List Token} (hrest : rest.length < ts.length) :
      Comes Nowhere (take .rparen >>= fun _ => pure a) (take .rparen >>= fun _ => pure a) rest
        (ts.length + 0) :=
    comes_take_bind fun _ rest hrest => comes_pure (by omega)
  refine comes_take_bind fun _ rest h1 => comes_take_bind fun _ rest h2 => ?_
  refine comes_bind (expression_comes hle rest (by omega)) fun first rest h3 => ?_
  refine comes_kind_bind fun t rest' hcons => comes_ite ?_ (hclose (by omega))
  refine comes_advance_bind (hcons ▸ List.cons_ne_nil t rest') fun rest h4 => ?_
  refine comes_bind (expression_comes hle rest (by omega)) fun second rest h5 => ?_
  refine comes_kind_bind fun t rest' hcons => comes_ite ?_ (hclose (by omega))
  refine comes_advance_bind (hcons ▸ List.cons_ne_nil t rest') fun rest h6 => ?_
  refine comes_bind (expression_comes hle rest (by omega)) fun third rest h7 => ?_
  exact hclose (by omega)

theorem iterable_comes {fuel fuel' : Nat} (hle : fuel ≤ fuel') :
    Come Nowhere fuel 3 0 (iterable fuel) (iterable fuel') := by
  intro ts hts
  refine comes_kind_bind fun t rest hcons => ?_
  split
  · exact value_comes hle ts (by omega)
  · exact range_comes hle ts (by omega)
  · exact expression_comes hle ts hts

/-! ## Blocks -/

/-- Where the bound never runs out, it does not at stray names either. -/
theorem Come.comes {fuel k d : Nat} {x y : Parse α} (h : Come Nowhere fuel k d x y)
    (hts : 8 * ts.length + k ≤ fuel) (hb : ts.length + d ≤ b) : Comes S x y ts b :=
  (h ts hts).imp (fun _ hrest => hrest.elim) hb

/-- At a stray name nothing is read. -/
theorem statement_of_stray (hts : Stray ts) (fuel : Nat) :
    statement (fuel + 1) ts = .ok .none ts := by
  match ts, hts with
  | t :: u :: ts, ⟨ht, hu, hlparen⟩ =>
    rw [statement, bind_of_ok (kind_cons ..), ht]
    show (nextKind >>= _) (t :: u :: ts) = _
    rw [bind_of_ok (nextKind_cons ..), hu, beq_false_of_ne hlparen]
    rfl

/-- Statements that come to a stray name go on with it for ever. -/
theorem statements_of_stray {stops : List Kind} (hstops : Ends stops) (hts : Stray ts)
    (fuel : Nat) : statements stops fuel ts = .error .outOfFuel ts := by
  have hfirst := statement_of_stray hts
  match ts, hts with
  | t :: u :: ts, ⟨ht, _, _⟩ =>
    have hsees : sees .newline (t :: u :: ts) = .ok false (t :: u :: ts) := by
      rw [sees_cons, ht]
      rfl
    induction fuel with
    | zero => rfl
    | succ fuel ih =>
      rw [statements, bind_of_ok (current?_apply _)]
      simp only [List.head?_cons, ht, hstops.1, Bool.false_eq_true, if_false]
      cases fuel with
      | zero => rfl
      | succ fuel =>
        rw [bind_of_ok (hfirst fuel), bind_of_ok hsees]
        show (statements stops (fuel + 1) >>= _) (t :: u :: ts) = _
        rw [bind_apply, ih]

/-- The parsers of statements and blocks with the bounds `fuel` and `fuel'`.  Of a statement the
case of a stray name is left out, where it takes no token. -/
structure BlocksCome (fuel fuel' : Nat) : Prop where
  le : fuel ≤ fuel'
  statement : ∀ ts, ¬Stray ts → 8 * ts.length + 4 ≤ fuel →
    Comes Stray (statement fuel) (statement fuel') ts ts.length
  statements : ∀ {stops}, Ends stops →
    Come Stray fuel 5 1 (statements stops fuel) (statements stops fuel')
  block : Come Stray fuel 6 1 (block fuel) (block fuel')
  branch : Come Stray fuel 1 0 (branch fuel) (branch fuel')
  elifBranches : Come Stray fuel 1 1 (elifBranches fuel) (elifBranches fuel')
  forLoop : Come Stray fuel 1 0 (forLoop fuel) (forLoop fuel')
  whileLoop : Come Stray fuel 1 0 (whileLoop fuel) (whileLoop fuel')

namespace BlocksCome

theorem zero (fuel' : Nat) : BlocksCome 0 fuel' where
  le := Nat.zero_le fuel'
  statement _ _ h := absurd h (by omega)
  statements _ _ h := absurd h (by omega)
  block _ h := absurd h (by omega)
  branch _ h := absurd h (by omega)
  elifBranches _ h := absurd h (by omega)
  forLoop _ h := absurd h (by omega)
  whileLoop _ h := absurd h (by omega)

variable {fuel fuel' : Nat} (hblocks : BlocksCome fuel fuel')
include hblocks

/-- One statement, from the parsers with a bound that is less by one. -/
theorem statement_succ (hstray : ¬Stray ts) (hts : 8 * ts.length + 4 ≤ fuel + 1) :
    Comes Stray (Grammar.statement (fuel + 1)) (Grammar.statement (fuel' + 1)) ts ts.length := by
  rw [Grammar.statement, Grammar.statement]
  refine comes_kind_bind fun t rest hcons => ?_
  subst hcons
  split
  · next ht =>
    refine comes_nextKind_bind fun t' u rest' hcons => ?_
    cases hcons
    split
    · exact (assignment_comes hblocks.le).comes (by omega) le_rfl
    · next hassign =>
      split
      · exact (expression_comes hblocks.le).comes (by omega) le_rfl
      · next hlparen => exact absurd ⟨ht, by simpa using hassign, by simpa using hlparen⟩ hstray
  · exact (value_comes hblocks.le).comes (by omega) le_rfl
  · exact comes_nextKind_bind fun _ _ _ _ => comes_ite reverse_comes comes_unexpected
  · exact (revtrace_comes hblocks.le).comes (by omega) le_rfl
  · exact hblocks.branch _ (by omega)
  · exact hblocks.forLoop _ (by omega)
  · exact hblocks.whileLoop _ (by omega)
  · exact (print_comes hblocks.le).comes (by omega) le_rfl
  · exact breakLoop_comes
  · exact comes_unexpected

/-- Statements up to the end of a block. -/
theorem statements_succ {stops : List Kind} (hstops : Ends stops) :
    Come Stray (fuel + 1) 5 1 (Grammar.statements stops (fuel + 1))
      (Grammar.statements stops (fuel' + 1)) := by
  intro ts hts
  by_cases hstray : Stray ts
  · -- a stray name is refused where it stands, whatever the fuel is
    have h := statements_of_stray hstops hstray
    constructor
    · rw [h, h]
    · intro a rest hok
      cases (h _).symm.trans hok
    · intro e rest herror
      cases (h _).symm.trans herror
      exact ⟨List.suffix_rfl, fun _ => hstray⟩
  · rw [Grammar.statements, Grammar.statements]
    refine comes_current?_bind ?_
    cases ts with
    | nil => exact comes_pure (Nat.lt_succ_self _)
    | cons t ts =>
      refine comes_ite (comes_pure (Nat.lt_succ_self _)) ?_
      refine comes_bind (hblocks.statement _ hstray (by omega)) fun first rest hrest => ?_
      have hmore (rest' : List Token) (hrest' : rest'.length ≤ rest.length) :
          Comes Stray (Grammar.statements stops fuel >>= fun more => pure (first :: more))
            (Grammar.statements stops fuel' >>= fun more => pure (first :: more)) rest'
            ((t :: ts).length + 1) := by
        refine comes_bind (hblocks.statements hstops rest' (by omega)) fun _ _ h => comes_pure ?_
        omega
      refine comes_sees_bind fun seen hseen => ?_
      split
      · exact comes_advance_bind (hseen ‹_›) fun rest' h => hmore rest' h.le
      · exact hmore rest le_rfl

theorem block_succ :
    Come Stray (fuel + 1) 6 1 (Grammar.block (fuel + 1)) (Grammar.block (fuel' + 1)) := by
  intro ts hts
  rw [Grammar.block, Grammar.block]
  refine comes_kind_bind fun t rest hcons => ?_
  have hne : ts ≠ [] := hcons ▸ List.cons_ne_nil t rest
  have henclosed {stops : List Kind} {k : Kind} (hstops : Ends stops) :
      Comes Stray (advance >>= fun _ => Grammar.statements stops fuel >>= fun body =>
          take k >>= fun _ => pure body)
        (advance >>= fun _ => Grammar.statements stops fuel' >>= fun body =>
          take k >>= fun _ => pure body) ts (ts.length + 1) := by
    refine comes_advance_bind hne fun rest h1 => ?_
    refine comes_bind (hblocks.statements hstops rest (by omega)) fun body rest h2 => ?_
    exact comes_take_bind fun _ rest h3 => comes_pure (by omega)
  split
  · exact henclosed ⟨rfl, rfl⟩
  · exact henclosed ⟨rfl, rfl⟩
  · exact hblocks.statements ⟨rfl, rfl⟩ ts (by omega)

theorem branch_succ :
    Come Stray (fuel + 1) 1 0 (Grammar.branch (fuel + 1)) (Grammar.branch (fuel' + 1)) := by
  intro ts hts
  rw [Grammar.branch, Grammar.branch]
  refine comes_take_bind fun _ rest h1 => ?_
  refine comes_bind ((condition_comes hblocks.le).comes (by omega) le_rfl) fun test rest h2 => ?_
  refine comes_take_bind fun _ rest h3 => ?_
  refine comes_bind (hblocks.block rest (by omega)) fun yes rest h4 => ?_
  refine comes_bind (hblocks.elifBranches rest (by omega)) fun elifs rest h5 => ?_
  refine comes_sees_bind fun seen hseen => ?_
  split
  · refine comes_advance_bind (hseen ‹_›) fun rest h6 => comes_take_bind fun _ rest h7 => ?_
    refine comes_bind (hblocks.block rest (by omega)) fun no rest h8 => comes_pure ?_
    omega
  · exact comes_pure (by omega)

theorem elifBranches_succ : Come Stray (fuel + 1) 1 1 (Grammar.elifBranches (fuel + 1))
    (Grammar.elifBranches (fuel' + 1)) := by
  intro ts hts
  rw [Grammar.elifBranches, Grammar.elifBranches]
  refine comes_sees_bind fun seen hseen => ?_
  split
  · refine comes_advance_bind (hseen ‹_›) fun rest h1 => ?_
    refine comes_bind ((expression_comes hblocks.le).comes (by omega) le_rfl) fun test rest h2 => ?_
    refine comes_take_bind fun _ rest h3 => ?_
    refine comes_bind (hblocks.block rest (by omega)) fun body rest h4 => ?_
    refine comes_bind (hblocks.elifBranches rest (by omega)) fun elifs rest h5 => comes_pure ?_
    omega
  · exact comes_pure (Nat.lt_succ_self _)

theorem forLoop_succ :
    Come Stray (fuel + 1) 1 0 (Grammar.forLoop (fuel + 1)) (Grammar.forLoop (fuel' + 1)) := by
  intro ts hts
  rw [Grammar.forLoop, Grammar.forLoop]
  refine comes_take_bind fun _ rest h1 => comes_take_bind fun name rest h2 => ?_
  refine comes_take_bind fun _ rest h3 => ?_
  refine comes_bind ((iterable_comes hblocks.le).comes (by omega) le_rfl) fun source rest h4 => ?_
  refine comes_take_bind fun _ rest h5 => ?_
  refine comes_bind (hblocks.block rest (by omega)) fun body rest h6 => comes_pure ?_
  omega

theorem whileLoop_succ :
    Come Stray (fuel + 1) 1 0 (Grammar.whileLoop (fuel + 1)) (Grammar.whileLoop (fuel' + 1)) := by
  intro ts hts
  rw [Grammar.whileLoop, Grammar.whileLoop]
  refine comes_take_bind fun _ rest h1 => ?_
  refine comes_bind ((expression_comes hblocks.le).comes (by omega) le_rfl) fun test rest h2 => ?_
  have hbody (rest' : List Token) (hrest' : rest'.length ≤ rest.length) :
      Comes Stray (Grammar.block fuel >>= fun body => pure (Tree.whileLoop test body))
        (Grammar.block fuel' >>= fun body => pure (Tree.whileLoop test body)) rest'
        (ts.length + 0) := by
    refine comes_bind (hblocks.block rest' (by omega)) fun body rest h3 => comes_pure ?_
    omega
  refine comes_kind_bind fun t rest' hcons => ?_
  split
  · exact comes_advance_bind (hcons ▸ List.cons_ne_nil t rest') fun rest' h => hbody rest' h.le
  · exact hbody rest le_rfl
  · exact comes_unexpected

theorem succ : BlocksCome (fuel + 1) (fuel' + 1) where
  le := Nat.succ_le_succ hblocks.le
  statement _ := hblocks.statement_succ
  statements := hblocks.statements_succ
  block := hblocks.block_succ
  branch := hblocks.branch_succ
  elifBranches := hblocks.elifBranches_succ
  forLoop := hblocks.forLoop_succ
  whileLoop := hblocks.whileLoop_succ

end BlocksCome

/-- All parsers of statements, for any two bounds. -/
theorem blocksCome : ∀ {fuel fuel'}, fuel ≤ fuel' → BlocksCome fuel fuel'
  | 0, fuel', _ => .zero fuel'
  | _ + 1, _ + 1, hle => (blocksCome (Nat.le_of_succ_le_succ hle)).succ

/-! ## Programs -/

/-- A statement in front of a program. -/
theorem comes_cons {x y : Parse Tree} {z w : Parse (List Tree)} {fuel : Nat}
    (hx : Comes S x y ts ts.length) (hz : Come S fuel 2 1 z w) (hts : 8 * ts.length ≤ fuel + 1) :
    Comes S (x >>= fun first => z >>= fun rest => pure (first :: rest))
      (y >>= fun first => w >>= fun rest => pure (first :: rest)) ts (ts.length + 1) := by
  refine comes_bind hx fun first rest h1 => ?_
  refine comes_bind (hz rest (by omega)) fun more rest h2 => comes_pure ?_
  omega

/-- A program, by the number of its statements. -/
theorem program_comes : ∀ {fuel fuel'}, fuel ≤ fuel' →
    Come Stray fuel 2 1 (program fuel) (program fuel')
  | 0, _, _ => fun _ h => absurd h (by omega)
  | fuel + 1, fuel' + 1, hle => by
    intro ts hts
    have hle := Nat.le_of_succ_le_succ hle
    have hblocks := blocksCome hle
    have hrest := program_comes hle
    rw [program, program]
    refine comes_current?_bind ?_
    cases ts with
    | nil => exact comes_pure (Nat.lt_succ_self _)
    | cons t ts =>
      simp only [List.head?_cons]
      split
      · refine comes_advance_bind (List.cons_ne_nil t ts) fun rest h1 => ?_
        refine comes_bind (hblocks.block rest (by omega)) fun body rest h2 => ?_
        refine comes_take_bind fun _ rest h3 => ?_
        refine comes_bind (hrest rest (by omega)) fun more rest h4 => comes_pure ?_
        omega
      · refine comes_nextKind_bind fun _ _ _ _ => comes_ite ?_ comes_unexpected
        exact comes_cons ((assignment_comes hle).comes (by omega) le_rfl) hrest (by omega)
      · exact comes_cons reverse_comes hrest (by omega)
      · exact comes_cons ((revtrace_comes hle).comes (by omega) le_rfl) hrest (by omega)
      · exact comes_cons (hblocks.branch _ (by omega)) hrest (by omega)
      · exact comes_cons (hblocks.forLoop _ (by omega)) hrest (by omega)
      · exact comes_cons (hblocks.whileLoop _ (by omega)) hrest (by omega)
      · exact comes_cons ((print_comes hle).comes (by omega) le_rfl) hrest (by omega)
      · exact comes_unexpected

/-! ## The end -/

/-- The parser comes to an end: with every bound that suffices for the tokens there is the same
result or the same fault, and the bound is not used up. -/
def Halts (p : Nat → Parse α) (ts : List Token) : Prop :=
  ∃ r, (∀ fuel, enough ts ≤ fuel → p fuel ts = r) ∧ ∀ rest, r ≠ .error .outOfFuel rest

/-- The parser never comes to an end: every such bound is used up before one and the same stray
name. -/
def Hangs (p : Nat → Parse α) (ts : List Token) : Prop :=
  ∃ rest, rest <:+ ts ∧ Stray rest ∧ ∀ fuel, enough ts ≤ fuel → p fuel ts = .error .outOfFuel rest

/-- Either the result is the same for all bounds that suffice, or they all run out at the same stray
name. -/
theorem halts_or_hangs {p : Nat → Parse α}
    (h : ∀ fuel, enough ts ≤ fuel → Comes Stray (p (enough ts)) (p fuel) ts b) :
    Halts p ts ∨ Hangs p ts := by
  have hsame (fuel : Nat) (hfuel : enough ts ≤ fuel) : p fuel ts = p (enough ts) ts :=
    (h fuel hfuel).same.symm
  by_cases hout : ∃ rest, p (enough ts) ts = .error .outOfFuel rest
  · obtain ⟨rest, hrest⟩ := hout
    obtain ⟨hsuffix, hstray⟩ := (h _ le_rfl).error hrest
    exact .inr ⟨rest, hsuffix, hstray rfl, fun fuel hfuel => (hsame fuel hfuel).trans hrest⟩
  · exact .inl ⟨_, hsame, fun rest hrest => hout ⟨rest, hrest⟩⟩

/-- The bound that suffices for the tokens tells whether the parser comes to an end. -/
theorem halts_of_run {p : Nat → Parse α} (h : Halts p ts ∨ Hangs p ts)
    (hrun : ∀ rest, run p ts ≠ .error .outOfFuel rest) : Halts p ts := by
  rcases h with h | ⟨rest, -, -, hout⟩
  · exact h
  · exact absurd (hout _ le_rfl) (hrun rest)

/-- One run out of its bound at the tokens tells of all. -/
theorem hangs_of_run {p : Nat → Parse α} {rest : List Token} (h : Halts p ts ∨ Hangs p ts)
    (hrun : run p ts = .error .outOfFuel rest) : Hangs p ts := by
  rcases h with ⟨r, hr, hne⟩ | h
  · exact absurd ((hr _ le_rfl).symm.trans hrun) (hne rest)
  · exact h

theorem program_halts_or_hangs (ts : List Token) : Halts program ts ∨ Hangs program ts :=
  halts_or_hangs fun _ hfuel => program_comes hfuel ts (by rw [enough]; omega)

theorem block_halts_or_hangs (ts : List Token) : Halts block ts ∨ Hangs block ts :=
  halts_or_hangs fun _ hfuel => (blocksCome hfuel).block ts (by rw [enough]; omega)

theorem statement_comes (hstray : ¬Stray ts) {fuel fuel' : Nat} (hfuel : enough ts ≤ fuel)
    (hle : fuel ≤ fuel') : Comes Stray (statement fuel) (statement fuel') ts ts.length :=
  (blocksCome hle).statement ts hstray (by rw [enough] at hfuel; omega)

/-- **Reading tokens comes to an end unless a block comes to a stray name.**

A program or a block is read, or refused, with one and the same outcome whatever the bound on the
depth of calls is, if it suffices for the tokens; or else it is before a stray name that every such
bound is used up.  The same holds of a statement, and one that is read takes a token at least,
unless it stands at such a name itself: there it takes none, and no list of statements comes past
that name. -/
theorem ends_unless_stray (ts : List Token) :
    (Halts program ts ∨ Hangs program ts) ∧ (Halts block ts ∨ Hangs block ts) ∧
    (¬Stray ts → (Halts statement ts ∨ Hangs statement ts) ∧ ∀ fuel, enough ts ≤ fuel →
      ∀ tree rest, statement fuel ts = .ok tree rest → rest <:+ ts ∧ rest.length < ts.length) ∧
    (Stray ts → ∀ fuel, statement (fuel + 1) ts = .ok .none ts ∧
      ∀ stops, Ends stops → statements stops fuel ts = .error .outOfFuel ts) := by
  refine ⟨program_halts_or_hangs ts, block_halts_or_hangs ts, fun hstray => ⟨?_, ?_⟩,
    fun hstray fuel => ⟨statement_of_stray hstray fuel, ?_⟩⟩
  · exact halts_or_hangs fun _ hfuel => statement_comes hstray le_rfl hfuel
  · intro fuel hfuel tree rest h
    exact (statement_comes hstray hfuel le_rfl).ok h
  · intro stops hstops
    exact statements_of_stray hstops hstray fuel

/-- Tokens of a loop with a branch in it that breaks off after an `else`. -/
def brokenOff : List Token :=
  [⟨.forWord, .text "for", 1, 0⟩, ⟨.name, .text "i", 1, 4⟩, ⟨.inWord, .text "in", 1, 6⟩,
   ⟨.lbracket, .text "[", 1, 9⟩, ⟨.number, .int 1, 1, 10⟩, ⟨.rbracket, .text "]", 1, 11⟩,
   ⟨.colon, .text ":", 1, 12⟩, ⟨.indent, .int 4, 2, 0⟩, ⟨.ifWord, .text "if", 2, 4⟩,
   ⟨.name, .text "i", 2, 7⟩, ⟨.colon, .text ":", 2, 8⟩, ⟨.lbrace, .text "\x7b", 2, 10⟩,
   ⟨.name, .text "x", 2, 12⟩, ⟨.assign, .text "=", 2, 14⟩, ⟨.number, .int 2, 2, 16⟩,
   ⟨.rbrace, .text "\x7d", 2, 18⟩, ⟨.elseWord, .text "else", 2, 20⟩]

/-- A loop that breaks off inside of a condition is refused at the end of the tokens. -/
theorem ends_unless_stray_brokenOff : ¬Stray brokenOff ∧ Halts program brokenOff ∧
    Halts statement brokenOff ∧ run program brokenOff = .error (.unexpected none) [] := by
  obtain ⟨hprogram, -, hstatement, -⟩ := ends_unless_stray brokenOff
  have hstray : ¬Stray brokenOff := nofun
  have hrun : run program brokenOff = .error (.unexpected none) [] := by cbv
  have hrun' : run statement brokenOff = .error (.unexpected none) [] := by cbv
  refine ⟨hstray, halts_of_run hprogram ?_, halts_of_run (hstatement hstray).1 ?_, hrun⟩
  · rw [hrun]
    intro rest h
    cases h
  · rw [hrun']
    intro rest h
    cases h

/-- A name before a number. -/
def strayName : List Token :=
  [⟨.name, .text "x", 1, 0⟩, ⟨.number, .int 1, 1, 2⟩]

/-- Tokens of a branch whose block starts with such a name. -/
def strayInBranch : List Token :=
  [⟨.ifWord, .text "if", 1, 0⟩, ⟨.number, .int 1, 1, 3⟩, ⟨.colon, .text ":", 1, 4⟩] ++ strayName

set_option maxRecDepth 2000 in
/-- The parser of one statement may neither fail nor take a token, and then a program never comes
to its end. -/
theorem statement_takes_nothing :
    run statement strayName = .ok .none strayName ∧ Hangs program strayInBranch := by
  have hrun : run program strayInBranch = .error .outOfFuel strayName := by cbv
  exact ⟨by cbv, hangs_of_run (program_halts_or_hangs _) hrun⟩

/-! ## Progress -/

/-- The parser ends on the tokens, in one way whatever the bound on the depth of calls is, if it
suffices for them: with a result, and then fewer than `b` of them remain; or with a fault, which is
not that the bound is used up. -/
def Settles (p : Nat → Parse α) (ts : List Token) (b : Nat) : Prop :=
  ∃ r, (∀ fuel, enough ts ≤ fuel → p fuel ts = r) ∧
    ((∃ a rest, r = .ok a rest ∧ rest <:+ ts ∧ rest.length < b) ∨
      ∃ e rest, r = .error e rest ∧ rest <:+ ts ∧ e ≠ .outOfFuel)

theorem settles_of_comes {p : Nat → Parse α}
    (h : ∀ fuel, enough ts ≤ fuel → Comes Nowhere (p (enough ts)) (p fuel) ts b) :
    Settles p ts b := by
  refine ⟨p (enough ts) ts, fun fuel hfuel => (h fuel hfuel).same.symm, ?_⟩
  have hends := h _ le_rfl
  cases hr : p (enough ts) ts with
  | ok a rest => exact .inl ⟨a, rest, rfl, hends.ok hr⟩
  | error e rest => exact .inr ⟨e, rest, rfl, hends.error hr⟩

/-- **Expressions are always read to an end, and reading one makes progress.**

On all tokens a value, the items of a list, a primary and an expression are read, and then a token
at least is taken, or refused.  The rest of a chain ends as well, though it may be empty. -/
theorem expressions_settle (ts : List Token) :
    Settles value ts ts.length ∧ Settles values ts ts.length ∧
      Settles primary ts ts.length ∧ Settles expression ts ts.length ∧
      ∀ left, Settles (fun fuel => chain fuel left) ts (ts.length + 1) := by
  have hts : 8 * ts.length + 3 ≤ enough ts := by
    rw [enough]
    omega
  refine ⟨settles_of_comes fun _ hle => ?_, settles_of_comes fun _ hle => ?_,
    settles_of_comes fun _ hle => ?_, settles_of_comes fun _ hle => ?_,
    fun left => settles_of_comes fun _ hle => ?_⟩
  · exact (values_come hle).1 ts (by omega)
  · exact (values_come hle).2 ts (by omega)
  · exact (expressions_come hle).1 ts (by omega)
  · exact (expressions_come hle).2.1 ts hts
  · exact (expressions_come hle).2.2 left ts (by omega)

end Grammar
end Retrace
