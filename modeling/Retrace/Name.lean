import Retrace.Number.Binary64.Arithmetic
import Retrace.Tree.Shape

/-!
# Names

A variable is named by a tree.  In a program as it is written that is a text, but a tree that was
built by hand may name its variables by anything that does not hold a list.  Two trees name the
same variable if they are equal, and numbers are equal if they have the same value: a truth value
names what its number names, and so does a real number that is whole.

* `Name.ofTree`: the name that a tree gives.
* `Name.ofText`: the name that a text gives.
* `Name.Key`: what equal names have in common.
-/

set_option autoImplicit false
namespace Retrace
namespace Name

/-- What equal names have in common: a text, or a writing that stands for all equal trees of
another sort. -/
inductive Key where
  | text (s : String)
  | written (code : String)
deriving DecidableEq, Inhabited, Repr

mutual

/-- Writes a tree behind a text so that equal trees, and no others, are written alike. -/
def write (out : String) : Tree → String
  | .none => out ++ "-"
  | .bool b => out ++ (if b then "1" else "0")
  | .int n => out ++ toString n
  | .float x =>
    match x.whole? with
    | some n => out ++ toString n
    | Option.none => out ++ "#" ++ toString x.bits.toNat
  | .text s => out ++ Text.Quoted.quote s
  | .list items => writeItems (out ++ "[") items ++ "]"
  | .tuple items => writeItems (out ++ "(") items ++ ")"
  | .thunk id => out ++ "@" ++ toString id

/-- Writes trees behind a text, each with a comma behind it. -/
def writeItems (out : String) : List Tree → String
  | [] => out
  | x :: rest => writeItems (write out x ++ ",") rest

end

mutual

/-- Does a list stand in the tree, at its root or inside of tuples?  Such a tree names nothing. -/
def hasList : Tree → Bool
  | .list _ => true
  | .tuple xs => hasListItem xs
  | _ => false

/-- Does a list stand in one of the trees? -/
def hasListItem : List Tree → Bool
  | [] => false
  | x :: rest => hasList x || hasListItem rest

end
end Name

/-- The name of a variable: the tree that gives it, and what it has in common with equal names. -/
structure Name where
  tree : Tree
  key : Name.Key
deriving Inhabited, Repr

namespace Name

/-- Names are equal if their keys are. -/
instance : BEq Name := ⟨fun a b => a.key == b.key⟩

instance : EquivBEq Name where
  rfl {a} := beq_self_eq_true a.key
  symm {a b} h := by
    have h : a.key = b.key := eq_of_beq h
    show (b.key == a.key) = true
    exact beq_iff_eq.2 h.symm
  trans {a b c} h k := by
    have h : a.key = b.key := eq_of_beq h
    have k : b.key = c.key := eq_of_beq k
    show (a.key == c.key) = true
    exact beq_iff_eq.2 (h.trans k)

/-- The name that a text gives. -/
def ofText (s : String) : Name :=
  ⟨.text s, .text s⟩

/-- The name that a tree gives to a variable. -/
def ofTree : Tree → Except Fault Name
  | .text s => .ok (ofText s)
  | t => if hasList t then .error (.unhashable "list") else .ok ⟨t, .written (write "" t)⟩

/-- The text of a name that is one. -/
def text? (n : Name) : Option String :=
  match n.tree with
  | .text s => some s
  | _ => none

end Name
end Retrace
