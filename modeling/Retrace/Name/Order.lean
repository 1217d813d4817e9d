import Retrace.Name
import Retrace.Table
import Retrace.Value.Order

/-!
# The order of names

The variables of a running program are kept in a table that is ordered by their names.  Such a table
asks of its keys that they can be compared with each other, and refuses one that cannot.  That is a
need of the table, stated by those who provide it, and no rule of the language: no statement asks
whether a name has a place.  It is modelled because a program can come to it, if a list of literals
stands as a statement and names a variable by a number.

A new name is compared with the last one that is there, and if it comes before that one, its place
is searched by halving.  Texts can always be compared with each other, so a program that names its
variables by texts never meets a refusal.

* `Name.less`: does a name come before another one?
* `Name.findPlace`: does the table take a name in, among those that it has?
-/

set_option autoImplicit false
namespace Retrace
namespace Name

/-- Does a name come before another one? -/
def less (a b : Name) : Except Fault Bool :=
  (View.ofTree a.tree).order .lt (View.ofTree b.tree)

/-- Does a name come before another one?  Names that cannot be compared do not. -/
def precedes (a b : Name) : Bool :=
  match less a b with
  | .ok b => b
  | .error _ => false

/-- Searches the place of a name between two places, in at most `n` halvings. -/
def searchWithin (names : Array Name) (new : Name) : Nat → Nat → Nat → Except Fault Unit
  | 0, _, _ => .ok ()
  | n + 1, lo, hi =>
    if lo < hi then
      let mid := (lo + hi) / 2
      match names[mid]? with
      | some name => do
        if ← less new name then searchWithin names new n lo mid
        else searchWithin names new n (mid + 1) hi
      | none => .ok ()
    else .ok ()

/-- Searches the place of a new name among names in their order. -/
def search (names : Array Name) (new : Name) : Except Fault Unit :=
  match names.back? with
  | some last => do
    if ← less new last then searchWithin names new names.size 0 names.size
  | none => .ok ()

/-- Can a name be entered in a table?  It can if it is there, and if it has a place there. -/
def findPlace {α : Type} (t : Table Name α) (new : Name) : Except Fault Unit :=
  match t.entries with
  | [] => .ok ()
  | (first, _) :: _ =>
    if first.text?.isSome && new.text?.isSome then .ok ()
    else if t.contains new then .ok ()
    else search (t.sortedBy precedes |>.map Prod.fst).toArray new

end Name
end Retrace
