import Mathlib

/-!
# The library

Some proofs evaluate a closed program, to show that what was proved of all programs is met by one.
An evaluation goes by the equations of all functions on its way, down to those of the library on
texts, bytes and states.  These equations belong to the library, but not to a part of it that has
anything to do with programs.

So the modules in which closed programs are evaluated import the library as a whole, from here, and
all others import the parts that they use.
-/
