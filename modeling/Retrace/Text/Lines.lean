/-!
# Ends of lines

Program files may end their lines in three ways.  They are read as if every line ended with a line
feed alone.
-/

set_option autoImplicit false
namespace Retrace
namespace Text
namespace Lines

/-- The characters with every end of a line as a single line feed. -/
def unify : List Char → List Char
  | [] => []
  | '\r' :: '\n' :: rest => '\n' :: unify rest
  | '\r' :: rest => '\n' :: unify rest
  | c :: rest => c :: unify rest

/-- The text with every end of a line as a single line feed. -/
def unified (s : String) : String :=
  String.ofList (unify s.toList)

end Lines
end Text
end Retrace
