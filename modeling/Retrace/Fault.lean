import Retrace.Token

/-!
# Faults

Everything that can stop the reading, the checking or the running of a program.  A fault is a
cause; its wording is in one place, `Fault.message`.

* `CheckFault`: what the checker objects to.
* `ExecFault`: what a running program does not know how to carry out.
* `FormatFault`: what can go wrong when a text is filled in.
* `Fault`: all causes, and `Fault.message`.
-/

set_option autoImplicit false
namespace Retrace

/-- What the checker objects to. -/
inductive CheckFault where
  | unknownForm (tag : Tree)
  | undeclared (name : Tree)
  | notABranch
  | badItem (item : Tree)
  | badTuple (t : Tree)
  | badSort (typeName : String)
deriving BEq, Repr, Inhabited

/-- What a running program does not know how to carry out. -/
inductive ExecFault where
  | unknownForm (tag : Tree)
  | unknownOperator (op : Tree)
  | notIndexable (shown : String)
  | noLength (typeName : String)
  | badTuple (t : Tree)
  | badExpression (t : Tree)
  | notIterable (t : Tree)
deriving BEq, Repr, Inhabited

/-- What can go wrong when the places of a text are filled in. -/
inductive FormatFault where
  | tooFewArguments
  | tooManyArguments
  | needsMapping
  | widthNotInteger
  | integerRequired (conversion : Char) (typeName : String)
  | numberRequired (conversion : Char) (typeName : String)
  | realRequired (typeName : String)
  | characterRequired
  | characterRange
  | unknownConversion (conversion : Nat) (position : Nat)
  | incomplete
  | incompleteKey
  | widthTooBig
  | precisionTooBig
  | precisionTooLarge
  | widthOverflow
  | precisionOverflow
deriving BEq, Repr, Inhabited

/-- A cause that stops the reading, the checking or the running of a program. -/
inductive Fault where
  /-- A character that starts no token. -/
  | strayCharacter (c : Char) (line column : Nat)
  /-- A numeral with more digits than are read. -/
  | longNumeral (digits : Nat)
  /-- A token, or the end of the tokens, where none of its kind can stand. -/
  | unexpected (token : Option Token)
  /-- The tokens end where a value should stand. -/
  | endOfTokens
  /-- An objection of the checker. -/
  | check (cause : CheckFault)
  /-- A step that cannot be carried out. -/
  | exec (cause : ExecFault)
  /-- An item was asked of something that has none. -/
  | notSubscriptable (typeName : String)
  /-- Something that is no sequence was gone through. -/
  | notIterable (typeName : String)
  /-- Something that is no sequence was gone through backwards. -/
  | notReversible (typeName : String)
  /-- Something that is no sequence was taken apart. -/
  | notUnpackable (typeName : String)
  /-- A sequence that was taken apart is too short. -/
  | tooFewItems (expected got : Nat)
  /-- A sequence that was taken apart is too long. -/
  | tooManyItems (expected : Nat)
  /-- An item was asked for beyond the ends of a sequence. -/
  | outOfRange (sequence : String)
  /-- Something that cannot serve as a name. -/
  | unhashable (typeName : String)
  /-- A thunk stands where an expression should. -/
  | thunkAsExpression
  /-- A name that is not bound. -/
  | unbound (name : Tree)
  /-- Something else stands where a thunk should. -/
  | notAThunk (typeName : String)
  /-- An operator does not apply to operands of these sorts. -/
  | unsupported (symbol left right : String)
  /-- Values of these sorts are not ordered. -/
  | unordered (symbol left right : String)
  /-- A text or a list was joined with something else. -/
  | notConcatenable (left right : String)
  /-- A text or a list was repeated by something that is no number. -/
  | notRepeatable (typeName : String)
  /-- A text or a list was repeated too often. -/
  | hugeRepetition
  /-- A text repeated would be longer than any text can be. -/
  | longText
  /-- A text or a list repeated would be larger than the memory. -/
  | outOfMemory
  /-- A position is too large for any list. -/
  | hugeIndex
  /-- A position that is no number. -/
  | badIndex (typeName : String)
  /-- A compound assignment to something that is no number. -/
  | notAnInteger (typeName : String)
  /-- A compound assignment of something that is no number. -/
  | wrongOperand
  /-- A text could not be filled in. -/
  | format (cause : FormatFault)
  /-- A division of whole numbers by zero. -/
  | divisionByZero
  /-- A remainder of whole numbers by zero. -/
  | moduloByZero
  /-- A whole division of whole numbers by zero. -/
  | wholeDivisionByZero
  /-- A quotient of whole numbers beyond the range of double precision. -/
  | quotientTooLarge
  /-- A division of real numbers by zero. -/
  | realDivisionByZero
  /-- A remainder of real numbers by zero. -/
  | realModuloByZero
  /-- A whole division of real numbers by zero. -/
  | realWholeDivisionByZero
  /-- A whole number beyond the range of double precision. -/
  | wholeTooLarge
  /-- A real number that is infinite, where a whole one is needed. -/
  | infiniteWhole
  /-- Something that is not a number, where a whole number is needed. -/
  | undefinedWhole
  /-- A number with more digits than are written. -/
  | longNumber
  /-- The memory account is exhausted. -/
  | memoryExceeded
  /-- A `break` that no loop has taken up. -/
  | breakOutsideLoop
  /-- A thunk whose value depends on itself. -/
  | circular
  /-- The computation was given up. -/
  | outOfFuel
  /-- A file that is not there. -/
  | missingFile (path : String)
  /-- A path that goes through a file as if it were a folder. -/
  | notAFolder (path : String)
  /-- A path that leads to a folder where a file is needed. -/
  | folderAsFile (path : String)
  /-- A path that is too long, or one with a part that is. -/
  | longPath (path : String)
  /-- A path with a null character. -/
  | nullInPath
  /-- An address whose host has a bracket of one side only. -/
  | badHost
  /-- A setting of the system that is not there. -/
  | missingSetting (name : String)
deriving BEq, Repr, Inhabited

/-! ## Wording -/

/-- The wording of an objection. -/
def CheckFault.message : CheckFault → String
  | .unknownForm tag => "Unknown node type: " ++ tag.shown
  | .undeclared name => "Variable \"" ++ name.shown ++ "\" used before declaration"
  | .notABranch => "Expected 'if' node"
  | .badItem item => "Invalid type in iterable: " ++ item.shown
  | .badTuple t => "Unexpected tuple structure: " ++ t.shown
  | .badSort typeName => "Invalid expression type: <class '" ++ typeName ++ "'>"

/-- The wording for a step that cannot be carried out. -/
def ExecFault.message : ExecFault → String
  | .unknownForm tag => "Unknown node type: " ++ tag.shown
  | .unknownOperator op => "Unknown operator: " ++ op.shown
  | .notIndexable shown => "Cannot index non-list type: " ++ shown
  | .noLength typeName => "len() function requires a string or list, got " ++ typeName
  | .badTuple t => "Unexpected tuple structure: " ++ t.shown
  | .badExpression t => "Unknown expression type: " ++ t.shown
  | .notIterable t => "Variable \"" ++ t.shown ++ "\" is not an iterable"

/-- The wording for a text that could not be filled in.  A conversion that is no printable
character of the first 128 is shown as a question mark. -/
def FormatFault.message : FormatFault → String
  | .tooFewArguments => "not enough arguments for format string"
  | .tooManyArguments => "not all arguments converted during string formatting"
  | .needsMapping => "format requires a mapping"
  | .widthNotInteger => "* wants int"
  | .integerRequired c typeName =>
    "%" ++ c.toString ++ " format: an integer is required, not " ++ typeName
  | .numberRequired c typeName =>
    "%" ++ c.toString ++ " format: a real number is required, not " ++ typeName
  | .realRequired typeName => "must be real number, not " ++ typeName
  | .characterRequired => "%c requires int or char"
  | .characterRange => "%c arg not in range(0x110000)"
  | .unknownConversion c position =>
    let mark := if 31 ≤ c && c ≤ 126 then Char.ofNat c else '?'
    "unsupported format character '" ++ mark.toString ++ "' (0x" ++ Text.hex 0 c ++
      ") at index " ++ toString position
  | .incomplete => "incomplete format"
  | .incompleteKey => "incomplete format key"
  | .widthTooBig => "width too big"
  | .precisionTooBig => "precision too big"
  | .precisionTooLarge => "precision too large"
  | .widthOverflow => "Python int too large to convert to C ssize_t"
  | .precisionOverflow => "Python int too large to convert to C int"

/-- The wording of a fault. -/
def Fault.message : Fault → String
  | .strayCharacter c line column =>
    Text.Quoted.quote c.toString ++ " unexpected on line " ++ toString line ++ ", column " ++
      toString column
  | .longNumeral digits =>
    "Exceeds the limit (4300 digits) for integer string conversion: value has " ++
      toString digits ++ " digits; use sys.set_int_max_str_digits() to increase the limit"
  | .unexpected token =>
    "Invalid syntax at token " ++ ((token.map Token.toTree).getD Tree.none).shown
  | .endOfTokens => "Unexpected end of input"
  | .check cause => "Semantic error: " ++ cause.message
  | .exec cause => "Execution error: " ++ cause.message
  | .notSubscriptable typeName => "'" ++ typeName ++ "' object is not subscriptable"
  | .notIterable typeName => "'" ++ typeName ++ "' object is not iterable"
  | .notReversible typeName => "'" ++ typeName ++ "' object is not reversible"
  | .notUnpackable typeName => "cannot unpack non-iterable " ++ typeName ++ " object"
  | .tooFewItems expected got =>
    "not enough values to unpack (expected " ++ toString expected ++ ", got " ++ toString got ++ ")"
  | .tooManyItems expected => "too many values to unpack (expected " ++ toString expected ++ ")"
  | .outOfRange sequence => sequence ++ " index out of range"
  | .unhashable typeName => "unhashable type: '" ++ typeName ++ "'"
  | .thunkAsExpression => "'LazyEval' object has no attribute '_evaluated_value'"
  | .unbound name => name.quoted
  | .notAThunk typeName => "'" ++ typeName ++ "' object has no attribute 'evaluate'"
  | .unsupported symbol left right =>
    "unsupported operand type(s) for " ++ symbol ++ ": '" ++ left ++ "' and '" ++ right ++ "'"
  | .unordered symbol left right =>
    "'" ++ symbol ++ "' not supported between instances of '" ++ left ++ "' and '" ++ right ++ "'"
  | .notConcatenable left right =>
    "can only concatenate " ++ left ++ " (not \"" ++ right ++ "\") to " ++ left
  | .notRepeatable typeName => "can't multiply sequence by non-int of type '" ++ typeName ++ "'"
  | .hugeRepetition => "cannot fit 'int' into an index-sized integer"
  | .longText => "repeated string is too long"
  | .outOfMemory => ""
  | .hugeIndex => "cannot fit 'int' into an index-sized integer"
  | .badIndex typeName => "list indices must be integers or slices, not " ++ typeName
  | .notAnInteger typeName => "'" ++ typeName ++ "' object cannot be interpreted as an integer"
  | .wrongOperand => "argument 2: TypeError: wrong type"
  | .format cause => cause.message
  | .divisionByZero => "division by zero"
  | .moduloByZero => "integer modulo by zero"
  | .wholeDivisionByZero => "integer division or modulo by zero"
  | .quotientTooLarge => "integer division result too large for a float"
  | .realDivisionByZero => "float division by zero"
  | .realModuloByZero => "float modulo"
  | .realWholeDivisionByZero => "float floor division by zero"
  | .wholeTooLarge => "int too large to convert to float"
  | .infiniteWhole => "cannot convert float infinity to integer"
  | .undefinedWhole => "cannot convert float NaN to integer"
  | .longNumber =>
    "Exceeds the limit (4300 digits) for integer string conversion; use " ++
      "sys.set_int_max_str_digits() to increase the limit"
  | .memoryExceeded => "Program exceeds the given malloc threshold"
  | .breakOutsideLoop => ""
  | .circular => "RecursionError"
  | .outOfFuel => "computation given up"
  | .missingFile path => "[Errno 2] No such file or directory: " ++ Text.Quoted.quote path
  | .notAFolder path => "[Errno 20] Not a directory: " ++ Text.Quoted.quote path
  | .folderAsFile path => "[Errno 21] Is a directory: " ++ Text.Quoted.quote path
  | .longPath path => "[Errno 36] File name too long: " ++ Text.Quoted.quote path
  | .nullInPath => "embedded null byte"
  | .badHost => "Invalid IPv6 URL"
  | .missingSetting name => Text.Quoted.quote name

end Retrace
