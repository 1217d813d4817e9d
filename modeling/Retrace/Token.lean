import Retrace.Form

/-!
# Tokens

A token is a piece of source text together with its kind and its place.  The layout of the text
appears as tokens too: a line that is indented deeper than the block around it is preceded by an
`INDENT`, and the end of such a block by a `DEDENT`.

* `Kind`: the kinds of tokens, with `Kind.label` and `Kind.ofLabel` for their names in messages.
* `Kind.ofWord?`: the kind of a word that is reserved.
* `Kind.operator?`: the operator that a kind stands for inside an expression.
* `Token`: kind, content, line and column.
-/

set_option autoImplicit false
namespace Retrace

/-- The kinds of tokens.  Token lists that are built by hand may hold kinds that the language does
not know; they are kept by name. -/
inductive Kind where
  | lbrace | rbrace | lparen | rparen | lbracket | rbracket | colon | comma | dot
  | assign | plusAssign | minusAssign | timesAssign | overAssign
  | plus | minus | times | over | modulo | intDiv
  | eq | neq | lt | gt | lte | gte
  | number | string | name
  | ifWord | elifWord | elseWord | forWord | inWord | rangeWord | whileWord | printWord
  | revWord | revtraceWord | andWord | orWord | trueWord | falseWord | breakWord | lenWord
  | indent | dedent | newline
  | other (label : String)
deriving DecidableEq, Repr, Inhabited

namespace Kind

/-- The kinds that have a name of their own, with that name. -/
def labels : List (Kind × String) :=
  [(.lbrace, "LBRACE"), (.rbrace, "RBRACE"), (.lparen, "LPAREN"), (.rparen, "RPAREN"),
   (.lbracket, "LBRACKET"), (.rbracket, "RBRACKET"), (.colon, "COLON"), (.comma, "COMMA"),
   (.dot, "DOT"), (.assign, "ASSIGN"), (.plusAssign, "PLUS_ASSIGN"),
   (.minusAssign, "MINUS_ASSIGN"), (.timesAssign, "TIMES_ASSIGN"), (.overAssign, "OVER_ASSIGN"),
   (.plus, "PLUS"), (.minus, "MINUS"), (.times, "TIMES"), (.over, "OVER"), (.modulo, "MODULO"),
   (.intDiv, "INT_DIV"), (.eq, "EQ"), (.neq, "NEQ"), (.lt, "LT"), (.gt, "GT"), (.lte, "LTE"),
   (.gte, "GTE"), (.number, "NUMBER"), (.string, "STRING"), (.name, "ID"), (.ifWord, "IF"),
   (.elifWord, "ELIF"), (.elseWord, "ELSE"), (.forWord, "FOR"), (.inWord, "IN"),
   (.rangeWord, "RANGE"), (.whileWord, "WHILE"), (.printWord, "PRINT"), (.revWord, "REV"),
   (.revtraceWord, "REVTRACE"), (.andWord, "AND"), (.orWord, "OR"), (.trueWord, "TRUE"),
   (.falseWord, "FALSE"), (.breakWord, "BREAK"), (.lenWord, "LEN"), (.indent, "INDENT"),
   (.dedent, "DEDENT"), (.newline, "NEWLINE")]

/-- The name of a kind in messages. -/
def label : Kind → String
  | .other s => s
  | k => ((labels.find? fun p => p.1 == k).map Prod.snd).getD ""

/-- The kind of a given name. -/
def ofLabel (s : String) : Kind :=
  ((labels.find? fun p => p.2 == s).map Prod.fst).getD (.other s)

/-- The reserved words. -/
def words : List (String × Kind) :=
  [("if", .ifWord), ("else", .elseWord), ("while", .whileWord), ("print", .printWord),
   ("rev", .revWord), ("revtrace", .revtraceWord), ("for", .forWord), ("in", .inWord),
   ("range", .rangeWord), ("and", .andWord), ("or", .orWord), ("break", .breakWord),
   ("True", .trueWord), ("False", .falseWord), ("len", .lenWord)]

/-- The kind of a reserved word.  There is none for `elif`: a line that starts with it is read as
if it started with the name of a variable. -/
def ofWord? (s : String) : Option Kind :=
  (words.find? fun p => p.1 == s).map Prod.snd

/-- The name of the operator that a kind stands for in an expression.  A dot is read as an
operator as well, though a running program knows none of that name. -/
def operator? : Kind → Option String
  | .plus => some Op.plus.tag
  | .minus => some Op.minus.tag
  | .times => some Op.times.tag
  | .over => some Op.over.tag
  | .modulo => some Op.modulo.tag
  | .intDiv => some Op.intDiv.tag
  | .eq => some Op.eq.tag
  | .neq => some Op.neq.tag
  | .lt => some Op.lt.tag
  | .gt => some Op.gt.tag
  | .lte => some Op.lte.tag
  | .gte => some Op.gte.tag
  | .andWord => some Op.and.tag
  | .orWord => some Op.or.tag
  | .dot => some "dot"
  | _ => none

/-- The operator of a compound assignment. -/
def compound? : Kind → Option Compound
  | .plusAssign => some .plus
  | .minusAssign => some .minus
  | .timesAssign => some .times
  | .overAssign => some .over
  | _ => none

/-- Does a token of the kind, after a name, make an assignment? -/
def isAssignment (k : Kind) : Bool :=
  k == .assign || k.compound?.isSome

end Kind

/-- A token: its kind, its content, and the line and column where it starts.  In a text lines count
from one and columns from zero; tokens that come from elsewhere may be anywhere. -/
structure Token where
  kind : Kind
  content : Tree
  line : Int
  column : Int
deriving BEq, Repr, Inhabited

/-- The token as a tuple. -/
def Token.toTree (t : Token) : Tree :=
  .tuple [.text t.kind.label, t.content, .int t.line, .int t.column]

end Retrace
