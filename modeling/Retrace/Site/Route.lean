import Retrace.Run
import Retrace.Site.Address
import Retrace.Site.Guide
import Retrace.Site.Home

/-!
# Requests to the site

A request asks for an address.  Pages are answered with their text; an address that takes programs
is answered by running the program that was sent to it.

* `Target`, `target?`: what a path stands for.
* `merged`: a path with fewer slashes; a request for a path that stands for something only then is
  sent there.
* `respond`: the answer to a request that brings nothing with it.
* `Submission`, `submit`: the answer to a program that was sent.
-/

set_option autoImplicit false
namespace Retrace
namespace Site

/-! ## Paths -/

/-- What a path stands for. -/
inductive Target where
  /-- A page of the site. -/
  | page (p : Page)
  /-- A page whose text is missing. -/
  | missingPage
  /-- Where programs are sent to. -/
  | programs
  /-- An example program of a given name; there are none. -/
  | exampleProgram (name : String)
  /-- A file that belongs to the site; there are none. -/
  | file
deriving Inhabited, Repr

/-- The paths that stand for one thing. -/
def paths : List (String × Target) :=
  [("/", .page home), ("/codespace", .page codespace), ("/documentation", .page documentation),
   ("/about", .page about), ("/vardata", .page storage), ("/control", .page control),
   ("/reverse", .page reversal), ("/docstrings", .missingPage), ("/run", .programs)]

/-- The rest of a text behind its beginning, if it begins so. -/
def behind? (start s : String) : Option (List Char) :=
  if s.startsWith start then some (s.toList.drop start.length) else none

/-- A line without the line feed at its end. -/
def withoutFeed (line : List Char) : List Char :=
  if line.getLast? == some '\n' then line.dropLast else line

/-- Can a file have this name?  It does not start with a slash, and stands on one line. -/
def isFileName : List Char → Bool
  | [] => false
  | c :: rest => c != '/' && !(withoutFeed rest).contains '\n'

/-- What a path stands for. -/
def target? (path : String) : Option Target :=
  match paths.find? fun entry => entry.1 == path with
  | some entry => some entry.2
  | none =>
    match behind? "/load_example/" path with
    | some name =>
      if name.isEmpty || name.contains '/' then none
      else some (.exampleProgram (String.ofList name))
    | none =>
      match behind? "/static/" path with
      | some name => if isFileName name then some .file else none
      | none => none

/-- Characters with every two slashes made one. -/
def mergeSlashes : List Char → List Char
  | '/' :: '/' :: rest => '/' :: mergeSlashes rest
  | c :: rest => c :: mergeSlashes rest
  | [] => []

/-- A path with every two slashes made one. -/
def merged (path : String) : String :=
  String.ofList (mergeSlashes path.toList)

/-! ## Answers -/

/-- What an answer holds. -/
inductive Body where
  | nothing
  | text (html : String)
  | problem (message : String)
deriving Inhabited, Repr

/-- An answer: a status, the sort of its text, and the text. -/
structure Response where
  status : Nat
  sort : String := "text/html"
  body : Body := .nothing
deriving Inhabited, Repr

/-- The message for something that is not there. -/
def notFound : String :=
  "404 Not Found: The requested URL was not found on the server. If you entered the URL " ++
    "manually please check your spelling and try again."

/-- The methods by which a target can be asked for. -/
def methods : Target → List String
  | .programs => ["POST", "OPTIONS"]
  | _ => ["GET", "HEAD", "OPTIONS"]

/-- The answer to a request that is allowed, for a method as it was given. -/
def answer (method : String) : Target → Response
  | .page p => { status := 200, body := .text (if method == "HEAD" then "" else p.html) }
  | .missingPage => { status := 500 }
  | .programs => { status := 415 }
  | .exampleProgram _ =>
    { status := 404, sort := "application/json",
      body := if method == "HEAD" then .nothing else .problem notFound }
  | .file => { status := 404 }

/-- Where a request leads to. -/
inductive Route where
  | target (t : Target)
  /-- The request is to be sent again, to a path with one slash in the place of two or none. -/
  | redirect
  | wrongMethod
  | nowhere
deriving Inhabited, Repr

/-- Can a target be asked for by a method? -/
def allows (method : String) (t : Target) : Bool :=
  (methods t).contains method

/-- Where a request leads to.  The path that has not even a slash is short for that of the first
page. -/
def route (method path : String) : Route :=
  if path.isEmpty then if allows method (.page home) then .redirect else .nowhere
  else
    match target? path, target? (merged path) with
    | some t, other =>
      if allows method t then .target t
      else if other.any (allows method) then .redirect
      else .wrongMethod
    | none, some t => if allows method t then .redirect else .wrongMethod
    | none, none => .nowhere

/-- A method in capitals. -/
def capitals (method : String) : String :=
  method.map Char.toUpper

/-- The answer to a request that brings nothing with it. -/
def respond (method address : String) : Except Fault Response := do
  let path ← Address.ofRequest address
  match route (capitals method) path with
  | .target t =>
    return if capitals method == "OPTIONS" then { status := 200, body := .text "" }
      else answer method t
  | .redirect => return { status := 308 }
  | .wrongMethod => return { status := 405 }
  | .nowhere => return { status := 404 }

/-! ## Programs that are sent -/

/-- What was sent: nothing, something that is no program, or a program. -/
inductive Submission where
  | absent
  | malformed
  | program (code? : Option String)
deriving Inhabited, Repr

/-- The answer to a program: a status, a remark if the program failed, and what it printed. -/
structure Reply where
  status : Nat
  remark? : Option String := none
  stdout : String := ""
deriving Inhabited, Repr

/-- Runs a program that was sent.  One that cannot be read or is rejected by the checker is an
error of the site; one that fails when it is carried out is not. -/
def submit : Submission → Reply
  | .absent => { status := 415 }
  | .malformed => { status := 500 }
  | .program code? =>
    match Run.source (code?.getD "") with
    | .error _ => { status := 500 }
    | .ok report =>
      { status := 200
        remark? := report.fault?.map fun e => "Error: " ++ e.message
        stdout := report.final.output }

end Site
end Retrace
