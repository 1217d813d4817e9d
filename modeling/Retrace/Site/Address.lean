import Retrace.Fault

/-!
# Addresses of requests

A request gives its address in full or in part.  In front of the path may stand a scheme with its
colon and, behind two slashes, a host; behind the path may follow a question and a fragment.  What
is left between them is the path, in which a percent sign with two digits stands for a byte.

* `split`: the path and the question of an address.
* `decode`: a path with its bytes as characters.
* `ofRequest`: the path that a request asks for.
-/

set_option autoImplicit false
namespace Retrace
namespace Site
namespace Address

/-! ## The parts of an address -/

/-- Characters that do not count in front of an address. -/
def isBlank (c : Char) : Bool :=
  c.toNat ≤ 32

/-- Characters that do not count anywhere in an address. -/
def isBreak (c : Char) : Bool :=
  c == '\t' || c == '\r' || c == '\n'

/-- The characters of an address that count. -/
def clean (s : List Char) : List Char :=
  (s.dropWhile isBlank).filter fun c => !isBreak c

/-- The characters of a scheme. -/
def isSchemeCharacter (c : Char) : Bool :=
  c.isAlphanum || c == '+' || c == '-' || c == '.'

/-- An address without its scheme. -/
def withoutScheme (s : List Char) : List Char :=
  match s.span (· != ':') with
  | (c :: scheme, _ :: rest) =>
    if c.isAlpha && scheme.all isSchemeCharacter then rest else s
  | _ => s

/-- Does a character end the host? -/
def endsHost (c : Char) : Bool :=
  c == '/' || c == '?' || c == '#'

/-- An address without its host, which must not have a bracket of one side only. -/
def withoutHost : List Char → Except Fault (List Char)
  | '/' :: '/' :: rest =>
    let (host, path) := rest.span fun c => !endsHost c
    if host.contains '[' == host.contains ']' then .ok path else .error .badHost
  | s => .ok s

/-- The path and the question of an address. -/
def split (s : List Char) : Except Fault (List Char × List Char) := do
  let s ← withoutHost (withoutScheme (clean s))
  let s := s.takeWhile (· != '#')
  return (s.takeWhile (· != '?'), (s.dropWhile (· != '?')).drop 1)

/-! ## Bytes in a path -/

/-- The number of a digit in base sixteen. -/
def digit? (c : Char) : Option Nat :=
  if c.isDigit then some (c.toNat - 48)
  else if 'a' ≤ c && c ≤ 'f' then some (c.toNat - 87)
  else if 'A' ≤ c && c ≤ 'F' then some (c.toNat - 55)
  else none

/-- The bytes of a path. -/
def bytes : List Char → List UInt8
  | '%' :: c :: d :: rest =>
    match digit? c, digit? d with
    | some a, some b => UInt8.ofNat (a * 16 + b) :: bytes rest
    | _, _ => 37 :: bytes (c :: d :: rest)
  | c :: rest => c.toString.toUTF8.toList ++ bytes rest
  | [] => []

/-- The characters that bytes stand for.  If they do not all stand for characters, those beyond the
first 128 are replaced. -/
def characters (bs : List UInt8) : List Char :=
  match String.fromUTF8? ⟨bs.toArray⟩ with
  | some s => s.toList
  | none => bs.map fun b => if b < 128 then Char.ofNat b.toNat else '�'

/-- A path with its bytes as characters. -/
def decode (path : List Char) : List Char :=
  characters (bytes path)

/-! ## Requests -/

/-- The path that a request asks for.  What remains of the address is taken apart once more, and the
path starts with one slash unless it is empty. -/
def ofRequest (address : String) : Except Fault String := do
  let (path, question) ← split address.toList
  let (path, _) ← split (if question.isEmpty then path else path ++ '?' :: question)
  let path := decode path
  return if path.isEmpty then "" else String.ofList ('/' :: path.dropWhile (· == '/'))

end Address
end Site
end Retrace
