import Retrace.Fault
import Retrace.Path
import Retrace.Table

/-!
# Folders

A folder holds texts by the paths of their files.  A path is followed part by part: every part but
the last one must lead to a folder, `.` stays where one is and `..` goes up.  What lies outside of
the folder is not known, and nothing is found there.

* `Folder.read`: the text of a file, or why there is none.
-/

set_option autoImplicit false
namespace Retrace

/-- The texts of files, by their paths. -/
structure Folder where
  files : Table String String := Table.empty
deriving Inhabited, Repr

namespace Folder

/-- Where a path leads: to the parts below the folder, or out of it. -/
inductive Place where
  | inside (parts : List String)
  | outside
deriving DecidableEq, Inhabited, Repr

/-- The text of the file at a place. -/
def text? (f : Folder) : Place → Option String
  | .inside parts => (f.files.entries.find? fun p => Path.parts p.1 == parts).map Prod.snd
  | .outside => none

/-- Is there a folder at a place? -/
def isFolder (f : Folder) : Place → Bool
  | .inside parts =>
    parts.isEmpty || f.files.keys.any fun path =>
      parts.length < (Path.parts path).length && parts.isPrefixOf (Path.parts path)
  | .outside => true

/-- One level up. -/
def up : Place → Place
  | .inside [] => .outside
  | .inside parts => .inside parts.dropLast
  | .outside => .outside

/-- One level down, by a name. -/
def down (name : String) : Place → Place
  | .inside parts => .inside (parts ++ [name])
  | .outside => .outside

/-- The most bytes that the name of a file has. -/
def nameLimit : Nat := 255

/-- The least number of bytes that is too long for a path. -/
def pathLimit : Nat := 4096

/-- Goes on from a place, part by part.  The faults are those of the whole path. -/
def follow (f : Folder) (path : String) : Place → List String → Except Fault Place
  | place, [] => .ok place
  | place, part :: rest =>
    if !f.isFolder place then .error (.notAFolder path)
    else if nameLimit < part.utf8ByteSize then .error (.longPath path)
    else if part = "" || part = "." then follow f path place rest
    else if part = ".." then follow f path (up place) rest
    else
      let next := down part place
      if place ≠ .outside && ((f.text? next).isSome || f.isFolder next) then
        follow f path next rest
      else .error (.missingFile path)

/-- Where a path starts: those that start with a slash do not start in the folder. -/
def start (path : String) : Place :=
  if path.startsWith "/" then .outside else .inside []

/-- The text of the file that a path leads to. -/
def read (f : Folder) (path : String) : Except Fault String :=
  if path.contains (Char.ofNat 0) then .error .nullInPath
  else if pathLimit ≤ path.utf8ByteSize then .error (.longPath path)
  else do
    let place ← follow f path (start path) (path.splitOn "/")
    match f.text? place with
    | some text => return text
    | none => throw (.folderAsFile path)

end Folder
end Retrace
