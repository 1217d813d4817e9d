import Retrace.Fault
import Retrace.Path

/-!
# Installing and removing the command

The command is installed by a link in a directory that the system searches, or by a shortcut in the
menu of the system.  Both are described by what they print and what they change; the host is given
by what it says about itself.

* `Host`: what is known of the system.
* `Changes`: what was printed and changed so far.
* `install` and `remove`.
* `Package`: how the package describes itself.
-/

set_option autoImplicit false
namespace Retrace
namespace Installation

/-- What is known of the system: its name and release, the paths that exist, the directory for the
data of applications if there is one, whether shortcuts can be made, where the package lies, and the
program that runs it. -/
structure Host where
  system : String := ""
  release : String := ""
  existing : List String := []
  appData? : Option String := none
  makesShortcuts : Bool := false
  root : String := ""
  launcher : String := ""
deriving Inhabited, Repr

/-- A shortcut in the menu of a system. -/
structure Shortcut where
  path : String
  target : String
  arguments : String
  directory : String
  icon : String
deriving Inhabited, Repr, DecidableEq

/-- What was printed, linked, removed and handed to the system. -/
structure Changes where
  stdout : String := ""
  links : List (String × String) := []
  shortcuts : List Shortcut := []
  removed : List String := []
  commands : List String := []
deriving Inhabited, Repr

/-- A step of an installation. -/
abbrev Step := EStateM Fault Changes

/-- Prints a line. -/
def say (line : String) : Step Unit :=
  modify fun c => { c with stdout := c.stdout ++ line ++ "\n" }

/-- The link by which the command is found. -/
def linkPath : String := "/usr/local/bin/ulto"

/-- The parts of the path of the shortcut below the data of applications. -/
def shortcutParts : List String :=
  ["Microsoft", "Windows", "Start Menu", "Programs", "Ultolink.lnk"]

/-- The directory for the data of applications, which has to be set. -/
def appData (host : Host) : Step String :=
  match host.appData? with
  | some path => return path
  | none => throw (.missingSetting "APPDATA")

/-! ## Installing -/

/-- The file that the command runs. -/
def script (host : Host) : String :=
  Path.below host.root ["src", "main.py"]

/-- A line of the frame around what is printed. -/
def rule : String := "+------------------------------------------------------+"

/-- What is printed first. -/
def greeting (host : Host) : List String :=
  [rule,
   "|              Installing Ulto - v1.0.0                |",
   "|               Developed By Aman Thapa Magar          |",
   rule,
   "| Operating System : " ++ host.system,
   "| Release          : " ++ host.release,
   "| Ulto Version     : v1.0.0                           |"]

/-- Makes the link, unless there is one. -/
def makeLink (host : Host) : Step Unit := do
  if host.existing.contains linkPath then
    say ("| Symbolic link already exists at " ++ linkPath)
  else
    modify fun c => { c with links := c.links ++ [(linkPath, script host)] }
    say ("| Symbolic link created at " ++ linkPath ++ " -> " ++ script host)

/-- Makes the shortcut, unless there is one or none can be made. -/
def makeShortcut (host : Host) : Step Unit := do
  if !host.makesShortcuts then
    say "pywin32 is required on Windows. Please install it using 'pip install pywin32'."
  else
    let path := Path.below (← appData host) shortcutParts
    if host.existing.contains path then say ("| Shortcut already exists at " ++ path)
    else
      let shortcut : Shortcut :=
        { path, target := host.launcher, arguments := "\"" ++ script host ++ "\"",
          directory := Path.below host.root ["src"], icon := host.launcher }
      modify fun c => { c with shortcuts := c.shortcuts ++ [shortcut] }
      say ("| Shortcut created at " ++ path)

/-- Installs the command. -/
def install (host : Host) : Step Unit := do
  (greeting host).forM say
  if host.system == "Linux" then
    say "| Unix-like install route                           |"
    makeLink host
  else if host.system == "Windows" then
    say "| Windows install route                             |"
    makeShortcut host
  else say "| Unsupported OS                                    |"
  say rule

/-! ## Removing -/

/-- Removes a file if it exists. -/
def removeFile (host : Host) (what path : String) : Step Unit := do
  if host.existing.contains path then
    modify fun c => { c with removed := c.removed ++ [path] }
    say ("Removed " ++ what ++ " at " ++ path)

/-- Removes the link or the shortcut, after the family of the system. -/
def removeLink (host : Host) : Step Unit := do
  if host.system == "posix" then removeFile host "symbolic link" linkPath
  else if host.system == "nt" then
    removeFile host "shortcut" (Path.append (← appData host) shortcutParts)

/-- Asks the system to remove a package. -/
def removePackage (name : String) : Step Unit :=
  modify fun c => { c with commands := c.commands ++ ["pip uninstall -y " ++ name] }

/-- Removes a package, if one is named, and then the link or the shortcut. -/
def remove (host : Host) (package? : Option String) : Step Unit := do
  if let some name := package? then removePackage name
  removeLink host

/-! ## The package -/

/-- How a package describes itself. -/
structure Package where
  name : String
  version : String
  description : String
  requires : List String
  commands : List String
  classifiers : List String
  runtime : String
  files : List (String × List String)
  includesFiles : Bool
deriving Inhabited, Repr

/-- The package of the command. -/
def package : Package where
  name := "ulto"
  version := "1.0.0"
  description := "Ulto - Imperative Reversible Programming Language"
  requires := ["sortedcontainers", "pywin32; platform_system==\"Windows\""]
  commands := ["ulto=src.main:main"]
  classifiers :=
    ["Development Status :: 1 - Alpha", "Programming Language :: Ulto :: 1",
     "License :: OSI Approved :: MIT License", "Operating System :: OS Independent"]
  runtime := ">=3.6"
  files := [("src", ["operations.dll", "liboperations.so"])]
  includesFiles := true

end Installation
end Retrace
