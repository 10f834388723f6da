/-!
# Directories as values

A program that reads and writes files can be reasoned about once the file system that it works in
is a value.  Files stand at places, which are lists of names from the root; a directory exists as
long as something stands in it.  Besides the files there are the directories and devices that every
system has.

A path is followed name by name, and every name but the last must lead to a directory.  The names
`.` and `..` are looked up like any other, so they too need a directory to stand in.

## Main definitions

* `ContractIR.CommandLine.Disk` — files, and the directory that relative paths start from.
* `ContractIR.CommandLine.Disk.read`, `write` — reading and writing by path, or the reason why
  that fails.
-/

set_option autoImplicit false

namespace ContractIR.CommandLine

/-- The devices that a program can count on.  There is nothing to read from any of them. -/
inductive Device where
  /-- Swallows what is written. -/
  | null
  /-- Has no space for what is written. -/
  | full
  | input | output | errors
deriving DecidableEq, Inhabited

/-- Files by place, and the directory that relative paths start from. -/
structure Disk where
  home : List String := ["tmp", "session"]
  files : List (List String × ByteArray) := []

/-- What stands at a place. -/
inductive Entry where
  | nothing
  | directory
  | file (bytes : ByteArray)
  | device (device : Device)

namespace Disk

/-! ## Reasons -/

/-- Nothing stands at a path. -/
def noEntry : String := "No such file or directory (os error 2)"

/-- A path leads through a file. -/
def notDirectory : String := "Not a directory (os error 20)"

/-- A path leads to a directory where a file is needed. -/
def isDirectory : String := "Is a directory (os error 21)"

/-- A device takes no more. -/
def noSpace : String := "No space left on device (os error 28)"

/-- A path, or a name in it, has too many bytes. -/
def nameTooLong : String := "File name too long (os error 36)"

/-- The bytes of a file are no text. -/
def notText : String := "stream did not contain valid UTF-8"

/-! ## Places -/

/-- The directories that every system has in its root. -/
def systemDirectories : List String :=
  ["bin", "boot", "dev", "etc", "home", "lib", "media", "mnt", "opt", "proc", "root", "run",
    "sbin", "srv", "sys", "tmp", "usr", "var"]

/-- The device of a name. -/
def device? (name : String) : Option Device :=
  if name = "null" then some .null
  else if name = "full" then some .full
  else if name = "stdin" then some .input
  else if name = "stdout" then some .output
  else if name = "stderr" then some .errors
  else none

/-- What every system has at a place. -/
def systemEntry : List String → Entry
  | [] => .directory
  | [name] => if systemDirectories.contains name then .directory else .nothing
  | ["dev", name] => ((device? name).map Entry.device).getD .nothing
  | _ => .nothing

/-- Whether a place is the directory that paths start from, or one above it or above a file. -/
def holdsFiles (d : Disk) (place : List String) : Bool :=
  place.isPrefixOf d.home || d.files.any fun f => place.isPrefixOf f.1 && place != f.1

/-- What stands at a place. -/
def entry (d : Disk) (place : List String) : Entry :=
  match d.files.find? fun f => f.1 == place with
  | some f => .file f.2
  | none => if d.holdsFiles place then .directory else systemEntry place

/-! ## Paths -/

/-- The most bytes that a path has. -/
def maxPathBytes : Nat := 4095

/-- The most bytes that a name has. -/
def maxNameBytes : Nat := 255

/-- The names in a path. -/
def names (path : String) : List String := (path.splitOn "/").filter fun name => name != ""

/-- Whether a path is written as that of a directory. -/
def namesDirectory (path : String) : Bool := path.toList.getLast? == some '/'

/-- The place that a path starts from. -/
def start (d : Disk) (path : String) : List String :=
  if path.toList.head? = some '/' then [] else d.home

/-- The place that a name leads to from a directory; the root is its own parent. -/
def step (place : List String) (name : String) : List String :=
  if name = "." then place else if name = ".." then place.dropLast else place ++ [name]

/-- Fails where there is no directory. -/
def needDirectory (d : Disk) (place : List String) : Except String Unit :=
  match d.entry place with
  | .directory => .ok ()
  | .nothing => .error noEntry
  | _ => .error notDirectory

/-- The place that some names lead to from another one.  Every place on the way is a directory; the
last one may be anything, or nothing. -/
def follow (d : Disk) : List String → List String → Except String (List String)
  | place, [] => .ok place
  | place, name :: rest => do
    d.needDirectory place
    if maxNameBytes < name.utf8ByteSize then throw nameTooLong
    follow d (step place name) rest

/-- Fails if a path is too long. -/
def checkLength (path : String) : Except String Unit :=
  if maxPathBytes < path.utf8ByteSize then .error nameTooLong else .ok ()

/-- Files given by paths from the directory that paths start from. -/
def ofFiles (files : List (String × ByteArray)) : Disk :=
  let empty : Disk := {}
  ⟨empty.home, files.map fun f => ((names f.1).foldl step empty.home, f.2)⟩

/-! ## Reading and writing -/

/-- The text of the file at a path. -/
def read (d : Disk) (path : String) : Except String String := do
  checkLength path
  let place ← d.follow (d.start path) (names path)
  match d.entry place with
  | .nothing => throw noEntry
  | .directory => throw isDirectory
  | .device _ => if namesDirectory path then throw notDirectory else return ""
  | .file bytes =>
    if namesDirectory path then throw notDirectory
    match String.fromUTF8? bytes with
    | some text => return text
    | none => throw notText

/-- The place of a file that is to be written.  A path that is written as that of a directory has
none, whatever stands there. -/
def target (d : Disk) (path : String) : Except String (List String) := do
  checkLength path
  if namesDirectory path then
    d.needDirectory (← d.follow (d.start path) (names path).dropLast)
    throw isDirectory
  else d.follow (d.start path) (names path)

/-- The files with a text in the one at a path, and what of the text goes to standard output. -/
def write (d : Disk) (path text : String) : Except String (Disk × String) := do
  let place ← d.target path
  match d.entry place with
  | .directory => throw isDirectory
  | .device .full => throw noSpace
  | .device .output => return (d, text)
  | .device _ => return (d, "")
  | _ =>
    return ({ d with files := (place, text.toUTF8) :: d.files.filter fun f => f.1 != place }, "")

end Disk

end ContractIR.CommandLine
