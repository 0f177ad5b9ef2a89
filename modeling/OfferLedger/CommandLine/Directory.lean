import OfferLedger.CommandLine.Path
import OfferLedger.Keyed

/-! # A directory in memory

The files of one directory by name, and those around it by their trails. Of the system there are only its
folders and its empty device. -/
namespace OfferLedger.CommandLine

structure FileError where
  text : String
  number : Nat
  deriving DecidableEq, Repr

namespace FileError

def missing : FileError := ⟨"No such file or directory", 2⟩

def denied : FileError := ⟨"Permission denied", 13⟩

def notDirectory : FileError := ⟨"Not a directory", 20⟩

def isDirectory : FileError := ⟨"Is a directory", 21⟩

def nameTooLong : FileError := ⟨"File name too long", 36⟩

def message (e : FileError) : String := s!"{e.text} (os error {e.number})"

def readMessage (path : String) (e : FileError) : String := s!"failed to read {path}: {e.message}"

end FileError

abbrev Directory := Keyed String (List UInt8)

inductive Target where
  | file (name : String)
  | folder
  | elsewhere
  deriving DecidableEq, Repr

namespace Directory

def contains (d : Directory) (name : String) : Bool := (d.get? name).isSome

def holds (d : Directory) (name : String) : Bool := (d.get? name).any fun bytes => !bytes.isEmpty

def walk (d : Directory) : Trail → List String → Except FileError Trail
  | t, [] => .ok t
  | t, name :: rest =>
    if !t.isFolder then .error (if d.contains t.text then .notDirectory else .missing)
    else if name = ".." then d.walk t.up rest
    else if Path.isNameTooLong name then .error .nameTooLong
    else d.walk (t.down name) rest

/-- The trail to a file, whether there is one or not. A path to a file ends with its name. -/
def locate (d : Directory) (path : String) : Except FileError String :=
  if path.isEmpty then .error .missing
  else if Path.isTooLong path then .error .nameTooLong
  else
    match d.walk (.start path) (Path.names path) with
    | .error e => .error e
    | .ok t =>
      if t.isFolder then .error .isDirectory
      else if t.names.head?.any (path.endsWith ·) then .ok t.text
      else .error (if d.contains t.text then .notDirectory else .missing)

def read (d : Directory) (path : String) : Except FileError (List UInt8) :=
  match d.locate path with
  | .error e => .error e
  | .ok name =>
    if name = "/dev/null" then .ok []
    else
      match d.get? name with
      | some bytes => .ok bytes
      | none => .error .missing

def hasPath (d : Directory) (path : String) : Bool :=
  match d.read path with
  | .ok _ => true
  | .error e => e = .isDirectory

def pathLength : Nat := 16

/-- Follows some names along the path of a ledger. Here two dots take back any name before them, but
nothing lies beneath a file, and the whole path has to stay below 512 bytes all the way. -/
def follow (d : Directory) : Trail → List String → Option Trail
  | t, [] => if t.isAbsolute && t.names.isEmpty then none else some t
  | t, name :: rest =>
    if name = ".." then d.follow t.up rest
    else if 512 ≤ (if t.isAbsolute then 0 else pathLength) + (t.down name).length then none
    else if t.isFolder && Path.isNameTooLong name || d.contains t.text then none
    else d.follow (t.down name) rest

def target? (d : Directory) (path : String) : Option Target :=
  (d.follow (.start path) (Path.names path)).map fun t =>
    if t.isFolder then .folder else if t.up.isOpenFolder then .file t.text else .elsewhere

end Directory
end OfferLedger.CommandLine
