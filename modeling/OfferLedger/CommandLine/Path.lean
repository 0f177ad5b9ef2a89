import OfferLedger.Text.Blank

/-! # Paths

A path is a line of names between slashes. Empty names and single dots stay where they are, and two
dots lead back. A trail is what is left of a path without them. -/
namespace OfferLedger.CommandLine

namespace Path

def names (path : String) : List String :=
  ((Text.splitAt '/' path.toList).map String.ofList).filter fun s => s ≠ "" && s ≠ "."

def isAbsolute (path : String) : Bool := path.startsWith "/"

def isNameTooLong (path : String) : Bool :=
  (names path).getLast?.any fun name => 255 < name.utf8ByteSize

def isTooLong (path : String) : Bool := 4096 ≤ path.utf8ByteSize

end Path

/-- The names from the root or from the present folder on, latest first. -/
structure Trail where
  isAbsolute : Bool
  names : List String := []
  deriving DecidableEq, Repr

namespace Trail

def text (t : Trail) : String :=
  (if t.isAbsolute then "/" else "") ++ String.intercalate "/" t.names.reverse

def length (t : Trail) : Nat := t.names.foldl (fun n name => n + name.utf8ByteSize + 1) 0

def down (t : Trail) (name : String) : Trail := { t with names := name :: t.names }

/-- Leads back. Nothing lies before the root, and two dots stay in front of the present folder. -/
def up (t : Trail) : Trail :=
  match t.names with
  | [] => if t.isAbsolute then t else t.down ".."
  | last :: before => if last = ".." then t.down ".." else { t with names := before }

def start (path : String) : Trail := ⟨Path.isAbsolute path, []⟩

def ofPath (path : String) : Trail :=
  (Path.names path).foldl (fun t name => if name = ".." then t.up else t.down name) (start path)

example : (ofPath "./a//b/../c/").text = "a/c" := by decide +kernel

def systemFolders : List String :=
  ["bin", "dev", "etc", "home", "lib", "proc", "root", "run", "sbin", "sys", "tmp", "usr", "var"]

def isFolder (t : Trail) : Bool :=
  if t.isAbsolute then
    match t.names with
    | [] => true
    | [name] => systemFolders.contains name
    | _ => false
  else t.names.all (· = "..")

def isOpenFolder (t : Trail) : Bool := t.isFolder && (!t.isAbsolute || t.names = ["tmp"])

end Trail
end OfferLedger.CommandLine
