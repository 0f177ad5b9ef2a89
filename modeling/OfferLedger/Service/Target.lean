import OfferLedger.Text.Percent
import OfferLedger.Text.Pieces
import OfferLedger.Text.Utf8

/-! # Request targets

A target is a path and perhaps a query, both as bytes that may hold percent escapes. The query of a
form is a list of named values between ampersands, in which a plus sign stands for a blank. -/
namespace OfferLedger.Service

open Text (cutAt pieces after?)

structure Target where
  path : List UInt8
  query : Option (List UInt8) := none
  deriving DecidableEq, Repr

def slash : UInt8 := 0x2F

namespace Target

def isSchemeByte (b : UInt8) : Bool :=
  (0x30 ≤ b && b ≤ 0x39) || (0x41 ≤ b && b ≤ 0x5A) || (0x61 ≤ b && b ≤ 0x7A) ||
    b = 0x2B || b = 0x2D || b = 0x2E

def dropHost (bytes : List UInt8) : List UInt8 :=
  match after? (Text.utf8 "://") (bytes.dropWhile isSchemeByte) with
  | none => bytes
  | some rest => rest.dropWhile fun b => b ≠ slash && b ≠ 0x3F

/-- Everything from a number sign on is passed over. A target whose path is empty asks for the root. -/
def parse (uri : String) : Target :=
  let bytes := dropHost (cutAt 0x23 (Text.utf8 uri)).1
  let (path, query) := cutAt 0x3F bytes
  ⟨if path.isEmpty then [slash] else path, query⟩

end Target

abbrev Form := List (String × String)

namespace Form

def decode (bytes : List UInt8) : String :=
  Text.ofUtf8Lossy (Text.percentDecode (bytes.map fun b => if b = 0x2B then 0x20 else b))

def parsePair (piece : List UInt8) : String × String :=
  let (name, value) := cutAt 0x3D piece
  (decode name, decode (value.getD []))

def parse (query : List UInt8) : Form :=
  ((pieces 0x26 query).filter fun piece => !piece.isEmpty).map parsePair

/-- Of several values for one name the last one counts. -/
def value? (form : Form) (name : String) : Option String :=
  (form.reverse.find? (·.1 = name)).map (·.2)

end Form
end OfferLedger.Service
