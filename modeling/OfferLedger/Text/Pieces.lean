/-! # Pieces of bytes

Bytes cut at a separator, and bytes without a given start or end. -/
namespace OfferLedger.Text

/-- The bytes before the first occurrence of a byte, and those after it if it occurs. -/
def cutAt (b : UInt8) (bytes : List UInt8) : List UInt8 × Option (List UInt8) :=
  match bytes.dropWhile (· ≠ b) with
  | [] => (bytes, none)
  | _ :: rest => (bytes.takeWhile (· ≠ b), some rest)

/-- The pieces between separators; at least one. -/
def pieces (separator : UInt8) : List UInt8 → List (List UInt8)
  | [] => [[]]
  | b :: rest =>
    if b = separator then [] :: pieces separator rest
    else
      match pieces separator rest with
      | [] => [[b]]
      | piece :: more => (b :: piece) :: more

def after? (start bytes : List UInt8) : Option (List UInt8) :=
  if start.isPrefixOf bytes then some (bytes.drop start.length) else none

def before? (ending bytes : List UInt8) : Option (List UInt8) :=
  (after? ending.reverse bytes.reverse).map List.reverse

end OfferLedger.Text
