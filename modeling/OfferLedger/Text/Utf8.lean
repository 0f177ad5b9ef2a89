/-! # UTF-8

Bytes are read as a text strictly, or with a replacement character for every piece that is not part of
any character: a byte that begins none, or the longest start of one that goes no further. -/
namespace OfferLedger.Text

def utf8 (s : String) : List UInt8 := s.toUTF8.toList

def ofUtf8? (bytes : List UInt8) : Option String := String.fromUTF8? ⟨bytes.toArray⟩

def isContinuation (b : UInt8) : Bool := 0x80 ≤ b && b ≤ 0xBF

/-- How many bytes a character has that begins with this one, zero if none does. -/
def encodedSize (lead : UInt8) : Nat :=
  if lead < 0x80 then 1
  else if 0xC2 ≤ lead && lead ≤ 0xDF then 2
  else if 0xE0 ≤ lead && lead ≤ 0xEF then 3
  else if 0xF0 ≤ lead && lead ≤ 0xF4 then 4
  else 0

/-- The second byte is narrowed where the code point would be encoded too long, be a surrogate or lie
beyond the last one. -/
def isSecond (lead b : UInt8) : Bool :=
  isContinuation b &&
    (if lead = 0xE0 then 0xA0 ≤ b
     else if lead = 0xED then b ≤ 0x9F
     else if lead = 0xF0 then 0x90 ≤ b
     else if lead = 0xF4 then b ≤ 0x8F
     else true)

def continuation (lead : UInt8) : List UInt8 → List UInt8
  | [] => []
  | b :: rest =>
    if 2 ≤ encodedSize lead && isSecond lead b then
      b :: (rest.take (encodedSize lead - 2)).takeWhile isContinuation
    else []

def charOf (lead : UInt8) (rest : List UInt8) : Char :=
  let high := if encodedSize lead = 1 then lead.toNat else lead.toNat % Nat.pow 2 (7 - encodedSize lead)
  Char.ofNat (rest.foldl (fun n b => 64 * n + b.toNat % 64) high)

def replacement : Char := '\uFFFD'

def lossyChars : List UInt8 → List Char
  | [] => []
  | lead :: rest =>
    let more := continuation lead rest
    (if more.length + 1 = encodedSize lead then charOf lead more else replacement) ::
      lossyChars (rest.drop more.length)
termination_by bytes => bytes.length
decreasing_by simp only [List.length_drop, List.length_cons]; omega

def ofUtf8Lossy (bytes : List UInt8) : String := String.ofList (lossyChars bytes)

end OfferLedger.Text
