import OfferLedger.Text.Quoted
import OfferLedger.Decimal.Basic
import OfferLedger.Decimal.Binary64

/-! # What can be wrong with a JSON text

A problem is of one of three kinds: the text ends too early, it is not JSON, or it is JSON so far but
not what was asked for. It is reported with the number of bytes that were left when it was found,
from which line and column follow. -/
namespace OfferLedger.Json

inductive Found where
  | null
  | boolean (value : Bool)
  | integer (value : Int)
  | double (value : Binary64)
  | text (value : String)
  | sequence
  | map
  deriving DecidableEq, Repr

def Found.message : Found → String
  | .null => "null"
  | .boolean b => "boolean `" ++ (if b then "true" else "false") ++ "`"
  | .integer n => "integer `" ++ toString n ++ "`"
  | .double x => "floating point `" ++ String.ofList x.compact ++ "`"
  | .text s => "string " ++ Text.quoted s
  | .sequence => "sequence"
  | .map => "map"

inductive Expected where
  | text
  | sequence
  | listing
  | decimal
  deriving DecidableEq, Repr

def Expected.message : Expected → String
  | .text => "a string"
  | .sequence => "a sequence"
  | .listing => "struct Listing"
  | .decimal => "a decimal number or a decimal string"

inductive Mismatch where
  | unexpected (found : Found) (expected : Expected)
  | missingField (name : String)
  | duplicateField (name : String)
  | tooFewElements (count : Nat)
  | decimal (cause : Decimal.ParseError)
  deriving DecidableEq, Repr

def Mismatch.message : Mismatch → String
  | .unexpected found expected => s!"invalid type: {found.message}, expected {expected.message}"
  | .missingField name => "missing field `" ++ name ++ "`"
  | .duplicateField name => "duplicate field `" ++ name ++ "`"
  | .tooFewElements n =>
    s!"invalid length {n}, expected {Expected.listing.message} with 11 elements"
  | .decimal cause => cause.message

inductive Category where
  | truncated
  | malformed
  | mismatched
  deriving DecidableEq, Repr

inductive Problem where
  | endInValue
  | endInText
  | endInList
  | endInObject
  | noValue
  | noWord
  | noColon
  | noKey
  | noListSeparator
  | noObjectSeparator
  | badNumber
  | doubleOutOfRange
  | badEscape
  | loneSurrogate
  | surrogateWithoutPair
  | controlCharacter
  | badEncoding
  | trailingComma
  | trailingText
  | mismatch (cause : Mismatch)
  deriving DecidableEq, Repr

def Problem.category : Problem → Category
  | .endInValue | .endInText | .endInList | .endInObject => .truncated
  | .mismatch _ => .mismatched
  | _ => .malformed

def Problem.message : Problem → String
  | .endInValue => "EOF while parsing a value"
  | .endInText => "EOF while parsing a string"
  | .endInList => "EOF while parsing a list"
  | .endInObject => "EOF while parsing an object"
  | .noValue => "expected value"
  | .noWord => "expected ident"
  | .noColon => "expected `:`"
  | .noKey => "key must be a string"
  | .noListSeparator => "expected `,` or `]`"
  | .noObjectSeparator => "expected `,` or `\x7d`"
  | .badNumber => "invalid number"
  | .doubleOutOfRange => "number out of range"
  | .badEscape => "invalid escape"
  | .loneSurrogate => "lone leading surrogate in hex escape"
  | .surrogateWithoutPair => "unexpected end of hex escape"
  | .controlCharacter => "control character (\\u0000-\\u001F) found while parsing a string"
  | .badEncoding => "invalid unicode code point"
  | .trailingComma => "trailing comma"
  | .trailingText => "trailing characters"
  | .mismatch cause => cause.message

structure ReadError where
  problem : Problem
  bytesLeft : Nat
  deriving DecidableEq, Repr

/-- Lines and columns count from one; the column is the number of bytes since the line began. -/
def ReadError.message (e : ReadError) (bytes : List UInt8) : String :=
  let read := bytes.take (bytes.length - e.bytesLeft)
  let line := 1 + read.count 10
  let column := (read.reverse.takeWhile (· ≠ 10)).length
  s!"{e.problem.message} at line {line} column {column}"

end OfferLedger.Json
