/-! # Unsigned numbers

Decimal digits after an optional plus sign, for numbers below a bound. Of a character that is no digit
and a number that has grown too large the first one, from the left, is reported. -/
namespace OfferLedger.Text

inductive UnsignedError where
  | badDigit
  | tooLarge
  deriving DecidableEq, Repr

def UnsignedError.message : UnsignedError → String
  | .badDigit => "invalid digit found in string"
  | .tooLarge => "number too large to fit in target type"

def readUnsigned (bound : Nat) : (value : Nat) → List Char → Except UnsignedError Nat
  | value, [] => .ok value
  | value, c :: rest =>
    if !c.isDigit then .error .badDigit
    else
      let next := 10 * value + (c.toNat - '0'.toNat)
      if bound ≤ next then .error .tooLarge else readUnsigned bound next rest

/-- A sign alone is no number, and neither is an empty text. -/
def parseUnsigned (bound : Nat) : List Char → Except UnsignedError Nat
  | [] => .error .badDigit
  | ['+'] => .error .badDigit
  | '+' :: rest => readUnsigned bound 0 rest
  | cs => readUnsigned bound 0 cs

def bound32 : Nat := 4294967296

def bound64 : Nat := 18446744073709551616

end OfferLedger.Text
