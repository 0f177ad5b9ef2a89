import OfferLedger.Text.Blank

/-! # Decimals with six places

Prices and percentages are whole numbers of millionths in the signed 64-bit range, so that equality
and order are those of the values and nothing is rounded. A decimal is read from plain text without
exponent and written without superfluous zeros; the text of a decimal reads back as that decimal,
except for the least one, whose magnitude is out of range. -/
namespace OfferLedger

structure Decimal where
  micros : Int
  min_le_micros : -9223372036854775808 ≤ micros
  micros_lt : micros < 9223372036854775808
  deriving DecidableEq, Repr

namespace Decimal

inductive ParseError where
  | empty
  | invalid (text : String)
  | tooManyPlaces (text : String)
  | outOfRange (text : String)
  deriving DecidableEq, Repr

def ParseError.message : ParseError → String
  | .empty => "empty numeric value"
  | .invalid text => s!"invalid numeric value '{text}'"
  | .tooManyPlaces text => s!"numeric value '{text}' has more than 6 decimal places"
  | .outOfRange text => s!"numeric value '{text}' is out of range"

def places : Nat := 6

def scale : Nat := 1000000

def ofMicros? (micros : Int) : Option Decimal :=
  if h : -9223372036854775808 ≤ micros ∧ micros < 9223372036854775808 then some ⟨micros, h.1, h.2⟩ else none

def ofInt? (n : Int) : Option Decimal := ofMicros? (n * scale)

instance : Inhabited Decimal := ⟨0, by decide, by decide⟩

def zero : Decimal := default

def isDigit (c : Char) : Bool := '0' ≤ c && c ≤ '9'

def digitValue (c : Char) : Nat := c.toNat - '0'.toNat

/-- The whole numbers from zero on that fit the signed 64 bits. -/
abbrev Magnitude := Fin 9223372036854775808

def checked (n : Nat) : Option Magnitude :=
  if h : n < 9223372036854775808 then some ⟨n, h⟩ else none

/-- The number that a run of decimal digits denotes; the empty run denotes zero. A run that grows too
large is refused at the digit that makes it so. -/
def readDigits (cs : List Char) : Option Magnitude :=
  cs.foldlM (fun (n : Magnitude) c => checked (10 * n.val + digitValue c)) ⟨0, by decide⟩

structure Parts where
  negative : Bool
  whole : List Char
  fraction : List Char
  deriving DecidableEq, Repr

/-- At most one sign is taken off; everything after the first point is the fraction. -/
def Parts.ofText (cs : List Char) : Parts :=
  let (negative, digits) := match cs with
    | '-' :: rest => (true, rest)
    | '+' :: rest => (false, rest)
    | _ => (false, cs)
  ⟨negative, digits.takeWhile (· ≠ '.'), (digits.dropWhile (· ≠ '.')).drop 1⟩

def Parts.wellFormed (p : Parts) : Bool :=
  !(p.whole.isEmpty && p.fraction.isEmpty) && p.whole.all isDigit && p.fraction.all isDigit

def Parts.magnitude? (p : Parts) : Option Magnitude := do
  let whole ← readDigits p.whole
  let fraction ← readDigits (p.fraction ++ List.replicate (places - p.fraction.length) '0')
  let scaled ← checked (whole.val * scale)
  checked (scaled.val + fraction.val)

def ofMagnitude (negative : Bool) (m : Magnitude) : Decimal where
  micros := if negative then -(m.val : Int) else m.val
  min_le_micros := by
    have := m.isLt
    split <;> omega
  micros_lt := by
    have := m.isLt
    split <;> omega

/-- Reads an optional sign and digits with at most one point. The sign is applied last, so a
magnitude of 2^63 millionths is out of range for either sign. -/
def parse (s : String) : Except ParseError Decimal :=
  let cs := Text.trim s.toList
  let parts := Parts.ofText cs
  if cs.isEmpty then .error .empty
  else if !parts.wellFormed then .error (.invalid (String.ofList cs))
  else if parts.fraction.length > places then .error (.tooManyPlaces (String.ofList cs))
  else
    match parts.magnitude? with
    | some m => .ok (ofMagnitude parts.negative m)
    | none => .error (.outOfRange (String.ofList cs))

def fractionDigits (n : Nat) : List Char :=
  let digits := Nat.toDigits 10 n
  List.replicate (places - digits.length) '0' ++ digits

def dropTrailingZeros (cs : List Char) : List Char := (cs.reverse.dropWhile (· = '0')).reverse

/-- The shortest plain text of the value: no exponent, no zero at the end of the fraction. -/
def toChars (d : Decimal) : List Char :=
  let magnitude := d.micros.natAbs
  let sign := if d.micros < 0 then ['-'] else []
  let whole := Nat.toDigits 10 (magnitude / scale)
  let fraction := magnitude % scale
  if fraction = 0 then sign ++ whole
  else sign ++ whole ++ '.' :: dropTrailingZeros (fractionDigits fraction)

instance : ToString Decimal := ⟨fun d => String.ofList d.toChars⟩

def order (a b : Decimal) : Ordering := compare a.micros b.micros

example : (parse " -0.250 ").toOption.map toString = some "-0.25" := by decide

end Decimal
end OfferLedger
