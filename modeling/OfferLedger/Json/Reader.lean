import OfferLedger.Text.Hex
import OfferLedger.Json.Error

/-! # Reading JSON from bytes

Each reader takes the bytes that are left and answers its value with the bytes after it. What was
asked for decides how a value is read, so a value of the wrong type is reported as soon as it has been
read, whatever follows it. A value that nobody asked for is skipped, with its brackets held on a
stack, and only its grammar is checked. -/
namespace OfferLedger.Json

def failAt (problem : Problem) (rest : List UInt8) : Except ReadError α :=
  .error ⟨problem, rest.length⟩

def failIn (problem : Problem) (rest : List UInt8) : Except ReadError α :=
  .error ⟨problem, rest.length - 1⟩

def byte (c : Char) : UInt8 := c.toNat.toUInt8

def isSpace (b : UInt8) : Bool := b == 0x20 || b == 0x0A || b == 0x09 || b == 0x0D

def isDigitByte (b : UInt8) : Bool := 0x30 ≤ b && b ≤ 0x39

def skipSpaces (bytes : List UInt8) : List UInt8 := bytes.dropWhile isSpace

def readWord : List Char → List UInt8 → Except ReadError (List UInt8)
  | [], rest => .ok rest
  | _ :: _, [] => failAt .endInValue []
  | c :: cs, b :: rest => if b = byte c then readWord cs rest else failAt .noWord rest

inductive Number where
  | integer (value : Int)
  | double (value : Binary64)
  deriving DecidableEq, Repr

def Number.found : Number → Found
  | .integer n => .integer n
  | .double x => .double x

/-- Takes digits into a significand while it stays below 2^64, and counts those taken. Once one digit
does not fit, none after it is taken. -/
def absorb (significand : Nat) : List UInt8 → Nat × Nat
  | [] => (significand, 0)
  | b :: rest =>
    let next := 10 * significand + (b.toNat - 0x30)
    if next < 18446744073709551616 then
      let (s, taken) := absorb next rest
      (s, taken + 1)
    else (significand, 0)

def doubleOf (negative : Bool) (significand : Nat) (exponent : Int) (rest : List UInt8) :
    Except ReadError (Number × List UInt8) :=
  match Binary64.ofScientific negative significand exponent with
  | some x => .ok (.double x, rest)
  | none => failAt .doubleOutOfRange rest

def takeExponent (n : Nat) : List UInt8 → Except (List UInt8) (Nat × List UInt8)
  | [] => .ok (n, [])
  | b :: rest =>
    if isDigitByte b then
      let next := 10 * n + (b.toNat - 0x30)
      if next < 2147483648 then takeExponent next rest else .error rest
    else .ok (n, b :: rest)

/-- After the letter of an exponent: an optional sign and at least one digit. A positive exponent that
does not fit is refused at once, unless the significand is zero; every other one makes the number
zero, as the least exponent does. -/
def readExponent (significand : Nat) (bytes : List UInt8) : Except ReadError (Int × List UInt8) :=
  let (negative, rest) := match bytes with
    | b :: rest =>
      if b = byte '+' then (false, rest) else if b = byte '-' then (true, rest) else (false, bytes)
    | [] => (false, [])
  match rest with
  | [] => failAt .endInValue []
  | b :: after =>
    if isDigitByte b then
      match takeExponent 0 rest with
      | .ok (n, rest) => .ok (if negative then -(n : Int) else n, rest)
      | .error rest =>
        if negative || significand = 0 then .ok (-2147483648, rest.dropWhile isDigitByte)
        else failAt .doubleOutOfRange rest
    else failAt .badNumber after

def finishDouble (negative : Bool) (significand : Nat) (exponent : Int) (rest : List UInt8) :
    Except ReadError (Number × List UInt8) :=
  match rest with
  | b :: after =>
    if b = byte 'e' || b = byte 'E' then do
      let (n, rest) ← readExponent significand after
      doubleOf negative significand (exponent + n) rest
    else doubleOf negative significand exponent rest
  | [] => doubleOf negative significand exponent []

/-- A whole number that fits 64 bits with its sign is an integer; a fraction, an exponent, too many
digits or the number -0 make a double. -/
def finishNumber (negative : Bool) (digits rest : List UInt8) :
    Except ReadError (Number × List UInt8) :=
  let (significand, taken) := absorb 0 digits
  let dropped : Int := digits.length - taken
  match rest with
  | b :: after =>
    if b = byte '.' then
      let fraction := after.takeWhile isDigitByte
      let rest := after.dropWhile isDigitByte
      if fraction.isEmpty then
        failIn (if rest.isEmpty then .endInValue else .badNumber) rest
      else
        let (significand, taken) := absorb significand fraction
        finishDouble negative significand (dropped - taken) rest
    else if b = byte 'e' || b = byte 'E' then finishDouble negative significand dropped rest
    else whole significand dropped
  | [] => whole significand dropped
where
  whole (significand : Nat) (dropped : Int) : Except ReadError (Number × List UInt8) :=
    if dropped ≠ 0 then doubleOf negative significand dropped rest
    else if !negative then .ok (.integer significand, rest)
    else if significand = 0 || 9223372036854775808 < significand then doubleOf true significand 0 rest
    else .ok (.integer (-significand), rest)

def readDigits (negative : Bool) (bytes : List UInt8) : Except ReadError (Number × List UInt8) :=
  match bytes with
  | [] => failAt .endInValue []
  | b :: rest =>
    if b = byte '0' then
      match rest with
      | c :: _ => if isDigitByte c then failIn .badNumber rest else finishNumber negative [b] rest
      | [] => finishNumber negative [b] rest
    else if isDigitByte b then
      finishNumber negative (bytes.takeWhile isDigitByte) (bytes.dropWhile isDigitByte)
    else failAt .badNumber rest

def readHex (bytes : List UInt8) : Except ReadError Nat :=
  match bytes with
  | a :: b :: c :: d :: rest =>
    match Text.hexValue a, Text.hexValue b, Text.hexValue c, Text.hexValue d with
    | some a, some b, some c, some d => .ok (((a * 16 + b) * 16 + c) * 16 + d)
    | _, _, _, _ => failAt .badEscape rest
  | _ => failAt .endInText []

def encodeChar (n : Nat) : List UInt8 := String.utf8EncodeChar (Char.ofNat n)

def simpleEscape (b : UInt8) : Option UInt8 :=
  if b = byte '"' || b = byte '\\' || b = byte '/' then some b
  else if b = byte 'b' then some 0x08
  else if b = byte 'f' then some 0x0C
  else if b = byte 'n' then some 0x0A
  else if b = byte 'r' then some 0x0D
  else if b = byte 't' then some 0x09
  else none

/-- After `\u`: a code point outside the surrogates, or a leading surrogate directly followed by the
escape of a trailing one. Answers the encoded character and the number of bytes read. -/
def readCodePoint (bytes : List UInt8) : Except ReadError (List UInt8 × Nat) := do
  let n ← readHex bytes
  let rest := bytes.drop 4
  if n < 0xD800 || 0xDFFF < n then .ok (encodeChar n, 4)
  else if 0xDC00 ≤ n then failAt .loneSurrogate rest
  else
    match rest with
    | [] => failAt .endInText []
    | b :: rest =>
      if b ≠ byte '\\' then failAt .surrogateWithoutPair rest
      else
        match rest with
        | [] => failAt .endInText []
        | b :: rest =>
          if b ≠ byte 'u' then failAt .surrogateWithoutPair rest
          else
            let low ← readHex rest
            if low < 0xDC00 || 0xDFFF < low then failAt .loneSurrogate (rest.drop 4)
            else .ok (encodeChar (0x10000 + (n - 0xD800) * 0x400 + (low - 0xDC00)), 10)

def readEscape (bytes : List UInt8) : Except ReadError (List UInt8 × Nat) :=
  match bytes with
  | [] => failAt .endInText []
  | b :: rest =>
    match simpleEscape b with
    | some meant => .ok ([meant], 1)
    | none =>
      if b = byte 'u' then do
        let (meant, n) ← readCodePoint rest
        .ok (meant, n + 1)
      else failAt .badEscape rest

/-- The bytes up to the closing quote with escapes resolved, and the rest after it. The number counts
the bytes of an escape that are still to be passed over. -/
def readTextBytes : Nat → List UInt8 → Except ReadError (List UInt8 × List UInt8)
  | _, [] => failAt .endInText []
  | skip + 1, _ :: rest => readTextBytes skip rest
  | 0, b :: rest =>
    if b = byte '"' then .ok ([], rest)
    else if b = byte '\\' then do
      let (meant, n) ← readEscape rest
      let (more, rest) ← readTextBytes n rest
      .ok (meant ++ more, rest)
    else if b < 0x20 then failAt .controlCharacter rest
    else do
      let (more, rest) ← readTextBytes 0 rest
      .ok (b :: more, rest)

def readText (bytes : List UInt8) : Except ReadError (String × List UInt8) := do
  let (bytes, rest) ← readTextBytes 0 bytes
  match String.fromUTF8? ⟨bytes.toArray⟩ with
  | some s => .ok (s, rest)
  | none => failAt .badEncoding rest

inductive Bracket where
  | list
  | object
  deriving DecidableEq, Repr

def Bracket.close : Bracket → UInt8
  | .list => byte ']'
  | .object => byte '\x7d'

inductive Phase where
  | value
  | firstOrClose
  | key
  | colon
  | separatorOrClose
  deriving DecidableEq, Repr

def Phase.atEnd (phase : Phase) (innermost : Option Bracket) : Problem :=
  if phase = .value then .endInValue
  else
    match innermost with
    | some .list => .endInList
    | _ => .endInObject

/-- The length of a skipped string from behind its opening quote; the bytes need not be UTF-8. A control
character is reported where it stands, not behind it. -/
def textLength : Nat → List UInt8 → Except ReadError Nat
  | _, [] => failAt .endInText []
  | skip + 1, _ :: rest => (textLength skip rest).map (· + 1)
  | 0, b :: rest =>
    if b = byte '"' then .ok 1
    else if b = byte '\\' then
      match rest with
      | [] => failAt .endInText []
      | e :: after =>
        if (simpleEscape e).isSome then (textLength 1 rest).map (· + 1)
        else if e = byte 'u' then do
          let _ ← readHex after
          (textLength 5 rest).map (· + 1)
        else failAt .badEscape after
    else if b < 0x20 then failAt .controlCharacter (b :: rest)
    else (textLength 0 rest).map (· + 1)

def exponentLength (bytes : List UInt8) : Except ReadError Nat :=
  match bytes with
  | b :: rest =>
    if b = byte 'e' || b = byte 'E' then
      let sign := match rest with
        | s :: _ => if s = byte '+' || s = byte '-' then 1 else 0
        | [] => 0
      let digits := (rest.drop sign).takeWhile isDigitByte
      if digits.isEmpty then failAt .badNumber (rest.drop (sign + 1))
      else .ok (1 + sign + digits.length)
    else .ok 0
  | [] => .ok 0

def numberLength (bytes : List UInt8) : Except ReadError Nat :=
  match bytes with
  | [] => failAt .badNumber []
  | b :: rest =>
    let whole := if b = byte '0' then 1 else (bytes.takeWhile isDigitByte).length
    if whole = 0 then failAt .badNumber rest
    else if b = byte '0' && (rest.headD 0 |> isDigitByte) then failIn .badNumber rest
    else
      let after := bytes.drop whole
      if after.head? = some (byte '.') then
        let fraction := ((after.drop 1).takeWhile isDigitByte).length
        if fraction = 0 then failIn .badNumber (after.drop 1)
        else do
          let exponent ← exponentLength (after.drop (1 + fraction))
          .ok (whole + 1 + fraction + exponent)
      else do
        let exponent ← exponentLength after
        .ok (whole + exponent)

def scalarLength (first : UInt8) (rest : List UInt8) : Except ReadError Nat :=
  if first = byte 'n' then do let _ ← readWord "ull".toList rest; .ok 3
  else if first = byte 't' then do let _ ← readWord "rue".toList rest; .ok 3
  else if first = byte 'f' then do let _ ← readWord "alse".toList rest; .ok 4
  else if first = byte '"' then textLength 0 rest
  else if first = byte '-' then numberLength rest
  else if isDigitByte first then do .ok ((← numberLength (first :: rest)) - 1)
  else failIn .noValue (first :: rest)

/-- The step taken at one byte: how many more bytes it covers, the next phase, the open brackets. -/
structure Move where
  skip : Nat
  phase : Phase
  brackets : List Bracket
  deriving DecidableEq, Repr

def startValue (brackets : List Bracket) (b : UInt8) (rest : List UInt8) : Except ReadError Move :=
  if b = byte '[' then .ok ⟨0, .firstOrClose, .list :: brackets⟩
  else if b = byte '\x7b' then .ok ⟨0, .firstOrClose, .object :: brackets⟩
  else do .ok ⟨← scalarLength b rest, .separatorOrClose, brackets⟩

def startKey (brackets : List Bracket) (b : UInt8) (rest : List UInt8) : Except ReadError Move :=
  if b = byte '"' then do .ok ⟨← textLength 0 rest, .colon, brackets⟩
  else failIn .noKey (b :: rest)

def move (phase : Phase) (brackets : List Bracket) (b : UInt8) (rest : List UInt8) :
    Except ReadError Move :=
  match phase, brackets with
  | .value, _ => startValue brackets b rest
  | .key, _ => startKey brackets b rest
  | .colon, _ =>
    if b = byte ':' then .ok ⟨0, .value, brackets⟩ else failIn .noColon (b :: rest)
  | .firstOrClose, bracket :: outer =>
    if b = bracket.close then .ok ⟨0, .separatorOrClose, outer⟩
    else if bracket = .list then startValue brackets b rest
    else startKey brackets b rest
  | .separatorOrClose, bracket :: outer =>
    if b = bracket.close then .ok ⟨0, .separatorOrClose, outer⟩
    else if b = byte ',' then .ok ⟨0, if bracket = .list then .value else .key, brackets⟩
    else failIn (if bracket = .list then .noListSeparator else .noObjectSeparator) (b :: rest)
  | _, [] => failIn .noValue (b :: rest)

def skipFrom : Nat → Phase → List Bracket → List UInt8 → Except ReadError (List UInt8)
  | _, phase, brackets, [] => failAt (phase.atEnd brackets.head?) []
  | skip + 1, phase, brackets, _ :: rest => skipFrom skip phase brackets rest
  | 0, phase, brackets, b :: rest =>
    if isSpace b then skipFrom 0 phase brackets rest
    else
      match move phase brackets b rest with
      | .error e => .error e
      | .ok next =>
        if next.phase = .separatorOrClose && next.brackets.isEmpty then .ok (rest.drop next.skip)
        else skipFrom next.skip next.phase next.brackets rest

def skipValue (bytes : List UInt8) : Except ReadError (List UInt8) := skipFrom 0 .value [] bytes

/-- Reads a value of the wrong type far enough to name it. Lists and objects are named at once. -/
def failUnexpected (expected : Expected) (bytes : List UInt8) : Except ReadError α :=
  match bytes with
  | [] => failAt .endInValue []
  | b :: rest => do
    let (found, rest) ←
      if b = byte 'n' then do .ok (Found.null, ← readWord "ull".toList rest)
      else if b = byte 't' then do .ok (.boolean true, ← readWord "rue".toList rest)
      else if b = byte 'f' then do .ok (.boolean false, ← readWord "alse".toList rest)
      else if b = byte '-' then do
        let (n, rest) ← readDigits true rest
        .ok (n.found, rest)
      else if isDigitByte b then do
        let (n, rest) ← readDigits false bytes
        .ok (n.found, rest)
      else if b = byte '"' then do
        let (s, rest) ← readText rest
        .ok (.text s, rest)
      else if b = byte '[' then .ok (.sequence, bytes)
      else if b = byte '\x7b' then .ok (.map, bytes)
      else failIn .noValue bytes
    failAt (.mismatch (.unexpected found expected)) rest

def passListEnd (bytes : List UInt8) : List UInt8 :=
  match skipSpaces bytes with
  | [] => []
  | b :: rest =>
    if b = byte ']' then rest else if b = byte ',' then skipSpaces rest else b :: rest

def passObjectEnd (bytes : List UInt8) : List UInt8 :=
  match skipSpaces bytes with
  | [] => []
  | b :: rest => if b = byte '\x7d' then rest else b :: rest

def readString (bytes : List UInt8) : Except ReadError (String × List UInt8) :=
  match skipSpaces bytes with
  | [] => failAt .endInValue []
  | b :: rest => if b = byte '"' then readText rest else failUnexpected .text (b :: rest)

def decimalOf (text : String) (rest : List UInt8) : Except ReadError (Decimal × List UInt8) :=
  match Decimal.parse text with
  | .ok d => .ok (d, rest)
  | .error cause => failAt (.mismatch (.decimal cause)) rest

def Number.toDecimal (n : Number) (rest : List UInt8) : Except ReadError (Decimal × List UInt8) :=
  match n with
  | .integer n =>
    match Decimal.ofInt? n with
    | some d => .ok (d, rest)
    | none => failAt (.mismatch (.decimal (.outOfRange (toString n)))) rest
  | .double x => decimalOf (String.ofList x.plain) rest

/-- A decimal is a number or a string that holds one. A list or an object is opened before it is
refused. -/
def readDecimal (bytes : List UInt8) : Except ReadError (Decimal × List UInt8) :=
  match skipSpaces bytes with
  | [] => failAt .endInValue []
  | b :: rest =>
    if b = byte '"' then do
      let (text, rest) ← readText rest
      decimalOf text rest
    else if b = byte '-' then do
      let (n, rest) ← readDigits true rest
      n.toDecimal rest
    else if isDigitByte b then do
      let (n, rest) ← readDigits false (b :: rest)
      n.toDecimal rest
    else if b = byte '[' then
      failAt (.mismatch (.unexpected .sequence .decimal)) (passListEnd rest)
    else if b = byte '\x7b' then
      failAt (.mismatch (.unexpected .map .decimal)) (passObjectEnd rest)
    else failUnexpected .decimal (b :: rest)

def nextElement (first : Bool) (bytes : List UInt8) : Except ReadError (Bool × List UInt8) :=
  match skipSpaces bytes with
  | [] => failAt .endInList []
  | b :: rest =>
    if b = byte ']' then .ok (false, b :: rest)
    else if first then .ok (true, b :: rest)
    else if b = byte ',' then
      match skipSpaces rest with
      | [] => failAt .endInValue []
      | c :: after =>
        if c = byte ']' then failIn .trailingComma (c :: after) else .ok (true, c :: after)
    else failIn .noListSeparator (b :: rest)

def closeList (bytes : List UInt8) : Except ReadError (List UInt8) :=
  match skipSpaces bytes with
  | [] => failAt .endInList []
  | b :: rest =>
    if b = byte ']' then .ok rest
    else if b = byte ',' then
      match skipSpaces rest with
      | c :: after => failIn (if c = byte ']' then .trailingComma else .trailingText) (c :: after)
      | [] => failIn .trailingText []
    else failIn .trailingText (b :: rest)

def nextKey (first : Bool) (bytes : List UInt8) :
    Except ReadError (Option String × List UInt8) := do
  let bytes ← match skipSpaces bytes with
    | [] => failAt .endInObject []
    | b :: rest =>
      if b = byte '\x7d' then .ok (b :: rest)
      else if first then .ok (b :: rest)
      else if b = byte ',' then
        match skipSpaces rest with
        | [] => failAt .endInValue []
        | c :: after =>
          if c = byte '\x7d' then failIn .trailingComma (c :: after) else .ok (c :: after)
      else failIn .noObjectSeparator (b :: rest)
  match bytes with
  | [] => failAt .endInObject []
  | b :: rest =>
    if b = byte '\x7d' then .ok (none, rest)
    else if b = byte '"' then do
      let (key, rest) ← readText rest
      .ok (some key, rest)
    else failIn .noKey (b :: rest)

def readColon (bytes : List UInt8) : Except ReadError (List UInt8) :=
  match skipSpaces bytes with
  | [] => failAt .endInObject []
  | b :: rest => if b = byte ':' then .ok rest else failIn .noColon (b :: rest)

def readAll (read : List UInt8 → Except ReadError (α × List UInt8)) (bytes : List UInt8) :
    Except ReadError α := do
  let (value, rest) ← read bytes
  match skipSpaces rest with
  | [] => .ok value
  | rest => failIn .trailingText rest

end OfferLedger.Json
