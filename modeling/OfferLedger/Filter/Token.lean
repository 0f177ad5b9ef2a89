import OfferLedger.Text.Blank
import OfferLedger.Filter.Basic

/-! # The lexemes of a filter

A filter text is cut into lexemes with blanks between them. Offsets count the bytes of the text in
UTF-8. Words are ASCII and matched in case; `and`, `or`, `not` and `in` are reserved. A point belongs
to a number only with a digit behind it, and a minus sign only with a digit behind it. -/
namespace OfferLedger.Filter

inductive Token where
  | field (f : Field)
  | operator (op : Operator)
  | and
  | or
  | not
  | inList
  | text (s : String)
  | number (source : String)
  | leftParen
  | rightParen
  | comma
  deriving DecidableEq, Repr

/-- A token with the offset of its first byte. -/
structure Placed where
  token : Token
  offset : Nat
  deriving DecidableEq, Repr

inductive LexError where
  | unterminatedText (offset : Nat)
  | unknownWord (word : String) (offset : Nat)
  | unexpectedCharacter (c : Char) (offset : Nat)
  deriving DecidableEq, Repr

def LexError.offset : LexError → Nat
  | .unterminatedText offset | .unknownWord _ offset | .unexpectedCharacter _ offset => offset

def LexError.message : LexError → String
  | .unterminatedText offset => s!"unterminated string literal starting at offset {offset}"
  | .unknownWord word offset => s!"unknown identifier '{word}' at offset {offset}"
  | .unexpectedCharacter c offset => s!"unexpected character '{c}' at offset {offset}"

namespace Token

def ofWord? (w : String) : Option Token :=
  if w = "and" then some and
  else if w = "or" then some or
  else if w = "not" then some not
  else if w = "in" then some inList
  else
    match Field.ofName? w with
    | some f => some (field f)
    | none => (Operator.ofName? w).map operator

def isWordStart (c : Char) : Bool := c.isAlpha || c = '_'

def isWordPart (c : Char) : Bool := c.isAlphanum || c = '_'

/-- What a text literal holds, read from behind its opening quote, and the number of characters up to
and with the closing one. A backslash stands for itself unless a quote follows it. -/
def readText : List Char → Option (List Char × Nat)
  | [] => none
  | '\\' :: '\'' :: cs => (readText cs).map fun (s, n) => ('\'' :: s, n + 2)
  | '\'' :: _ => some ([], 1)
  | c :: cs => (readText cs).map fun (s, n) => (c :: s, n + 1)

def fractionLength : List Char → Nat
  | '.' :: d :: cs => if Decimal.isDigit d then 2 + (cs.takeWhile Decimal.isDigit).length else 0
  | _ => 0

def numberLength (cs : List Char) : Nat :=
  let whole := (cs.takeWhile Decimal.isDigit).length
  whole + fractionLength (cs.drop whole)

def startsDigit (cs : List Char) : Bool := cs.head?.any Decimal.isDigit

/-- The token that begins with `c` at the given offset, and how many of the characters after `c`
belong to it. -/
def lexeme (offset : Nat) (c : Char) (cs : List Char) : Except LexError (Token × Nat) :=
  if c = '(' then .ok (leftParen, 0)
  else if c = ')' then .ok (rightParen, 0)
  else if c = ',' then .ok (comma, 0)
  else if c = '\'' then
    match readText cs with
    | some (s, n) => .ok (text (String.ofList s), n)
    | none => .error (.unterminatedText offset)
  else if Decimal.isDigit c || (c = '-' && startsDigit cs) then
    let n := numberLength cs
    .ok (number (String.ofList (c :: cs.take n)), n)
  else if isWordStart c then
    let part := cs.takeWhile isWordPart
    let word := String.ofList (c :: part)
    match ofWord? word with
    | some t => .ok (t, part.length)
    | none => .error (.unknownWord word offset)
  else .error (.unexpectedCharacter c offset)

/-- Reads on at an offset; the second number counts the characters that still belong to the token
before. -/
def scan : (offset skip : Nat) → List Char → Except LexError (List Placed)
  | _, _, [] => .ok []
  | offset, skip + 1, c :: cs => scan (offset + c.utf8Size) skip cs
  | offset, 0, c :: cs =>
    if Text.isBlank c then scan (offset + c.utf8Size) 0 cs
    else do
      let (token, n) ← lexeme offset c cs
      let rest ← scan (offset + c.utf8Size) n cs
      .ok (⟨token, offset⟩ :: rest)

def tokenize (input : String) : Except LexError (List Placed) := scan 0 0 input.toList

def describe : Token → String
  | field f => s!"field '{f.name}'"
  | operator op => s!"operator '{op.name}'"
  | and => "'and'"
  | or => "'or'"
  | not => "'not'"
  | inList => "'in'"
  | text s => s!"string '{s}'"
  | number source => s!"number {source}"
  | leftParen => "'('"
  | rightParen => "')'"
  | comma => "','"

end Token
end OfferLedger.Filter
