/-! # JSON values and their texts

Values whose numbers are whole, with object fields in the order in which they are written. `compact`
writes no blanks; `pretty` puts every element and field on a line of its own, two blanks deeper than
its bracket. Inside strings only the quote, the backslash and the controls are escaped. -/
namespace OfferLedger

inductive Json where
  | null
  | bool (value : Bool)
  | int (value : Int)
  | str (value : String)
  | arr (items : List Json)
  | obj (fields : List (String × Json))
  deriving Repr, Inhabited

namespace Json

def hexDigit (n : Nat) : Char := (Nat.toDigits 16 n).headD '0'

def escapeChar (c : Char) : List Char :=
  if c = '"' || c = '\\' then ['\\', c]
  else if c = '\x08' then ['\\', 'b']
  else if c = '\x0c' then ['\\', 'f']
  else if c = '\n' then ['\\', 'n']
  else if c = '\r' then ['\\', 'r']
  else if c = '\t' then ['\\', 't']
  else if c.toNat < 0x20 then
    ['\\', 'u', '0', '0', hexDigit (c.toNat / 16), hexDigit (c.toNat % 16)]
  else [c]

def quote (s : String) : List Char := '"' :: s.toList.flatMap escapeChar ++ ['"']

def scalar : Json → List Char
  | .null => "null".toList
  | .bool b => (if b then "true" else "false").toList
  | .int n => (toString n).toList
  | .str s => quote s
  | .arr _ => "[]".toList
  | .obj _ => "\x7b\x7d".toList

mutual

def compactChars : Json → List Char
  | .arr items => '[' :: compactItems true items ++ [']']
  | .obj fields => '\x7b' :: compactFields true fields ++ ['\x7d']
  | v => scalar v

def compactItems : Bool → List Json → List Char
  | _, [] => []
  | first, v :: rest =>
    (if first then [] else [',']) ++ compactChars v ++ compactItems false rest

def compactFields : Bool → List (String × Json) → List Char
  | _, [] => []
  | first, (k, v) :: rest =>
    (if first then [] else [',']) ++ quote k ++ ':' :: compactChars v ++ compactFields false rest

end

def indent (depth : Nat) : List Char := '\n' :: List.replicate (2 * depth) ' '

mutual

def prettyChars (depth : Nat) : Json → List Char
  | .arr [] => "[]".toList
  | .arr items => '[' :: prettyItems (depth + 1) true items ++ indent depth ++ [']']
  | .obj [] => "\x7b\x7d".toList
  | .obj fields => '\x7b' :: prettyFields (depth + 1) true fields ++ indent depth ++ ['\x7d']
  | v => scalar v

def prettyItems (depth : Nat) : Bool → List Json → List Char
  | _, [] => []
  | first, v :: rest =>
    (if first then [] else [',']) ++ indent depth ++ prettyChars depth v ++
      prettyItems depth false rest

def prettyFields (depth : Nat) : Bool → List (String × Json) → List Char
  | _, [] => []
  | first, (k, v) :: rest =>
    (if first then [] else [',']) ++ indent depth ++ quote k ++ ": ".toList ++
      prettyChars depth v ++ prettyFields depth false rest

end

def compact (v : Json) : String := String.ofList (compactChars v)

def pretty (v : Json) : String := String.ofList (prettyChars 0 v)

def ofOption (f : α → Json) : Option α → Json
  | none => .null
  | some a => f a

def nat (n : Nat) : Json := .int n

example : (obj [("a", arr [int (-1), null])]).compact = "\x7b\"a\":[-1,null]\x7d" := by decide

end Json
end OfferLedger
