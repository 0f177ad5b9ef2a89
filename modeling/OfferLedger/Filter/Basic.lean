import OfferLedger.Listing.Field

/-! # Filters

A filter is a tree of comparisons under `and`, `or` and `not`. Its text is fully parenthesised, so it
reads back as the same tree as long as the parentheses do not nest too deeply. Only the quote is
escaped inside a text value; a value that ends in a backslash therefore has no literal, and no
literal has such a value. -/
namespace OfferLedger

inductive Operator where
  | eq
  | ne
  | gt
  | ge
  | lt
  | le
  | contains
  | startsWith
  | endsWith
  deriving DecidableEq, Repr

namespace Operator

def all : List Operator := [eq, ne, gt, ge, lt, le, contains, startsWith, endsWith]

def name : Operator → String
  | eq => "eq"
  | ne => "ne"
  | gt => "gt"
  | ge => "ge"
  | lt => "lt"
  | le => "le"
  | contains => "contains"
  | startsWith => "startswith"
  | endsWith => "endswith"

def ofName? (s : String) : Option Operator := all.find? (·.name == s)

def isTextOnly : Operator → Bool
  | contains | startsWith | endsWith => true
  | _ => false

end Operator

inductive Filter where
  | compare (field : Field) (op : Operator) (value : Value)
  | isIn (field : Field) (values : List Value)
  | and (left right : Filter)
  | or (left right : Filter)
  | not (operand : Filter)
  deriving DecidableEq, Repr

/-- The literal of a value: a text between single quotes with its quotes escaped, or a number. -/
def Value.toChars : Value → List Char
  | .text s => '\'' :: s.toList.flatMap (fun c => if c = '\'' then ['\\', '\''] else [c]) ++ ['\'']
  | .number d => d.toChars

namespace Filter

def joinValues : List Value → List Char
  | [] => []
  | [v] => v.toChars
  | v :: vs => v.toChars ++ ", ".toList ++ joinValues vs

def toChars : Filter → List Char
  | compare f op v => f.name.toList ++ ' ' :: op.name.toList ++ ' ' :: v.toChars
  | isIn f vs => f.name.toList ++ " in (".toList ++ joinValues vs ++ [')']
  | and l r => '(' :: l.toChars ++ " and ".toList ++ r.toChars ++ [')']
  | or l r => '(' :: l.toChars ++ " or ".toList ++ r.toChars ++ [')']
  | not n => "not ".toList ++ n.toChars

instance : ToString Filter := ⟨fun n => String.ofList n.toChars⟩

/-- The literals of a filter from left to right. -/
def values : Filter → List Value
  | compare _ _ v => [v]
  | isIn _ vs => vs
  | and l r | or l r => l.values ++ r.values
  | not n => n.values

def size : Filter → Nat
  | compare .. | isIn .. => 1
  | and l r | or l r => l.size + r.size + 1
  | not n => n.size + 1

/-- The greatest number of `and` and `or` on a path from the root: each is written in parentheses. -/
def depth : Filter → Nat
  | compare .. | isIn .. => 0
  | and l r | or l r => max l.depth r.depth + 1
  | not n => n.depth

/-- Every value has the kind of its field, operators on parts of a text stand on text fields only,
and no list of values is empty. -/
def WellTyped : Filter → Prop
  | compare f op v => v.kind = f.kind ∧ (op.isTextOnly = true → f.kind = .text)
  | isIn f vs => vs ≠ [] ∧ ∀ v ∈ vs, v.kind = f.kind
  | and l r | or l r => l.WellTyped ∧ r.WellTyped
  | not n => n.WellTyped

end Filter
end OfferLedger
