import OfferLedger.Filter.Basic
import OfferLedger.Filter.Match
import OfferLedger.Query.Glob

/-! # Filters as conditions on stored rows

A filter is turned into a condition with a place for every value and the list of those values, so
that no text of the user ever stands in the condition. The condition is written as the WHERE part of
a query and evaluated on a row, taking the values from the list as it comes to their places. -/
namespace OfferLedger.Query

inductive Param where
  | text (s : String)
  | integer (n : Int)
  deriving DecidableEq, Repr

inductive Relation where
  | eq
  | ne
  | gt
  | ge
  | lt
  | le
  deriving DecidableEq, Repr

def Relation.symbol : Relation → String
  | .eq => "="
  | .ne => "<>"
  | .gt => ">"
  | .ge => ">="
  | .lt => "<"
  | .le => "<="

inductive Condition where
  | compare (field : Field) (relation : Relation)
  | glob (field : Field)
  | isIn (field : Field) (places : Nat)
  | and (left right : Condition)
  | or (left right : Condition)
  | not (operand : Condition)
  deriving DecidableEq, Repr

namespace Condition

def places : Nat → List Char
  | 0 => []
  | 1 => ['?']
  | n + 1 => "?, ".toList ++ places n

def toChars : Condition → List Char
  | compare f r => f.column.toList ++ ' ' :: r.symbol.toList ++ " ?".toList
  | glob f => f.column.toList ++ " GLOB ?".toList
  | isIn f n => f.column.toList ++ " IN (".toList ++ places n ++ [')']
  | and l r => '(' :: l.toChars ++ " AND ".toList ++ r.toChars ++ [')']
  | or l r => '(' :: l.toChars ++ " OR ".toList ++ r.toChars ++ [')']
  | not n => "NOT (".toList ++ n.toChars ++ [')']

end Condition

def relationOf : Operator → Relation
  | .eq => .eq
  | .ne => .ne
  | .gt => .gt
  | .ge => .ge
  | .lt => .lt
  | _ => .le

/-- The pattern for an operator on a part of a text. -/
def patternOf (op : Operator) (s : String) : String :=
  let literal := globLiteral s.toList
  String.ofList <|
    match op with
    | .contains => '*' :: literal ++ ['*']
    | .startsWith => literal ++ ['*']
    | _ => '*' :: literal

def paramOf : Value → Param
  | .text s => .text s
  | .number d => .integer d.micros

def comparison (f : Field) (op : Operator) (v : Value) : Condition × Param :=
  match op.isTextOnly, v with
  | true, .text s => (.glob f, .text (patternOf op s))
  | _, v => (.compare f (relationOf op), paramOf v)

def conditionOf : Filter → Condition
  | .compare f op v => (comparison f op v).1
  | .isIn f vs => .isIn f vs.length
  | .and l r => .and (conditionOf l) (conditionOf r)
  | .or l r => .or (conditionOf l) (conditionOf r)
  | .not n => .not (conditionOf n)

def paramsOf : Filter → List Param
  | .compare f op v => [(comparison f op v).2]
  | .isIn _ vs => vs.map paramOf
  | .and l r | .or l r => paramsOf l ++ paramsOf r
  | .not n => paramsOf n

/-- What a column of a stored row can hold. A row that was written by this library holds texts in text
columns and integers in numeric ones; the remaining cells can only come from damage. -/
inductive Cell where
  | integer (n : Int)
  | text (s : String)
  | blob
  deriving DecidableEq, Repr

/-- Integers come before texts and texts before blobs. -/
def Cell.order : Cell → Cell → Ordering
  | .integer a, .integer b => compare a b
  | .integer _, _ => .lt
  | .text _, .integer _ => .gt
  | .text a, .text b => compareOfLessAndEq a b
  | .text _, .blob => .lt
  | .blob, .blob => .eq
  | .blob, _ => .gt

def Param.cell : Param → Cell
  | .text s => .text s
  | .integer n => .integer n

def Relation.holds (r : Relation) (o : Ordering) : Bool :=
  match r with
  | .eq => o == .eq
  | .ne => o != .eq
  | .gt => o == .gt
  | .ge => o != .lt
  | .lt => o == .lt
  | .le => o != .gt

/-- Patterns are matched against texts, and an integer is matched by its digits. -/
def Cell.globText : Cell → List Char
  | .integer n => (toString n).toList
  | .text s => s.toList
  | .blob => []

namespace Condition

def eval (row : Field → Cell) : Condition → List Param → Option (Bool × List Param)
  | compare _ _, [] => none
  | compare f r, p :: ps => some (r.holds ((row f).order p.cell), ps)
  | glob _, [] => none
  | glob f, p :: ps => some (globMatches p.cell.globText (row f).globText, ps)
  | isIn f n, ps =>
    if ps.length < n then none
    else some ((ps.take n).any fun p => (row f).order p.cell == .eq, ps.drop n)
  | and l r, ps => do
    let (a, ps) ← l.eval row ps
    let (b, ps) ← r.eval row ps
    some (a && b, ps)
  | or l r, ps => do
    let (a, ps) ← l.eval row ps
    let (b, ps) ← r.eval row ps
    some (a || b, ps)
  | not n, ps => do
    let (a, ps) ← n.eval row ps
    some (!a, ps)

/-- A row is selected when the condition is true and has taken every value. -/
def holds (c : Condition) (params : List Param) (row : Field → Cell) : Bool :=
  c.eval row params == some (true, [])

end Condition
end OfferLedger.Query
