import OfferLedger.Filter.Basic
import OfferLedger.Listing.Basic

/-! # Which listings a filter selects

Texts are compared by code points, which is the order of their UTF-8 bytes, and decimals by value. A
value of the wrong kind matches nothing. -/
namespace OfferLedger

namespace Text

/-- Whether `part` stands somewhere in the text. -/
def containsPart (part : List Char) : List Char → Bool
  | [] => part.isEmpty
  | c :: cs => part.isPrefixOf (c :: cs) || containsPart part cs

end Text

def Value.order? : Value → Value → Option Ordering
  | .text a, .text b => some (compareOfLessAndEq a b)
  | .number a, .number b => some (a.order b)
  | _, _ => none

namespace Operator

def holdsOrder (op : Operator) (o : Ordering) : Bool :=
  match op with
  | .eq => o == .eq
  | .ne => o != .eq
  | .gt => o == .gt
  | .ge => o != .lt
  | .lt => o == .lt
  | _ => o != .gt

def holdsText (op : Operator) (actual expected : List Char) : Bool :=
  match op with
  | .contains => Text.containsPart expected actual
  | .startsWith => expected.isPrefixOf actual
  | _ => expected.isSuffixOf actual

def holds (op : Operator) (actual expected : Value) : Bool :=
  if op.isTextOnly then
    match actual, expected with
    | .text a, .text e => op.holdsText a.toList e.toList
    | _, _ => false
  else (actual.order? expected).any op.holdsOrder

end Operator

def Filter.selects (l : Listing) : Filter → Bool
  | .compare f op v => op.holds (l.value f) v
  | .isIn f vs => vs.any fun v => (l.value f).order? v == some .eq
  | .and a b => a.selects l && b.selects l
  | .or a b => a.selects l || b.selects l
  | .not n => !n.selects l

end OfferLedger
