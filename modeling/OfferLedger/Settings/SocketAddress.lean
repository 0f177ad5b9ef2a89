/-! # Socket addresses

An address of four octets or of eight groups, with a port. Groups are written in hexadecimal, the
longest run of at least two zero groups is written `::`, and the last two groups may be given as four
octets. An address in brackets may name a scope after a percent sign. -/
namespace OfferLedger

inductive SocketAddress where
  | v4 (octets : List Nat) (port : Nat)
  | v6 (groups : List Nat) (scope port : Nat)
  deriving DecidableEq, Repr

namespace SocketAddress

def digitValue? (base : Nat) (c : Char) : Option Nat :=
  let value? :=
    if '0' ≤ c && c ≤ '9' then some (c.toNat - '0'.toNat)
    else if 'a' ≤ c && c ≤ 'f' then some (c.toNat - 'a'.toNat + 10)
    else if 'A' ≤ c && c ≤ 'F' then some (c.toNat - 'A'.toNat + 10)
    else none
  value?.filter (· < base)

structure NumberForm where
  base : Nat
  maxDigits : Option Nat
  leadingZeros : Bool
  bound : Nat
  deriving DecidableEq, Repr

def octetForm : NumberForm := ⟨10, some 3, false, 256⟩

def groupForm : NumberForm := ⟨16, some 4, true, 65536⟩

def portForm : NumberForm := ⟨10, none, true, 65536⟩

def scopeForm : NumberForm := ⟨10, none, true, 4294967296⟩

abbrev Reader (α : Type) := List Char → Option (α × List Char)

def readNumber (form : NumberForm) : Reader Nat := fun cs =>
  let isDigit (c : Char) : Bool := (digitValue? form.base c).isSome
  let digits := (cs.takeWhile isDigit).filterMap (digitValue? form.base)
  let value := digits.foldl (fun n d => form.base * n + d) 0
  if digits.isEmpty || form.maxDigits.any (· < digits.length) then none
  else if !form.leadingZeros && digits.head? = some 0 && 1 < digits.length then none
  else if form.bound ≤ value then none
  else some (value, cs.dropWhile isDigit)

def readChar (c : Char) : Reader Unit
  | d :: rest => if d = c then some ((), rest) else none
  | [] => none

def readSeparated (separator : Char) (first : Bool) (read : Reader α) : Reader α := fun cs =>
  if first then read cs else (readChar separator cs).bind fun (_, rest) => read rest

def readOctets : (count : Nat) → (first : Bool) → Reader (List Nat)
  | 0, _, cs => some ([], cs)
  | count + 1, first, cs => do
    let (octet, rest) ← readSeparated '.' first (readNumber octetForm) cs
    let (octets, rest) ← readOctets count false rest
    some (octet :: octets, rest)

def groupsOfOctets : List Nat → List Nat
  | a :: b :: rest => (256 * a + b) :: groupsOfOctets rest
  | _ => []

/-- At most so many groups, of which the last two may be given as octets; the flag says if they were. -/
def readGroups : (count : Nat) → (first : Bool) → List Char → (List Nat × Bool) × List Char
  | 0, _, cs => (([], false), cs)
  | count + 1, first, cs =>
    let octets? := if count = 0 then none else readSeparated ':' first (readOctets 4 true) cs
    match octets? with
    | some (octets, rest) => ((groupsOfOctets octets, true), rest)
    | none =>
      match readSeparated ':' first (readNumber groupForm) cs with
      | none => (([], false), cs)
      | some (group, rest) =>
        let ((groups, inOctets), rest) := readGroups count false rest
        ((group :: groups, inOctets), rest)

/-- Eight groups, or fewer around one `::`. Octets stand only at the end. -/
def readV6 : Reader (List Nat) := fun cs => do
  let ((head, inOctets), rest) := readGroups 8 true cs
  if head.length = 8 then some (head, rest)
  else if inOctets then none
  else
    let (_, rest) ← readChar ':' rest
    let (_, rest) ← readChar ':' rest
    let ((tail, _), rest) := readGroups (7 - head.length) true rest
    some (head ++ List.replicate (8 - head.length - tail.length) 0 ++ tail, rest)

def readPort : Reader Nat := fun cs => do
  let (_, rest) ← readChar ':' cs
  readNumber portForm rest

def readScope (cs : List Char) : Nat × List Char :=
  ((readChar '%' cs).bind fun (_, rest) => readNumber scopeForm rest).getD (0, cs)

def readV4Address : Reader SocketAddress := fun cs => do
  let (octets, rest) ← readOctets 4 true cs
  let (port, rest) ← readPort rest
  some (v4 octets port, rest)

def readV6Address : Reader SocketAddress := fun cs => do
  let (_, rest) ← readChar '[' cs
  let (groups, rest) ← readV6 rest
  let (scope, rest) := readScope rest
  let (_, rest) ← readChar ']' rest
  let (port, rest) ← readPort rest
  some (v6 groups scope port, rest)

def parse? (cs : List Char) : Option SocketAddress :=
  match (readV4Address cs).orElse fun _ => readV6Address cs with
  | some (address, []) => some address
  | _ => none

def dotted (octets : List Nat) : String := ".".intercalate (octets.map toString)

def hex (n : Nat) : String := String.ofList (Nat.toDigits 16 n)

def joined (groups : List Nat) : String := ":".intercalate (groups.map hex)

def zeros (groups : List Nat) : Nat := (groups.takeWhile (· = 0)).length

def longestZeros : (start : Nat) → List Nat → Nat × Nat
  | start, [] => (start, 0)
  | start, g :: rest =>
    let here := zeros (g :: rest)
    let later := longestZeros (start + 1) rest
    if later.2 ≤ here then (start, here) else later

def v6Text (groups : List Nat) : String :=
  match groups with
  | [0, 0, 0, 0, 0, 0xFFFF, a, b] =>
    "::ffff:" ++ dotted [a / 256, a % 256, b / 256, b % 256]
  | groups =>
    let (start, length) := longestZeros 0 groups
    if 1 < length then joined (groups.take start) ++ "::" ++ joined (groups.drop (start + length))
    else joined groups

instance : ToString SocketAddress where
  toString
    | v4 octets port => s!"{dotted octets}:{port}"
    | v6 groups scope port =>
      let suffix := if scope = 0 then "" else s!"%{scope}"
      s!"[{v6Text groups}{suffix}]:{port}"

end SocketAddress
end OfferLedger
