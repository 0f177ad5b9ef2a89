/-! # Glob patterns

A pattern is made of `*` for any text, `?` for any character, bracketed classes, and characters that
stand for themselves. A class may begin with `^` to be inverted, a `]` at its very start belongs to it,
and two characters around a `-` are a range. A class that is never closed matches nothing. The last two
code points of the basic plane are no characters: in patterns and texts they are read as the
replacement character. -/
namespace OfferLedger.Query

inductive Member where
  | single (c : Char)
  | range (first last : Char)
  deriving DecidableEq, Repr

def Member.covers (m : Member) (c : Char) : Bool :=
  match m with
  | .single d => c == d
  | .range first last => first ≤ c && c ≤ last

inductive Atom where
  | anyText
  | anyChar
  | oneOf (inverted : Bool) (members : List Member)
  | literal (c : Char)
  deriving DecidableEq, Repr

def Atom.accepts (a : Atom) (c : Char) : Bool :=
  match a with
  | .anyText | .anyChar => true
  | .oneOf inverted members => members.any (·.covers c) != inverted
  | .literal d => c == d

/-- A class without its opening bracket, and the pattern after it. `previous` is the character that a
range could begin with, and a range uses it up. -/
def classMembers (previous : Option Char) : List Char → Option (List Member × List Char)
  | [] => none
  | c :: cs =>
    if c = ']' then some ([], cs)
    else
      match previous, cs with
      | some first, last :: rest =>
        if c = '-' && last ≠ ']' then
          (classMembers none rest).map fun (ms, after) => (.range first last :: ms, after)
        else (classMembers (some c) (last :: rest)).map fun (ms, after) => (.single c :: ms, after)
      | _, cs => (classMembers (some c) cs).map fun (ms, after) => (.single c :: ms, after)

def readClass (cs : List Char) : Option (Atom × List Char) :=
  let (inverted, cs) := match cs with
    | '^' :: rest => (true, rest)
    | _ => (false, cs)
  match cs with
  | ']' :: rest => (classMembers none rest).map fun (ms, after) =>
    (.oneOf inverted (.single ']' :: ms), after)
  | _ => (classMembers none cs).map fun (ms, after) => (.oneOf inverted ms, after)

/-- The atoms of a pattern, or none if a class is not closed. Every atom takes a character, so the
length of the pattern is fuel enough. -/
def readAtoms : (fuel : Nat) → List Char → Option (List Atom)
  | _, [] => some []
  | 0, _ :: _ => none
  | fuel + 1, c :: cs =>
    if c = '*' then (readAtoms fuel cs).map (.anyText :: ·)
    else if c = '?' then (readAtoms fuel cs).map (.anyChar :: ·)
    else if c = '[' then do
      let (a, rest) ← readClass cs
      (readAtoms fuel rest).map (a :: ·)
    else (readAtoms fuel cs).map (.literal c :: ·)

/-- Every way to leave out characters at the start of a text, the whole text first. -/
def remainders : List Char → List (List Char)
  | [] => [[]]
  | c :: cs => (c :: cs) :: remainders cs

def matchAtoms : List Atom → List Char → Bool
  | [], text => text.isEmpty
  | .anyText :: rest, text => (remainders text).any (matchAtoms rest)
  | a :: rest, text =>
    match text with
    | [] => false
    | c :: cs => a.accepts c && matchAtoms rest cs

def readable (c : Char) : Char := if c = '\ufffe' || c = '\uffff' then '\ufffd' else c

theorem map_readable (cs : List Char) (h : ∀ c ∈ cs, c ≠ '\ufffe' ∧ c ≠ '\uffff') :
    cs.map readable = cs := by
  induction cs with
  | nil => rfl
  | cons c cs ih =>
    have hc := h c (List.mem_cons_self ..)
    have rest := ih fun d hd => h d (List.mem_cons_of_mem c hd)
    simp [readable, hc, rest]

def globMatches (pattern text : List Char) : Bool :=
  match readAtoms pattern.length (pattern.map readable) with
  | some atoms => matchAtoms atoms (text.map readable)
  | none => false

/-- A pattern in which every character stands for itself. -/
def globLiteral (text : List Char) : List Char :=
  text.flatMap fun c =>
    if c = '*' || c = '?' || c = '[' then ['[', c, ']'] else [c]

example : globMatches "[^a-c]*".toList "dog".toList = true := by decide +kernel

end OfferLedger.Query
