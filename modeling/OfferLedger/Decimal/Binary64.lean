/-! # Binary numbers of 64 bits

A finite binary number is a sign, a mantissa below 2^53 and a power of two. Everything here is exact
arithmetic on natural numbers: rounding a ratio to the nearest binary number, reading a decimal
significand with a power of ten, and the fewest decimal digits that read back as the same number. -/
namespace OfferLedger

/-- `± mantissa · 2^exponent`. Unless the exponent is the least one, -1074, the mantissa is at least
2^52, so each number has one form. -/
structure Binary64 where
  negative : Bool
  mantissa : Nat
  exponent : Int
  deriving DecidableEq, Repr

namespace Binary64

def twoUp (e : Int) : Nat := Nat.pow 2 e.toNat

def twoDown (e : Int) : Nat := Nat.pow 2 (-e).toNat

/-- The quotient rounded to the nearest whole number, a half to the even one. -/
def divideToEven (num den : Nat) : Nat :=
  let q := num / den
  let r := num % den
  if 2 * r < den || (2 * r == den && q % 2 == 0) then q else q + 1

def floorLog2 (num den : Nat) : Int :=
  let a : Int := (Nat.log2 num : Int) - Nat.log2 den
  if den * twoUp a ≤ num * twoDown a then a else a - 1

def nearest (negative : Bool) (num den : Nat) : Option Binary64 :=
  if num = 0 then some ⟨negative, 0, -1074⟩
  else
    let e := max (floorLog2 num den - 52) (-1074)
    let m := divideToEven (num * twoDown e) (den * twoUp e)
    let (m, e) := if m = 9007199254740992 then (4503599627370496, e + 1) else (m, e)
    if 971 < e then none else some ⟨negative, m, e⟩

def timesTen (x : Binary64) (k : Nat) : Option Binary64 := do
  let p ← nearest false (Nat.pow 10 k) 1
  let e := x.exponent + p.exponent
  nearest x.negative (x.mantissa * p.mantissa * twoUp e) (twoDown e)

def overTen (x : Binary64) (k : Nat) : Option Binary64 := do
  let p ← nearest false (Nat.pow 10 k) 1
  let e := x.exponent - p.exponent
  nearest x.negative (x.mantissa * twoUp e) (p.mantissa * twoDown e)

/-- Powers of ten beyond 10^308 have no binary number; a smaller exponent is approached in steps of
that power, and after `fuel` steps nothing but zero is left. -/
def scaleTen : (fuel : Nat) → Binary64 → Int → Option Binary64
  | 0, x, _ => some ⟨x.negative, 0, -1074⟩
  | fuel + 1, x, e =>
    if x.mantissa = 0 then some x
    else if 308 < e then none
    else if 0 ≤ e then x.timesTen e.toNat
    else if -308 ≤ e then x.overTen (-e).toNat
    else do scaleTen fuel (← x.overTen 308) (e + 308)

/-- A decimal significand times a power of ten: the significand is rounded first, then the product
or quotient, so the result can differ from the nearest number in its last bit. -/
def ofScientific (negative : Bool) (significand : Nat) (exponent : Int) : Option Binary64 := do
  scaleTen 4 (← nearest negative significand 1) exponent

structure Digits where
  digits : Nat
  exponent : Int
  deriving DecidableEq, Repr

/-- The interval of values that round to a number with mantissa `m`, in quarters of its last place.
Below a power of two the gap is half as wide. -/
def lowerQuarters (x : Binary64) : Nat :=
  if x.mantissa = 4503599627370496 && -1074 < x.exponent then 4 * x.mantissa - 1 else 4 * x.mantissa - 2

def upperQuarters (x : Binary64) : Nat := 4 * x.mantissa + 2

def holdsDecimal (x : Binary64) (c : Nat) (k : Int) : Bool :=
  let e := x.exponent - 2
  let point := c * Nat.pow 10 k.toNat * twoDown e
  let quarter := twoUp e * Nat.pow 10 (-k).toNat
  if x.mantissa % 2 = 0 then
    x.lowerQuarters * quarter ≤ point && point ≤ x.upperQuarters * quarter
  else
    x.lowerQuarters * quarter < point && point < x.upperQuarters * quarter

inductive Tie where
  | upper
  | even
  deriving DecidableEq, Repr

def Tie.takesUpper : Tie → (c : Nat) → Bool
  | .upper, _ => true
  | .even, c => c % 2 == 1

/-- Tries the grids of powers of ten from `k` downwards. On each grid only the two neighbours of the
value can round to it; of two that do the nearer is taken. -/
def searchDigits (x : Binary64) (tie : Tie) : (fuel : Nat) → Int → Digits
  | 0, k => ⟨0, k⟩
  | fuel + 1, k =>
    let num := x.mantissa * twoUp x.exponent * Nat.pow 10 (-k).toNat
    let den := twoDown x.exponent * Nat.pow 10 k.toNat
    let c := num / den
    let low := 0 < c && x.holdsDecimal c k
    let high := x.holdsDecimal (c + 1) k
    if low && high then
      let rest := 2 * (num % den)
      if den < rest || (den == rest && tie.takesUpper c) then ⟨c + 1, k⟩ else ⟨c, k⟩
    else if low then ⟨c, k⟩
    else if high then ⟨c + 1, k⟩
    else searchDigits x tie fuel (k - 1)

def shortest (x : Binary64) (tie : Tie) : Digits :=
  if x.mantissa = 0 then ⟨0, 0⟩
  else x.searchDigits tie 40 ((x.exponent + 53) * 30103 / 100000 + 1)

def Digits.positional (d : Digits) : List Char :=
  let digits := Nat.toDigits 10 d.digits
  let decimals := (-d.exponent).toNat
  if decimals = 0 then digits ++ List.replicate d.exponent.toNat '0'
  else if digits.length ≤ decimals then
    "0.".toList ++ List.replicate (decimals - digits.length) '0' ++ digits
  else digits.take (digits.length - decimals) ++ '.' :: digits.drop (digits.length - decimals)

def sign (x : Binary64) : List Char := if x.negative then ['-'] else []

def plain (x : Binary64) : List Char := x.sign ++ (x.shortest .upper).positional

def signedPower (n : Int) : List Char :=
  if 0 ≤ n then '+' :: (toString n).toList else (toString n).toList

/-- Positional from 10^-5 up to 10^16 and always with a point; beyond that with an exponent. Of two
equally near decimals the one with an even last digit. -/
def compact (x : Binary64) : List Char :=
  let d := x.shortest .even
  let digits := Nat.toDigits 10 d.digits
  let point : Int := digits.length + d.exponent
  if x.mantissa = 0 then x.sign ++ "0.0".toList
  else if 0 ≤ d.exponent && point ≤ 16 then x.sign ++ d.positional ++ ".0".toList
  else if -5 < point && point ≤ 16 then x.sign ++ d.positional
  else
    let power := signedPower (point - 1)
    match digits with
    | [c] => x.sign ++ c :: 'e' :: power
    | c :: rest => x.sign ++ c :: '.' :: rest ++ 'e' :: power
    | [] => x.sign

example : (ofScientific false 1 (-1)).map plain = some "0.1".toList := by decide +kernel

end Binary64
end OfferLedger
