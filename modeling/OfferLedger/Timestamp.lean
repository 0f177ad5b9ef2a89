/-! # Moments

A moment is a number of nanoseconds from the beginning of 1970, without a time zone. It is written as a
date and a time of day, with three, six or nine places of a second as far as there are any. The year has a
sign unless it is one of the years 0 to 9999. -/
namespace OfferLedger

structure Timestamp where
  nanos : Int
  deriving DecidableEq, Repr, Inhabited

namespace Timestamp

/-- Year, month and day of a day counted from the beginning of 1970. The count is taken from the
first of March of the year 0, so that the leap day ends a year, in eras of four hundred years. -/
def civil (days : Int) : Int × Nat × Nat :=
  let z := days + 719468
  let era := z.fdiv 146097
  let doe := (z.fmod 146097).toNat
  let yoe := (doe - doe / 1460 + doe / 36524 - doe / 146096) / 365
  let doy := doe - (365 * yoe + yoe / 4 - yoe / 100)
  let mp := (5 * doy + 2) / 153
  let day := doy - (153 * mp + 2) / 5 + 1
  let month := if mp < 10 then mp + 3 else mp - 9
  let year : Int := yoe + era * 400
  (if month ≤ 2 then year + 1 else year, month, day)

def padded (width n : Nat) : String :=
  let digits := Nat.toDigits 10 n
  String.ofList (List.replicate (width - digits.length) '0' ++ digits)

/-- The part of a second that some nanoseconds are, in groups of three digits. -/
def fraction (nanos : Nat) : String :=
  if nanos = 0 then ""
  else "." ++ padded 3 (nanos / 1000000) ++
    if nanos % 1000000 = 0 then ""
    else padded 3 (nanos / 1000 % 1000) ++
      if nanos % 1000 = 0 then "" else padded 3 (nanos % 1000)

instance : ToString Timestamp where
  toString t :=
    let days := t.nanos.fdiv 86400000000000
    let ofDay := (t.nanos.fmod 86400000000000).toNat
    let seconds := ofDay / 1000000000
    let (year, month, day) := civil days
    let sign := if year < 0 then "-" else if 9999 < year then "+" else ""
    sign ++ padded 4 year.natAbs ++ "-" ++ padded 2 month ++ "-" ++ padded 2 day ++ "T" ++
      padded 2 (seconds / 3600) ++ ":" ++ padded 2 (seconds / 60 % 60) ++ ":" ++
      padded 2 (seconds % 60) ++ fraction (ofDay % 1000000000)

/-- Moments are kept as texts and ordered as such. Among the years 0 to 9999 that is the order in time; a
year with a sign comes before them. -/
def textOrder (a b : Timestamp) : Ordering := compare (toString a) (toString b)

example : toString (⟨1582934400120000000⟩ : Timestamp) = "2020-02-29T00:00:00.120" := by
  decide +kernel

example : toString (⟨-1000⟩ : Timestamp) = "1969-12-31T23:59:59.999999" := by decide +kernel

example : toString (⟨253402300800000000000⟩ : Timestamp) = "+10000-01-01T00:00:00" := by
  decide +kernel

end Timestamp
end OfferLedger
