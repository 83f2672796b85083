import Regatta.Time.Duration

/-! Points in time, in nanoseconds since 1970-01-01T00:00:00Z, and their calendar forms. -/
namespace Regatta

/-- Nanoseconds since the start of 1970, in UTC. -/
abbrev Instant := Int

structure Calendar where
  year : Int
  month : Nat
  day : Nat
  hour : Nat
  minute : Nat
  second : Nat
  nanos : Nat
deriving DecidableEq, Repr

namespace Calendar

/-- Days since 1970-01-01 of a date in the proleptic Gregorian calendar. -/
def daysFromCivil (year : Int) (month day : Nat) : Int :=
  let y := if month ≤ 2 then year - 1 else year
  let era := y.fdiv 400
  let yoe := (y - era * 400).toNat
  let mp := (month + 9) % 12
  let doy := (153 * mp + 2) / 5 + day - 1
  let doe := yoe * 365 + yoe / 4 - yoe / 100 + doy
  era * 146097 + doe - 719468

/-- Year, month and day of a day count. -/
def civilFromDays (days : Int) : Int × Nat × Nat :=
  let z := days + 719468
  let era := z.fdiv 146097
  let doe := (z - era * 146097).toNat
  let yoe := (doe - doe / 1460 + doe / 36524 - doe / 146096) / 365
  let doy := doe - (365 * yoe + yoe / 4 - yoe / 100)
  let mp := (5 * doy + 2) / 153
  let day := doy - (153 * mp + 2) / 5 + 1
  let month := if mp < 10 then mp + 3 else mp - 9
  let year : Int := (yoe : Int) + era * 400
  (if month ≤ 2 then year + 1 else year, month, day)

def isLeap (year : Int) : Bool := year % 4 == 0 && (year % 100 != 0 || year % 400 == 0)

def daysIn (year : Int) (month : Nat) : Nat :=
  match month with
  | 2 => if isLeap year then 29 else 28
  | 4 | 6 | 9 | 11 => 30
  | _ => 31

def ofInstant (t : Instant) : Calendar :=
  let secs := t.fdiv 1000000000
  let nanos := (t.fmod 1000000000).toNat
  let days := secs.fdiv 86400
  let rest := (secs.fmod 86400).toNat
  let (y, m, d) := civilFromDays days
  ⟨y, m, d, rest / 3600, rest / 60 % 60, rest % 60, nanos⟩

def toInstant (c : Calendar) : Instant :=
  ((daysFromCivil c.year c.month c.day * 86400 + c.hour * 3600 + c.minute * 60 + c.second) *
    1000000000) + c.nanos

def yearText (y : Int) : Text :=
  if y < 0 then "-" ++ Text.padded 4 y.natAbs else Text.padded 4 y.toNat

/-- Written as `2006-01-02`. -/
def dateText (c : Calendar) : Text :=
  yearText c.year ++ "-" ++ Text.padded 2 c.month ++ "-" ++ Text.padded 2 c.day

/-- Written as `15:04:05`. -/
def clockText (c : Calendar) : Text :=
  Text.padded 2 c.hour ++ ":" ++ Text.padded 2 c.minute ++ ":" ++ Text.padded 2 c.second

/-- The fraction of a second without trailing zeros, with its point; empty when there is none. -/
def fractionText (c : Calendar) : Text :=
  if c.nanos == 0 then []
  else "." ++ ((Text.padded 9 c.nanos).reverse.dropWhile (· == 48)).reverse

end Calendar

namespace Instant

/-- The start of the virtual clock: 2000-01-01T00:00:00Z. -/
def epoch2000 : Instant := 946684800 * 1000000000

/-- RFC 3339 in UTC, with as many decimals of the second as needed. -/
def rfc3339 (t : Instant) : Text :=
  let c := Calendar.ofInstant t
  c.dateText ++ "T" ++ c.clockText ++ c.fractionText ++ "Z"

end Instant
end Regatta
