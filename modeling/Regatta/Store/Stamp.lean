import Regatta.Time.Instant

/-! Times as the store keeps them: text whose bytewise order is the order of time.

A stamp reads `2006-01-02 15:04:05.999999999 +0000 UTC`, the fraction without trailing zeros. A
blank after the seconds sorts before the point of a fraction, so the order also holds between
stamps with and without one. -/
namespace Regatta.Stamp

/-- What ends every stamp. -/
def zone : Text := " +0000 UTC"

def ofInstant (t : Instant) : Text :=
  let c := Calendar.ofInstant t
  c.dateText ++ " " ++ c.clockText ++ c.fractionText ++ zone

/-- A number of exactly `width` digits, followed by `rest`. -/
def digits (width : Nat) (t : Text) : Option (Nat × Text) :=
  let ds := t.take width
  if ds.length == width && ds.all Text.isDigit then some (Text.digitsValue ds, t.drop width)
  else none

def fraction (t : Text) : Option (Nat × Text) :=
  match t with
  | 46 :: rest =>
    let ds := rest.takeWhile Text.isDigit
    if ds.isEmpty || 9 < ds.length then none
    else some (Text.digitsValue ds * Number.tenTo (9 - ds.length), rest.drop ds.length)
  | _ => some (0, t)

/-- Reads a date, `between`, a time of day, and what is left. -/
def readCalendar (between : Text) (t : Text) : Option (Calendar × Text) := do
  let (year, t) ← digits 4 t
  let t ← Text.stripPrefix? "-" t
  let (month, t) ← digits 2 t
  let t ← Text.stripPrefix? "-" t
  let (day, t) ← digits 2 t
  let t ← Text.stripPrefix? between t
  let (hour, t) ← digits 2 t
  let t ← Text.stripPrefix? ":" t
  let (minute, t) ← digits 2 t
  let t ← Text.stripPrefix? ":" t
  let (second, t) ← digits 2 t
  let (nanos, t) ← fraction t
  if 1 ≤ month && month ≤ 12 && 1 ≤ day && day ≤ Calendar.daysIn year month && hour < 24 &&
      minute < 60 && second < 60 then
    some (⟨year, month, day, hour, minute, second, nanos⟩, t)
  else none

def toInstant? (t : Text) : Option Instant := do
  let (c, rest) ← readCalendar " " t
  if rest == zone then some c.toInstant else none

def ofRfc3339? (t : Text) : Option Instant := do
  let (c, rest) ← readCalendar "T" t
  if rest == "Z" then some c.toInstant else none

end Regatta.Stamp
