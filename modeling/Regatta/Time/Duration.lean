import Regatta.Decimal.Double
import Regatta.Text.Rune

/-! Spans of time in nanoseconds.

A `Duration` is kept as an integer; `Duration.wrap` brings the result of an operation back into
64 signed bits, where the clock's own arithmetic stays. Durations are written as sums of numbers
with units (`1h30m`, `250ms`, `.5s`). -/
namespace Regatta

/-- A signed number of nanoseconds. -/
abbrev Duration := Int

namespace Duration

/-- The value modulo 2⁶⁴, between -2⁶³ and 2⁶³ - 1. -/
def wrap (d : Int) : Duration := Int.bmod d Number.wordCount

def second : Duration := 1000000000
def millisecond : Duration := 1000000
def microsecond : Duration := 1000

def ofMillis (ms : Int) : Duration := wrap (ms * millisecond)

/-- The duration as a number of seconds: whole seconds plus the rest, each rounded. -/
def seconds (d : Duration) : Double :=
  let whole := Double.ofInt (d.tdiv second)
  let rest := Double.div (Double.ofInt (d.tmod second)) (Double.ofInt second)
  Double.add whole rest

/-- The largest duration and beyond: 2⁶³. -/
def limit : Nat := Number.wordLimit

inductive ParseError where
  | invalid (text : Text)
  | missingUnit (text : Text)
  | unknownUnit (unit text : Text)
deriving DecidableEq, Repr

/-- The text between quotes, everything outside printable ASCII byte by byte. -/
def quoteAscii (t : Text) : Text :=
  let shown (b : UInt8) : Text :=
    if b < 0x20 || 0x80 ≤ b then "\\x" ++ Text.hex 2 b.toNat
    else if b == 34 || b == 92 then [92, b]
    else [b]
  "\"" ++ t.flatMap shown ++ "\""

def ParseError.message : ParseError → Text
  | .invalid t => "time: invalid duration " ++ quoteAscii t
  | .missingUnit t => "time: missing unit in duration " ++ quoteAscii t
  | .unknownUnit u t => "time: unknown unit " ++ quoteAscii u ++ " in duration " ++ quoteAscii t

/-- Nanoseconds of a unit; the micro sign has two spellings. -/
def unit? (u : Text) : Option Nat :=
  if u == "ns" then some 1
  else if u == "us" || u == "µs" || u == "μs" then some 1000
  else if u == "ms" then some 1000000
  else if u == "s" then some 1000000000
  else if u == "m" then some 60000000000
  else if u == "h" then some 3600000000000
  else none

/-- The whole part of a number; none when it exceeds the range. -/
def wholePart (ds : Text) : Option Nat :=
  ds.foldl (fun acc d => do
    let x ← acc
    if limit / 10 < x then none
    let y := 10 * x + (d - 48).toNat
    if limit < y then none else some y) (some 0)

/-- Digits of a fraction read so far, and the power of ten they are divided by. The power is
rounded each time it grows. -/
structure Fraction where
  digits : Nat
  scale : Double
  full : Bool

/-- Digits that no longer fit are ignored. -/
def Fraction.push (f : Fraction) (d : UInt8) : Fraction :=
  if f.full then f
  else if (limit - 1) / 10 < f.digits then { f with full := true }
  else
    let y := 10 * f.digits + (d - 48).toNat
    if limit < y then { f with full := true } else { f with digits := y, scale := f.scale.mul (.ofInt 10) }

def fractionPart (ds : Text) : Fraction := ds.foldl Fraction.push ⟨0, .ofInt 1, false⟩

/-- Nanoseconds of a fraction of a unit, computed in floating point and cut off. -/
def Fraction.nanos (f : Fraction) (unit : Nat) : Nat :=
  let part := Double.div (Double.ofInt unit) f.scale
  ((Double.mul (Double.ofInt f.digits) part).truncate?.getD 0).toNat

/-- Whether a byte belongs to a unit: a unit ends at a point or a digit. -/
def startsUnit (b : UInt8) : Bool := !(b == 46 || Text.isDigit b)

/-- One number with its unit, in nanoseconds, and the rest. -/
def term (whole : Text) (t : Text) : Except ParseError (Nat × Text) :=
  let digits := t.takeWhile Text.isDigit
  let (places, afterNumber) := Text.point (t.dropWhile Text.isDigit)
  let u := afterNumber.takeWhile startsUnit
  match wholePart digits with
  | none => .error (.invalid whole)
  | some v =>
    if digits.isEmpty && places.isEmpty then .error (.invalid whole)
    else if u.isEmpty then .error (.missingUnit whole)
    else match unit? u with
      | none => .error (.unknownUnit u whole)
      | some unit =>
        if limit / unit < v then .error (.invalid whole)
        else
          let f := fractionPart places
          let total := v * unit + (if f.digits == 0 then 0 else f.nanos unit)
          if limit < total then .error (.invalid whole)
          else .ok (total, afterNumber.dropWhile startsUnit)

/-- The sum of the terms of `t`. Every term is at least one byte, so `fuel` may be the length. -/
def terms (whole : Text) : (fuel : Nat) → (sum : Nat) → Text → Except ParseError Nat
  | _, sum, [] => .ok sum
  | 0, _, _ => .error (.invalid whole)
  | fuel + 1, sum, t => do
    let (n, rest) ← term whole t
    if limit < sum + n then throw (.invalid whole)
    terms whole fuel (sum + n) rest

/-- Reads a duration. A lone `0` needs no unit. -/
def parse (t : Text) : Except ParseError Duration := do
  let (negative, body) := match t with
    | 45 :: r => (true, r)
    | 43 :: r => (false, r)
    | r => (false, r)
  if body == "0" then return 0
  if body.isEmpty then throw (.invalid t)
  let n ← terms t body.length 0 body
  if negative then return -(n : Int)
  if limit ≤ n then throw (.invalid t)
  return n

/-- A fraction of a unit without trailing zeros, with its leading point. -/
private def fractionText (places n : Nat) : Text :=
  if n == 0 then []
  else "." ++ ((Text.padded places n).reverse.dropWhile (· == 48)).reverse

/-- The duration in its largest fitting units: `1h2m3.5s`, `1.5ms`, `0s`. -/
def render (d : Duration) : Text :=
  let n := d.natAbs
  let sign : Text := if d < 0 then "-" else ""
  if n == 0 then "0s"
  else if n < 1000 then sign ++ Text.ofNat n ++ "ns"
  else if n < 1000000 then sign ++ Text.ofNat (n / 1000) ++ fractionText 3 (n % 1000) ++ "µs"
  else if n < 1000000000 then
    sign ++ Text.ofNat (n / 1000000) ++ fractionText 6 (n % 1000000) ++ "ms"
  else
    let s := n / 1000000000
    let secs := Text.ofNat (s % 60) ++ fractionText 9 (n % 1000000000) ++ "s"
    let m := s / 60
    if m == 0 then sign ++ secs
    else if m / 60 == 0 then sign ++ Text.ofNat m ++ "m" ++ secs
    else sign ++ Text.ofNat (m / 60) ++ "h" ++ Text.ofNat (m % 60) ++ "m" ++ secs

end Duration
end Regatta
