import Regatta.Decimal.Shortest
import Regatta.Text.Basic

/-! Doubles as text: general, positional and fixed notation. -/
namespace Regatta.Decimal

/-- Where a notation leaves positional writing, and how it writes exponents. -/
structure Layout where
  /-- Smallest power of ten of the leading digit that is still written positionally. -/
  least : Int
  /-- First power of ten of the leading digit that is not. -/
  bound : Int
  /-- Least number of exponent digits. -/
  exponentWidth : Nat

/-- General notation: positional from 10⁻⁴ up to 10⁶ exclusive, two exponent digits. -/
def Layout.general : Layout := ⟨-4, 6, 2⟩

/-- Notation of numbers in JSON: positional from 10⁻⁶ up to 10²¹ exclusive. -/
def Layout.json : Layout := ⟨-6, 21, 1⟩

private def digitText (ds : List Nat) : Text := ds.map fun d => 48 + d.toUInt8

private def zeros (n : Nat) : Text := List.replicate n 48

private def positional (d : Digits) : Text :=
  if d.point ≤ 0 then "0." ++ zeros (-d.point).toNat ++ digitText d.digits
  else
    let p := d.point.toNat
    if d.digits.length ≤ p then digitText d.digits ++ zeros (p - d.digits.length)
    else digitText (d.digits.take p) ++ "." ++ digitText (d.digits.drop p)

private def scientific (width : Nat) (d : Digits) : Text :=
  let e := d.point - 1
  let lead := digitText (d.digits.take 1)
  let tail := d.digits.drop 1
  let fraction : Text := if tail.isEmpty then [] else "." ++ digitText tail
  let sign : Text := if e < 0 then "-" else "+"
  lead ++ fraction ++ "e" ++ sign ++ Text.padded width e.natAbs

/-- The shortest text that reads back as the number. -/
def render (layout : Layout) : Double → Text
  | .infinite s => if s then "-Inf" else "+Inf"
  | .finite s m e =>
    let sign : Text := if s then "-" else ""
    if m == 0 then sign ++ "0"
    else
      let d := shortest m e
      let k := d.point - 1
      sign ++ (if k < layout.least || layout.bound ≤ k then scientific layout.exponentWidth d
        else positional d)

/-- Exactly `places` decimals; a half of the last place goes to the even neighbour. -/
def fixed (places : Nat) : Double → Text
  | .infinite s => if s then "-Inf" else "+Inf"
  | .finite s m e =>
    let (num, den) := Double.scaled (m * Number.tenTo places) 1 (-e)
    let n := roundDiv num den
    let sign : Text := if s then "-" else ""
    let whole := Text.ofNat (n / Number.tenTo places)
    if places == 0 then sign ++ whole
    else sign ++ whole ++ "." ++ Text.padded places (n % Number.tenTo places)

end Regatta.Decimal
