import Regatta.Decimal.Double

/-! The fewest decimal digits that read back as a given double.

For one digit, two digits and so on, the two multiples of a power of ten next to the number are
tried; the first size at which one of them rounds to the number wins, and of two hits the nearer
one is taken. -/
namespace Regatta.Decimal

/-- Decimal digits, most significant first, with the point `point` places after the first one
counted from the left: the value is `0.d₁d₂d₃… · 10 ^ point`. -/
structure Digits where
  digits : List Nat
  point : Int
deriving DecidableEq, Repr

/-- The largest `k` with `10 ^ k ≤ num / den`, searched from a starting value downwards. -/
def decimalExponent (num den : Nat) : (fuel : Nat) → Int → Int
  | 0, k => k
  | fuel + 1, k =>
    let fits := if 0 ≤ k then den * Number.tenTo k.toNat ≤ num
      else den ≤ num * Number.tenTo (-k).toNat
    if fits then k else decimalExponent num den fuel (k - 1)

private def withoutTrailingZeros (ds : List Nat) : List Nat :=
  (ds.reverse.dropWhile (· == 0)).reverse

private def digitsOf (n : Nat) : List Nat :=
  (Nat.toDigits 10 n).map fun c => c.toNat - 48

/-- The digits of the candidate `n · 10 ^ unit`. -/
private def ofCandidate (n : Nat) (unit : Int) : Digits :=
  let ds := digitsOf n
  ⟨withoutTrailingZeros ds, unit + ds.length⟩

/-- Tries `count` digits and then more, up to seventeen. -/
def search (target : Double) (num den : Nat) (k : Int) : (fuel count : Nat) → Digits
  | 0, _ => ⟨[], 0⟩
  | fuel + 1, count =>
    let unit : Int := k + 1 - count
    let (n, d) := if 0 ≤ unit then (num, den * Number.tenTo unit.toNat)
      else (num * Number.tenTo (-unit).toNat, den)
    let below := n / d
    let r := n % d
    let hits (c : Nat) : Bool := Double.ofDecimal false c unit == target
    let first := if 2 * r ≤ d then below else below + 1
    let second := if 2 * r ≤ d then below + 1 else below
    if hits first then ofCandidate first unit
    else if hits second then ofCandidate second unit
    else search target num den k fuel (count + 1)

/-- The shortest digits of `mantissa · 2 ^ exponent`; none for zero. -/
def shortest (mantissa : Nat) (exponent : Int) : Digits :=
  if mantissa == 0 then ⟨[], 1⟩
  else
    let (num, den) := Double.scaled mantissa 1 (-exponent)
    let start : Int := ((Nat.log2 num : Int) - Nat.log2 den + 1) * 30103 / 100000 + 1
    let k := decimalExponent num den 6 start
    search (.finite false mantissa exponent) num den k 17 1

end Regatta.Decimal
