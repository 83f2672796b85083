import Regatta.Number

/-! Binary floating-point numbers with 53 significant bits.

A `Double` is an exact dyadic number or an infinity. Every operation computes exactly and then
rounds once to the nearest double, ties to the even mantissa, so its results can be reasoned
about in integer arithmetic. -/
namespace Regatta

/-- The quotient rounded to the nearest whole number, an exact half to the even neighbour. -/
def roundDiv (num den : Nat) : Nat :=
  let q := num / den
  let r := num % den
  if 2 * r < den then q
  else if den < 2 * r then q + 1
  else if q % 2 == 0 then q else q + 1

/-- A number of the form `± mantissa · 2 ^ exponent`, or an infinity. -/
inductive Double where
  | finite (negative : Bool) (mantissa : Nat) (exponent : Int)
  | infinite (negative : Bool)
deriving DecidableEq, Repr, Inhabited

namespace Double

def zero : Double := .finite false 0 (-1074)

/-- The fraction `num / den` scaled by `2 ^ (-e)`. -/
def scaled (num den : Nat) (e : Int) : Nat × Nat :=
  if e < 0 then (num * Number.twoTo (-e).toNat, den) else (num, den * Number.twoTo e.toNat)

/-- The exponent at which the fraction `num / den` has 53 bits before the point. -/
def exponent (num den : Nat) : Int :=
  let guess : Int := (Nat.log2 num : Int) - Nat.log2 den - 52
  let s := scaled num den guess
  if s.1 < s.2 * Number.twoTo 52 then guess - 1 else guess

/-- A mantissa that was rounded up to 54 bits is halved. -/
def carry (m : Nat) (e : Int) : Nat × Int :=
  if m == Number.twoTo 53 then (Number.twoTo 52, e + 1) else (m, e)

/-- The double nearest to `± num / den`. -/
def ofRatio (negative : Bool) (num den : Nat) : Double :=
  if num == 0 then .finite negative 0 (-1074)
  else
    let e := max (exponent num den) (-1074)
    let s := scaled num den e
    let c := carry (roundDiv s.1 s.2) e
    if 971 < c.2 then .infinite negative else .finite negative c.1 c.2

/-- The double nearest to `± num / den · 2 ^ e`. -/
def ofScaled (negative : Bool) (num den : Nat) (e : Int) : Double :=
  let (n, d) := scaled num den (-e)
  ofRatio negative n d

def ofInt (n : Int) : Double := ofRatio (n < 0) n.natAbs 1

def isNegative : Double → Bool
  | .finite s _ _ | .infinite s => s

private def signed (s : Bool) (m : Nat) : Int := if s then -(m : Int) else m

/-- The sum. Adding infinities of opposite signs has no meaning and gives the first one. -/
def add : Double → Double → Double
  | .finite s m e, .finite s' m' e' =>
    let low := min e e'
    let total := signed s (m * Number.twoTo (e - low).toNat) + signed s' (m' * Number.twoTo (e' - low).toNat)
    if total == 0 then .finite (s && s') 0 (-1074)
    else ofScaled (total < 0) total.natAbs 1 low
  | .finite _ _ _, y => y
  | x, _ => x

def mul : Double → Double → Double
  | .finite s m e, .finite s' m' e' => ofScaled (s != s') (m * m') 1 (e + e')
  | x, y => .infinite (x.isNegative != y.isNegative)

/-- The quotient. Dividing by zero gives an infinity. -/
def div : Double → Double → Double
  | .finite s m e, .finite s' m' e' =>
    if m' == 0 then .infinite (s != s') else ofScaled (s != s') m m' (e - e')
  | .finite s _ _, .infinite s' => .finite (s != s') 0 (-1074)
  | .infinite s, y => .infinite (s != y.isNegative)

/-- The nearest whole number, halves away from zero. -/
def round : Double → Double
  | .finite s m e =>
    if 0 ≤ e then .finite s m e
    else
      let d := Number.twoTo (-e).toNat
      ofRatio s ((2 * m + d) / (2 * d)) 1
  | x => x

/-- The whole part, towards zero. `none` for an infinity. -/
def truncate? : Double → Option Int
  | .finite s m e =>
    some (signed s (if 0 ≤ e then m * Number.twoTo e.toNat else m / Number.twoTo (-e).toNat))
  | .infinite _ => none

def isZero : Double → Bool
  | .finite _ m _ => m == 0
  | .infinite _ => false

def finite? : Double → Option Double
  | .finite s m e => some (.finite s m e)
  | .infinite _ => none

/-- The double nearest to `± digits · 10 ^ exponent`. Exponents far outside the range of doubles
are cut off before the power is computed. -/
def ofDecimal (negative : Bool) (digits : Nat) (exponent : Int) : Double :=
  if digits == 0 then .finite negative 0 (-1074)
  else
    let size : Int := (Nat.toDigits 10 digits).length
    if 400 < exponent + size then .infinite negative
    else if exponent + size < -400 then .finite negative 0 (-1074)
    else if exponent < 0 then ofRatio negative digits (Number.tenTo (-exponent).toNat)
    else ofRatio negative (digits * Number.tenTo exponent.toNat) 1

end Double
end Regatta
