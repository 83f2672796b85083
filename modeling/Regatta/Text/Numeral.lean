import Regatta.Number
import Regatta.Text.Basic

/-! Whole numbers as they are written: decimal, or with a mark of their base in front.

`0b`, `0o` and `0x` mark base two, eight and sixteen, and so does a leading zero for eight. Where
underscores are allowed, each stands between two digits or after the mark. -/
namespace Regatta.Text

/-- The value of a digit in a base up to thirty-six. -/
def digitIn? (base : Nat) (b : UInt8) : Option Nat :=
  let v := if isDigit b then some (b.toNat - 48)
    else if isLetter b then some ((lowerByte b).toNat - 87)
    else none
  v.filter (· < base)

/-- The value of a nonempty run of digits. -/
def natIn? (base : Nat) (t : Text) : Option Nat := do
  if t.isEmpty then none
  return (← t.mapM (digitIn? base)).foldl (fun n d => base * n + d) 0

/-- The base that the front of a number gives, and the digits behind it. -/
def baseOf (t : Text) : Nat × Text :=
  match t with
  | 48 :: b :: rest =>
    let l := lowerByte b
    if rest.isEmpty then (8, b :: rest)
    else if l == 98 then (2, rest)
    else if l == 111 then (8, rest)
    else if l == 120 then (16, rest)
    else (8, b :: rest)
  | _ => (10, t)

/-- A sign, if there is one, and what follows it; `true` is minus. -/
def signed (t : Text) : Option Bool × Text :=
  match t with
  | 45 :: rest => (some true, rest)
  | 43 :: rest => (some false, rest)
  | _ => (none, t)

/-- Whether each underscore has a digit, or a mark of the base, before it and a digit behind it. -/
def underscoresSeparate : (afterDigit : Bool) → Text → Bool
  | _, [] => true
  | afterDigit, 95 :: rest =>
    match rest with
    | [] => false
    | b :: _ => afterDigit && b != 95 && underscoresSeparate false rest
  | _, _ :: rest => underscoresSeparate true rest

inductive NumeralFault where
  | malformed
  | outOfRange
deriving DecidableEq, Repr

def NumeralFault.message : NumeralFault → Text
  | .malformed => "invalid syntax"
  | .outOfRange => "value out of range"

/-- The value of digits that may be separated by underscores. A number that is too large is so from
the digit on that makes it too large. -/
def literalDigits (base : Nat) : (value : Nat) → Text → Except NumeralFault Nat
  | value, [] => .ok value
  | value, b :: rest =>
    if b == 95 then literalDigits base value rest
    else match digitIn? base b with
      | none => .error .malformed
      | some d =>
        let v := base * value + d
        if Number.wordCount ≤ v then .error .outOfRange else literalDigits base v rest

/-- A signed 64-bit number in any of the bases. -/
def intLiteral (t : Text) : Except NumeralFault Int := do
  let (sign, t) := signed t
  if t.isEmpty then throw .malformed
  let (base, digits) := baseOf t
  let n ← literalDigits base 0 digits
  if !underscoresSeparate (t.length != digits.length) digits then throw .malformed
  if sign == some true then
    if n ≤ Number.wordLimit then return -n else throw .outOfRange
  else if n < Number.wordLimit then return n
  else throw .outOfRange

end Regatta.Text
