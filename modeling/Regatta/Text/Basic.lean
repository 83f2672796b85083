/-! Text as it arrives from tools, files and requests.

Nothing promises that such text is valid UTF-8, so a `Text` is its bytes. Literals of the
library are `String`s and are coerced. The view by characters is `Text.runes` in
`Regatta.Text.Rune`; here are the operations that look at bytes only. -/
namespace Regatta

/-- A byte string, usually but not always UTF-8. -/
abbrev Text := List UInt8

namespace Text

def ofString (s : String) : Text := s.toList.flatMap String.utf8EncodeChar

instance : Coe String Text := ⟨ofString⟩

/-- The byte of an ASCII character. -/
def byte (c : Char) : UInt8 := c.toNat.toUInt8

def isDigit (b : UInt8) : Bool := 48 ≤ b && b ≤ 57

def isUpperLetter (b : UInt8) : Bool := 65 ≤ b && b ≤ 90

def isLetter (b : UInt8) : Bool := isUpperLetter b || (97 ≤ b && b ≤ 122)

/-- The lower-case form of an ASCII letter; every other byte is kept. -/
def lowerByte (b : UInt8) : UInt8 := if isUpperLetter b then b + 32 else b

def lowerAscii (t : Text) : Text := t.map lowerByte

def contains (needle : Text) : Text → Bool
  | [] => needle.isEmpty
  | b :: rest => needle.isPrefixOf (b :: rest) || contains needle rest

/-- The part before the first `sep` and the part after it, if there is one. -/
def cut (sep : UInt8) : Text → Option (Text × Text)
  | [] => none
  | b :: rest =>
    if b == sep then some ([], rest)
    else (cut sep rest).map fun (front, back) => (b :: front, back)

/-- The pieces between occurrences of `sep`; always at least one piece. -/
def splitOn (sep : UInt8) : Text → List Text
  | [] => [[]]
  | b :: rest =>
    if b == sep then [] :: splitOn sep rest
    else match splitOn sep rest with
      | [] => [[b]]
      | piece :: more => (b :: piece) :: more

/-- The pieces with `sep` between neighbours. -/
def join (sep : Text) : List Text → Text
  | [] => []
  | [t] => t
  | t :: rest => t ++ sep ++ join sep rest

def stripPrefix? (front : Text) (t : Text) : Option Text :=
  if front.isPrefixOf t then some (t.drop front.length) else none

def stripSuffix? (back : Text) (t : Text) : Option Text :=
  if back.isSuffixOf t then some (t.take (t.length - back.length)) else none

/-- Bytewise order, a proper prefix coming first. -/
def le : Text → Text → Bool
  | [], _ => true
  | _ :: _, [] => false
  | a :: s, b :: t => if a == b then le s t else a < b

/-- Stable sort in bytewise order. -/
def sort (ts : List Text) : List Text := ts.mergeSort le

def ofNat (n : Nat) : Text := (Nat.toDigits 10 n).map byte

def ofInt : Int → Text
  | .ofNat n => ofNat n
  | .negSucc n => byte '-' :: ofNat (n + 1)

/-- The value of a run of decimal digits, most significant first. -/
def digitsValue (ds : Text) : Nat := ds.foldl (fun n d => 10 * n + (d - 48).toNat) 0

/-- The digits behind a decimal point, if there is one, and the rest. -/
def point : Text → Text × Text
  | 46 :: r => (r.takeWhile isDigit, r.dropWhile isDigit)
  | r => ([], r)

/-- A digit of a lower-case hexadecimal number. -/
def hexDigit (n : Nat) : UInt8 := if n < 10 then 48 + n.toUInt8 else 87 + n.toUInt8

/-- The last `width` hexadecimal digits of `n`. -/
def hex : (width : Nat) → (n : Nat) → Text
  | 0, _ => []
  | width + 1, n => hex width (n / 16) ++ [hexDigit (n % 16)]

/-- The decimal digits of `n`, filled up with zeros on the left. -/
def padded (width n : Nat) : Text :=
  let ds := ofNat n
  List.replicate (width - ds.length) (byte '0') ++ ds

def hexValue? (b : UInt8) : Option Nat :=
  if isDigit b then some (b - 48).toNat
  else if 97 ≤ b && b ≤ 102 then some (b - 87).toNat
  else if 65 ≤ b && b ≤ 70 then some (b - 55).toNat
  else none

end Text
end Regatta
