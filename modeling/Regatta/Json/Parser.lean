import Regatta.Json.Value

/-! Reading JSON.

The grammar is that of RFC 8259. A stray byte or half of a surrogate pair inside a string reads
as U+FFFD. Every step consumes a byte, so the length of the text bounds the recursion. -/
namespace Regatta.Json

def isSpace (b : UInt8) : Bool := b == 32 || b == 9 || b == 10 || b == 13

def skipSpace (t : Text) : Text := t.dropWhile isSpace

/-- The value of four hexadecimal digits and the rest. -/
def fourHex : Text → Option (Nat × Text)
  | a :: b :: c :: d :: rest => do
    let a ← Text.hexValue? a
    let b ← Text.hexValue? b
    let c ← Text.hexValue? c
    let d ← Text.hexValue? d
    some (((a * 16 + b) * 16 + c) * 16 + d, rest)
  | _ => none

/-- The bytes of a character by its number. -/
def numbered (n : Nat) : Text := String.utf8EncodeChar (Char.ofNat n)

/-- The character of an escape after its backslash, and the rest. -/
def escape : Text → Option (Text × Text)
  | 34 :: r => some ([34], r)
  | 92 :: r => some ([92], r)
  | 47 :: r => some ([47], r)
  | 98 :: r => some ([8], r)
  | 102 :: r => some ([12], r)
  | 110 :: r => some ([10], r)
  | 114 :: r => some ([13], r)
  | 116 :: r => some ([9], r)
  | 117 :: r => do
    let (n, rest) ← fourHex r
    if n < 0xD800 || 0xE000 ≤ n then some (numbered n, rest)
    else if n < 0xDC00 then
      match rest with
      | 92 :: 117 :: more =>
        match fourHex more with
        | some (m, rest') =>
          if 0xDC00 ≤ m && m < 0xE000 then
            some (numbered (0x10000 + (n - 0xD800) * 0x400 + (m - 0xDC00)), rest')
          else some (numbered 0xFFFD, rest)
        | none => some (numbered 0xFFFD, rest)
      | _ => some (numbered 0xFFFD, rest)
    else some (numbered 0xFFFD, rest)
  | _ => none

/-- The content of a string up to its closing quote, collected in reverse, and the rest. -/
def stringBody : (fuel : Nat) → (done : Text) → Text → Option (Text × Text)
  | 0, _, _ => none
  | _ + 1, _, [] => none
  | fuel + 1, done, b :: rest =>
    if b == 34 then some (done.reverse, rest)
    else if b == 92 then
      match escape rest with
      | some (t, rest') => stringBody fuel (t.reverse ++ done) rest'
      | none => none
    else if b < 0x20 then none
    else stringBody fuel (b :: done) rest

/-- A string after its opening quote. Stray bytes are replaced. -/
def stringAfterQuote (t : Text) : Option (Text × Text) := do
  let (body, rest) ← stringBody (t.length + 1) [] t
  some (body.runes.flatMap fun r => String.utf8EncodeChar r.toChar, rest)

def digits1 (t : Text) : Option (Text × Text) :=
  let ds := t.takeWhile Text.isDigit
  if ds.isEmpty then none else some (ds, t.dropWhile Text.isDigit)

/-- A minus sign, if there is one, and the rest. -/
def minus : Text → Text × Text
  | 45 :: r => ([45], r)
  | r => ([], r)

/-- The digits before the point. Nothing follows a leading zero. -/
def wholeDigits : Text → Option (Text × Text)
  | 48 :: r => some ([48], r)
  | r => digits1 r

/-- The point and the digits behind it, if there is one. -/
def fractionDigits : Text → Option (Text × Text)
  | 46 :: r => (digits1 r).map fun (ds, r) => (46 :: ds, r)
  | r => some ([], r)

/-- The exponent with its mark, if there is one. -/
def exponentDigits : Text → Option (Text × Text)
  | [] => some ([], [])
  | e :: r =>
    if e == 101 || e == 69 then
      match r with
      | s :: r' =>
        if s == 43 || s == 45 then (digits1 r').map fun (ds, r) => (e :: s :: ds, r)
        else (digits1 r).map fun (ds, r) => (e :: ds, r)
      | [] => none
    else some ([], e :: r)

def numeral (t : Text) : Option (Text × Text) := do
  let (sign, t) := minus t
  let (whole, t) ← wholeDigits t
  let (fraction, t) ← fractionDigits t
  let (exponent, t) ← exponentDigits t
  some (sign ++ whole ++ fraction ++ exponent, t)

def word (w : String) (v : Json) (t : Text) : Option (Json × Text) :=
  (Text.stripPrefix? w t).map fun rest => (v, rest)

mutual

/-- One value, after leading white space, and the rest. -/
def value : (fuel : Nat) → Text → Option (Json × Text)
  | 0, _ => none
  | fuel + 1, t =>
    match skipSpace t with
    | [] => none
    | b :: rest =>
      if b == 0x7B then
        match skipSpace rest with
        | 0x7D :: rest' => some (.object [], rest')
        | rest' => (members fuel [] rest').map fun (ms, r) => (.object ms, r)
      else if b == 91 then
        match skipSpace rest with
        | 93 :: rest' => some (.array [], rest')
        | rest' => (elements fuel [] rest').map fun (xs, r) => (.array xs, r)
      else if b == 34 then (stringAfterQuote rest).map fun (s, r) => (.string s, r)
      else if b == 116 then word "true" (.bool true) (b :: rest)
      else if b == 102 then word "false" (.bool false) (b :: rest)
      else if b == 110 then word "null" .null (b :: rest)
      else (numeral (b :: rest)).map fun (l, r) => (.number l, r)

/-- The elements of an array up to its closing bracket. -/
def elements : (fuel : Nat) → (done : List Json) → Text → Option (List Json × Text)
  | 0, _, _ => none
  | fuel + 1, done, t => do
    let (v, rest) ← value fuel t
    match skipSpace rest with
    | 44 :: rest' => elements fuel (v :: done) rest'
    | 93 :: rest' => some ((v :: done).reverse, rest')
    | _ => none

/-- The members of an object up to its closing brace. -/
def members : (fuel : Nat) → (done : List (Text × Json)) → Text →
    Option (List (Text × Json) × Text)
  | 0, _, _ => none
  | fuel + 1, done, t =>
    match skipSpace t with
    | 34 :: rest => do
      let (k, rest) ← stringAfterQuote rest
      match skipSpace rest with
      | 58 :: rest => do
        let (v, rest) ← value fuel rest
        match skipSpace rest with
        | 44 :: rest' => members fuel ((k, v) :: done) rest'
        | 125 :: rest' => some (((k, v) :: done).reverse, rest')
        | _ => none
      | _ => none
    | _ => none

end

/-- The first value of the text, and what follows it. -/
def parseFirst (t : Text) : Option (Json × Text) := value (t.length + 1) t

/-- The value that is the whole text, white space around it apart. -/
def parse (t : Text) : Option Json := do
  let (v, rest) ← parseFirst t
  if (skipSpace rest).isEmpty then some v else none

/-- A key as it is compared with field names: letter case does not count, and the long s and
the Kelvin sign count as `s` and `k`. -/
def foldKey (k : Text) : Text :=
  k.runes.flatMap fun
    | .char c =>
      if c.toNat == 0x17F then [Text.byte 's']
      else if c.toNat == 0x212A then [Text.byte 'k']
      else (String.utf8EncodeChar c).map Text.lowerByte
    | .stray b => [b]

/-- A whole number in the range of signed 64-bit integers. -/
def int64? (literal : Text) : Option Int :=
  let (sign, ds) := minus literal
  if ds.isEmpty || !ds.all Text.isDigit then none
  else
    let n : Int := Text.digitsValue ds
    let v := if sign.isEmpty then n else -n
    if Number.fitsWord v then some v else none

/-- The value of an exponent. The byte behind the mark may be a sign. -/
def exponentValue : Text → Int
  | _ :: 45 :: ds => -(Text.digitsValue ds : Int)
  | _ :: 43 :: ds => Text.digitsValue ds
  | _ :: ds => Text.digitsValue ds
  | [] => 0

/-- The double nearest to a number; none when it is too large. -/
def double? (literal : Text) : Option Double :=
  let (sign, t) := minus literal
  let whole := t.takeWhile Text.isDigit
  let (fraction, t) := Text.point (t.dropWhile Text.isDigit)
  (Double.ofDecimal (!sign.isEmpty) (Text.digitsValue (whole ++ fraction))
    (exponentValue t - fraction.length)).finite?

end Regatta.Json
