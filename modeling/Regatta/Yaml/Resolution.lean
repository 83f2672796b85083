import Regatta.Text.Numeral
import Regatta.Time.Instant
import Regatta.Yaml.Token

/-! What the text of a scalar means: a null, a truth value, a number, a point in time, or itself. -/
namespace Regatta.Yaml

inductive Resolved where
  | null
  | boolean
  | integer (n : Int)
  | float (x : Double)
  | notANumber
  | timestamp
  | merge
  | text (t : Text)
  | binary (t : Text)
deriving Repr

/-! ### Tags -/

namespace Tag

def str : Text := "!!str"
def seq : Text := "!!seq"
def map : Text := "!!map"
def merge : Text := "!!merge"
def null : Text := "!!null"
def boolean : Text := "!!bool"
def integer : Text := "!!int"
def float : Text := "!!float"
def timestamp : Text := "!!timestamp"
def binary : Text := "!!binary"

/-- The name under which the tags of the language are defined. -/
def authority : Text := "tag:yaml.org,2002:"

/-- The short form of a tag of the language; every other tag is kept. -/
def short (t : Text) : Text :=
  match Text.stripPrefix? authority t with
  | some rest => "!!" ++ rest
  | none => t

end Tag

def Resolved.tag : Resolved → Text
  | .null => Tag.null
  | .boolean => Tag.boolean
  | .integer _ => Tag.integer
  | .float _ | .notANumber => Tag.float
  | .timestamp => Tag.timestamp
  | .merge => Tag.merge
  | .text _ => Tag.str
  | .binary _ => Tag.binary

/-! ### Words -/

def words : List (String × Resolved) :=
  [("", .null), ("~", .null), ("null", .null), ("Null", .null), ("NULL", .null),
    ("true", .boolean), ("True", .boolean), ("TRUE", .boolean),
    ("false", .boolean), ("False", .boolean), ("FALSE", .boolean),
    (".nan", .notANumber), (".NaN", .notANumber), (".NAN", .notANumber),
    (".inf", .float (.infinite false)), (".Inf", .float (.infinite false)),
    (".INF", .float (.infinite false)), ("+.inf", .float (.infinite false)),
    ("+.Inf", .float (.infinite false)), ("+.INF", .float (.infinite false)),
    ("-.inf", .float (.infinite true)), ("-.Inf", .float (.infinite true)),
    ("-.INF", .float (.infinite true)), ("<<", .merge)]

def word? (t : Text) : Option Resolved :=
  (words.find? fun (w, _) => Text.ofString w == t).map (·.2)

/-! ### Numbers -/

/-- The value of digits whose front gives the base. -/
def natLiteral? (t : Text) : Option Nat :=
  let (base, digits) := Text.baseOf t
  Text.natIn? base digits

/-- A signed number must fit into 64 bits with its sign, one without a sign into 64 bits. -/
def inRange (sign : Option Bool) (n : Nat) : Option Int :=
  match sign with
  | some true => if n ≤ Number.wordLimit then some (-n) else none
  | some false => if n < Number.wordLimit then some n else none
  | none => if n < Number.wordCount then some n else none

def integerLiteral? (t : Text) : Option Int := do
  let (sign, digits) := Text.signed t
  inRange sign (← natLiteral? digits)

/-- A number after a mark of its base, with a sign on either side of the mark. -/
def markedInteger? (base : Nat) (mark : Text) (t : Text) : Option Int :=
  match Text.stripPrefix? mark t, Text.stripPrefix? ("-" ++ mark) t with
  | some rest, _ => do
    let (sign, digits) := Text.signed rest
    inRange sign (← Text.natIn? base digits)
  | none, some rest => do inRange (some true) (← Text.natIn? base rest)
  | none, none => none

/-- A decimal number with a fraction or an exponent. -/
def floatLiteral? (t : Text) : Option Double := do
  let (sign, t) := Text.signed t
  let whole := t.takeWhile Text.isDigit
  let (fraction, rest) := Text.point (t.dropWhile Text.isDigit)
  if whole.isEmpty && fraction.isEmpty then none
  let exponent ← match rest with
    | [] => some 0
    | e :: more =>
      if Text.lowerByte e != 101 then none
      else
        let (s, digits) := Text.signed more
        if digits.isEmpty || !digits.all Text.isDigit then none
        else
          let n : Int := Text.digitsValue digits
          some (if s == some true then -n else n)
  (Double.ofDecimal (sign == some true) (Text.digitsValue (whole ++ fraction))
    (exponent - fraction.length)).finite?

/-! ### Points in time -/

def shortNumber? (t : Text) : Option (Nat × Text) :=
  let digits := (t.take 2).takeWhile Text.isDigit
  if digits.isEmpty then none else some (Text.digitsValue digits, t.drop digits.length)

def expect? (b : UInt8) : Text → Option Text
  | c :: rest => if b == c then some rest else none
  | [] => none

/-- A year, a month and a day, and what follows them. -/
def date? (t : Text) : Option Text := do
  let year := t.takeWhile Text.isDigit
  if year.length != 4 then none
  let (month, t) ← shortNumber? (← expect? 45 (t.drop 4))
  let (day, t) ← shortNumber? (← expect? 45 t)
  if month < 1 || 12 < month || day < 1 || Calendar.daysIn (Text.digitsValue year) month < day then
    none
  return t

/-- Hours, minutes and seconds with a fraction, and what follows them. -/
def clock? (t : Text) : Option Text := do
  let (hour, t) ← shortNumber? t
  let (minute, t) ← shortNumber? (← expect? 58 t)
  let (second, t) ← shortNumber? (← expect? 58 t)
  if 23 < hour || 59 < minute || 59 < second then none
  match t with
  | p :: d :: rest =>
    if (p == 46 || p == 44) && Text.isDigit d then return rest.dropWhile Text.isDigit
    else return t
  | _ => return t

/-- A distance from universal time. -/
def isZone (t : Text) : Bool :=
  match t with
  | [90] => true
  | [s, h, h', 58, m, m'] =>
    (s == 43 || s == 45) && [h, h', m, m'].all Text.isDigit &&
      Text.digitsValue [h, h'] ≤ 24 && Text.digitsValue [m, m'] < 60
  | _ => false

def isTimestamp (t : Text) : Bool :=
  match date? t with
  | none => false
  | some [] => true
  | some (s :: rest) =>
    match clock? rest with
    | none => false
    | some zone => if s == 32 then zone.isEmpty else (s == 84 || s == 116) && isZone zone

/-! ### Scalars -/

/-- A number or a point in time. -/
def numeric? (times : Bool) (t : Text) : Option Resolved :=
  if times && isTimestamp t then some .timestamp
  else
    let plain := t.filter (· != 95)
    (integerLiteral? plain).map .integer
      <|> (floatLiteral? plain).map .float
      <|> (markedInteger? 2 "0b" plain).map .integer
      <|> (markedInteger? 8 "0o" plain).map .integer

/-- What a scalar without a tag means. With `times` it may be a point in time. -/
def meaning (times : Bool) (t : Text) : Resolved :=
  match word? t, t with
  | some r, _ => r
  | none, b :: _ =>
    if b == 43 || b == 45 || Text.isDigit b then (numeric? times t).getD (.text t)
    else if b == 46 then ((floatLiteral? t).map .float).getD (.text t)
    else .text t
  | none, [] => .null

/-- A scalar whose meaning its tag does not allow. -/
structure TagFault where
  found : Text
  value : Text
  tag : Text

def TagFault.message (f : TagFault) : Text :=
  "cannot decode " ++ f.found ++ " \x60" ++ f.value ++ "\x60 as a " ++ f.tag

/-- What a scalar with a short tag means. -/
def resolve (tag value : Text) : Except TagFault Resolved :=
  if tag == Tag.str then .ok (.text value)
  else if tag == Tag.binary then .ok (.binary value)
  else
    let r := meaning (tag.isEmpty || tag == Tag.timestamp) value
    if tag.isEmpty || tag == r.tag then .ok r
    else match r with
      | .integer n =>
        if tag == Tag.float && n < Number.wordLimit then .ok (.float (.ofInt n))
        else .error ⟨r.tag, value, tag⟩
      | _ => .error ⟨r.tag, value, tag⟩

/-! ### Bytes written in base sixty-four -/

def sextet? (b : UInt8) : Option Nat :=
  if Text.isUpperLetter b then some (b.toNat - 65)
  else if Text.isLetter b then some (b.toNat - 71)
  else if Text.isDigit b then some (b.toNat + 4)
  else if b == 43 then some 62
  else if b == 47 then some 63
  else none

/-- Four characters for three bytes; the last four may end in signs of equality. -/
def bytesFrom64 : Text → Option Text
  | [] => some []
  | [a, b, 61, 61] => do
    let n := 64 * (← sextet? a) + (← sextet? b)
    return [(n / 16).toUInt8]
  | [a, b, c, 61] => do
    let n := 4096 * (← sextet? a) + 64 * (← sextet? b) + (← sextet? c)
    return [(n / 1024).toUInt8, (n / 4).toUInt8]
  | a :: b :: c :: d :: rest => do
    let n := 262144 * (← sextet? a) + 4096 * (← sextet? b) + 64 * (← sextet? c) + (← sextet? d)
    return [(n / 65536).toUInt8, (n / 256).toUInt8, n.toUInt8] ++ (← bytesFrom64 rest)
  | _ => none

def decodeBinary (t : Text) : Option Text := bytesFrom64 (t.filter fun b => b != 10 && b != 13)

end Regatta.Yaml
