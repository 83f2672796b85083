import Regatta.Text.Basic

/-! The view of a text by characters.

UTF-8 is read from left to right. A byte that starts no complete, shortest-form sequence stands
for itself as a stray byte, so every text has exactly one list of runes and `Text.ofRunes` gives
the text back. -/
namespace Regatta

/-- A character of a text, or a byte that belongs to none. -/
inductive Rune where
  | char (c : Char)
  | stray (b : UInt8)
deriving DecidableEq, Repr

namespace Rune

def bytes : Rune → Text
  | .char c => String.utf8EncodeChar c
  | .stray b => [b]

/-- The character that a stray byte is shown as. -/
def replacement : Char := Char.ofNat 0xFFFD

def toChar : Rune → Char
  | .char c => c
  | .stray _ => replacement

end Rune

namespace Text

def isContinuation (b : UInt8) : Bool := 0x80 ≤ b && b < 0xC0

def low6 (b : UInt8) : Nat := (b &&& 0x3F).toNat

/-- The rune that starts with byte `b` before `rest`, and how many bytes of `rest` it takes. -/
def headRune (b : UInt8) (rest : Text) : Rune × Nat :=
  if b < 0x80 then (.char (Char.ofNat b.toNat), 0)
  else if 0xC2 ≤ b && b < 0xE0 then
    match rest with
    | c :: _ =>
      if isContinuation c then (.char (Char.ofNat ((b &&& 0x1F).toNat * 64 + low6 c)), 1)
      else (.stray b, 0)
    | [] => (.stray b, 0)
  else if 0xE0 ≤ b && b < 0xF0 then
    match rest with
    | c :: d :: _ =>
      let lower : UInt8 := if b == 0xE0 then 0xA0 else 0x80
      let upper : UInt8 := if b == 0xED then 0x9F else 0xBF
      if lower ≤ c && c ≤ upper && isContinuation d then
        (.char (Char.ofNat ((b &&& 0x0F).toNat * 4096 + low6 c * 64 + low6 d)), 2)
      else (.stray b, 0)
    | _ => (.stray b, 0)
  else if 0xF0 ≤ b && b < 0xF5 then
    match rest with
    | c :: d :: e :: _ =>
      let lower : UInt8 := if b == 0xF0 then 0x90 else 0x80
      let upper : UInt8 := if b == 0xF4 then 0x8F else 0xBF
      if lower ≤ c && c ≤ upper && isContinuation d && isContinuation e then
        (.char (Char.ofNat
          ((b &&& 0x07).toNat * 262144 + low6 c * 4096 + low6 d * 64 + low6 e)), 3)
      else (.stray b, 0)
    | _ => (.stray b, 0)
  else (.stray b, 0)

/-- The runes after the first `skip` bytes. -/
def runesAfter : (skip : Nat) → Text → List Rune
  | _, [] => []
  | skip + 1, _ :: rest => runesAfter skip rest
  | 0, b :: rest =>
    let (r, taken) := headRune b rest
    r :: runesAfter taken rest

def runes (t : Text) : List Rune := runesAfter 0 t

def ofRunes (rs : List Rune) : Text := rs.flatMap Rune.bytes

/-- Whether the text is UTF-8 throughout. -/
def isValid (t : Text) : Bool :=
  t.runes.all fun | .char _ => true | .stray _ => false

/-- The text with every stray byte replaced by U+FFFD. -/
def toString (t : Text) : String := String.ofList (t.runes.map Rune.toChar)

def toString? (t : Text) : Option String := if t.isValid then some t.toString else none

/-- How many characters a reader sees, stray bytes counting as one each. -/
def width (t : Text) : Nat := t.runes.length

end Text
end Regatta
