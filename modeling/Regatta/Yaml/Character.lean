import Regatta.Number
import Regatta.Text.Basic

/-! The characters of a YAML text.

Text is UTF-8, perhaps after a byte order mark. Control characters are refused. Input is looked at
in blocks, so a fault is reported as soon as the block that holds it is needed, whatever stands
before it in the block. -/
namespace Regatta.Yaml

inductive CharacterFault where
  | leading
  | incomplete
  | trailing
  | overlong
  | outOfRange
  | control
deriving DecidableEq, Repr

def CharacterFault.message : CharacterFault → Text
  | .leading => "invalid leading UTF-8 octet"
  | .incomplete => "incomplete UTF-8 octet sequence"
  | .trailing => "invalid trailing UTF-8 octet"
  | .overlong => "invalid length of a UTF-8 sequence"
  | .outOfRange => "invalid Unicode character"
  | .control => "control characters are not allowed"

/-- Whether a character may stand in a text. -/
def allowed (n : Nat) : Bool :=
  n == 0x09 || n == 0x0A || n == 0x0D || (0x20 ≤ n && n ≤ 0x7E) || n == 0x85 ||
    (0xA0 ≤ n && n ≤ 0xD7FF) || (0xE000 ≤ n && n ≤ 0xFFFD) || (0x10000 ≤ n && n ≤ 0x10FFFF)

/-- How many bytes a character has that starts with `b`; zero when none does. -/
def width (b : UInt8) : Nat :=
  if b < 0x80 then 1
  else if b &&& 0xE0 == 0xC0 then 2
  else if b &&& 0xF0 == 0xE0 then 3
  else if b &&& 0xF8 == 0xF0 then 4
  else 0

/-- Least value that needs so many bytes. -/
def least : Nat → Nat
  | 2 => 0x80
  | 3 => 0x800
  | 4 => 0x10000
  | _ => 0

/-- The character that starts with `b`, and how many bytes of `rest` belong to it. -/
def character (b : UInt8) (rest : Text) : Except CharacterFault (Char × Nat) :=
  let w := width b
  if w == 0 then .error .leading
  else
    let more := rest.take (w - 1)
    if more.length < w - 1 then .error .incomplete
    else if more.any fun c => c &&& 0xC0 != 0x80 then .error .trailing
    else
      let first := if w == 1 then b.toNat else b.toNat % Number.twoTo (7 - w)
      let n := more.foldl (fun n c => 64 * n + c.toNat % 64) first
      if n < least w then .error .overlong
      else if (0xD800 ≤ n && n ≤ 0xDFFF) || 0x10FFFF < n then .error .outOfRange
      else if !allowed n then .error .control
      else .ok (Char.ofNat n, w - 1)

/-- The characters of a text, each with the place of its first byte, and the fault that ends it. -/
def decodeFrom : (skip place : Nat) → Text → List (Nat × Char) × Option (Nat × CharacterFault)
  | _, _, [] => ([], none)
  | skip + 1, place, _ :: rest => decodeFrom skip (place + 1) rest
  | 0, place, b :: rest =>
    match character b rest with
    | .error f => ([], some (place, f))
    | .ok (c, n) =>
      let (cs, f) := decodeFrom n (place + 1) rest
      ((place, c) :: cs, f)

/-- Bytes that are looked at together. -/
def blockSize : Nat := 512

def byteOrderMark : Text := [0xEF, 0xBB, 0xBF]

/-- The characters up to the block with a fault, and the fault. -/
def characters (t : Text) : List Char × Option CharacterFault :=
  let marked := byteOrderMark.isPrefixOf t
  let (cs, fault) := decodeFrom 0 (if marked then 3 else 0) (if marked then t.drop 3 else t)
  match fault with
  | none => (cs.map (·.2), none)
  | some (place, f) =>
    let start := place / blockSize * blockSize
    ((cs.filter fun (p, _) => p < start).map (·.2), some f)

end Regatta.Yaml
