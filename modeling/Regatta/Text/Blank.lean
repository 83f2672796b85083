import Regatta.Text.Rune

/-! White space, and trimming it off both ends of a text. -/
namespace Regatta

/-- The characters with the property White_Space. -/
def Char.isBlank (c : Char) : Bool :=
  let n := c.toNat
  (9 ≤ n && n ≤ 13) || n == 0x20 || n == 0x85 || n == 0xA0 || n == 0x1680 ||
  (0x2000 ≤ n && n ≤ 0x200A) || n == 0x2028 || n == 0x2029 || n == 0x202F || n == 0x205F ||
  n == 0x3000

def Rune.isBlank : Rune → Bool
  | .char c => Char.isBlank c
  | .stray _ => false

namespace Text

/-- The text without leading and trailing white space. Stray bytes are never white space. -/
def trim (t : Text) : Text :=
  ofRunes (((t.runes.dropWhile Rune.isBlank).reverse.dropWhile Rune.isBlank).reverse)

def trimRight (t : Text) : Text :=
  ofRunes (t.runes.reverse.dropWhile Rune.isBlank).reverse

/-- The comma-separated items, trimmed, without the empty ones. -/
def items (t : Text) : List Text := ((splitOn (byte ',') t).map trim).filter (!·.isEmpty)

end Text
end Regatta
