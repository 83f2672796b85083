import Regatta.Text.Printable

/-! Texts in double quotes, as error messages show them.

What is not printable is escaped, so a quoted text is always one line of valid UTF-8. -/
namespace Regatta

/-- How a character stands between double quotes. -/
def Char.quoted (c : Char) : Text :=
  let n := c.toNat
  if c == '"' || c == '\\' then [Text.byte '\\', Text.byte c]
  else if Char.isPrintable c then String.utf8EncodeChar c
  else match n with
    | 7 => "\\a" | 8 => "\\b" | 12 => "\\f" | 10 => "\\n" | 13 => "\\r" | 9 => "\\t" | 11 => "\\v"
    | _ =>
      if n < 0x20 || n == 0x7F then "\\x" ++ Text.hex 2 n
      else if n < 0x10000 then "\\u" ++ Text.hex 4 n
      else "\\U" ++ Text.hex 8 n

def Rune.quoted : Rune → Text
  | .char c => Char.quoted c
  | .stray b => "\\x" ++ Text.hex 2 b.toNat

def Text.quoted (t : Text) : Text := "\"" ++ t.runes.flatMap Rune.quoted ++ "\""

end Regatta
