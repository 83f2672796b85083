import Regatta.Decimal.Notation
import Regatta.Text.Rune

/-! JSON values and their written form.

Object members keep their order. Strings are written as valid UTF-8: a stray byte becomes
U+FFFD, which stands for itself and is not escaped. Numbers keep the digits they were written with. -/
namespace Regatta

inductive Json where
  | null
  | bool (b : Bool)
  | number (literal : Text)
  | string (t : Text)
  | array (items : List Json)
  | object (members : List (Text × Json))
deriving Repr, Inhabited

namespace Json

instance : Coe Bool Json := ⟨.bool⟩
instance : Coe Text Json := ⟨.string⟩
instance : Coe String Json := ⟨fun s => .string s⟩

def ofNat (n : Nat) : Json := .number (Text.ofNat n)
def ofInt (n : Int) : Json := .number (Text.ofInt n)
def ofDouble (x : Double) : Json := .number (Decimal.render .json x)

def ofOption (f : α → Json) : Option α → Json
  | none => .null
  | some a => f a

def field (name : String) (v : Json) : Text × Json := (name, v)

/-- A member that is left out when there is no value. -/
def optional (name : String) (f : α → Json) (a : Option α) : List (Text × Json) :=
  a.toList.map fun a => (name, f a)

/-- Characters that are written as escapes beyond those that JSON demands. -/
inductive Escaping where
  /-- Also `<`, `>` and `&`, so that the text can stand in markup. -/
  | markup
  | plain
deriving DecidableEq

def escapeChar (mode : Escaping) (c : Char) : Text :=
  let n := c.toNat
  if c == '"' || c == '\\' then [Text.byte '\\', Text.byte c]
  else if n < 0x20 then
    match n with
    | 8 => "\\b" | 9 => "\\t" | 10 => "\\n" | 12 => "\\f" | 13 => "\\r"
    | _ => "\\u" ++ Text.hex 4 n
  else if n == 0x2028 || n == 0x2029 then "\\u" ++ Text.hex 4 n
  else if mode == .markup && (c == '<' || c == '>' || c == '&') then "\\u" ++ Text.hex 4 n
  else String.utf8EncodeChar c

def quote (mode : Escaping) (t : Text) : Text :=
  "\"" ++ (t.runes.flatMap fun r => escapeChar mode r.toChar) ++ "\""

mutual

def renderWith (mode : Escaping) : Json → Text
  | .null => "null"
  | .bool b => if b then "true" else "false"
  | .number l => l
  | .string t => quote mode t
  | .array xs => "[" ++ renderItems mode xs ++ "]"
  | .object ms => "\x7b" ++ renderMembers mode ms ++ "\x7d"

def renderItems (mode : Escaping) : List Json → Text
  | [] => []
  | [x] => renderWith mode x
  | x :: rest => renderWith mode x ++ "," ++ renderItems mode rest

def renderMembers (mode : Escaping) : List (Text × Json) → Text
  | [] => []
  | [(k, v)] => quote mode k ++ ":" ++ renderWith mode v
  | (k, v) :: rest => quote mode k ++ ":" ++ renderWith mode v ++ "," ++ renderMembers mode rest

end

def render (j : Json) : Text := renderWith .markup j

private def newline (level : Nat) : Text := "\n" ++ List.replicate (2 * level) (Text.byte ' ')

mutual

/-- The form with one item or member a line, two blanks for every level. -/
def renderIndented (level : Nat) : Json → Text
  | .array [] => "[]"
  | .object [] => "\x7b\x7d"
  | .array xs => "[" ++ indentItems (level + 1) xs ++ newline level ++ "]"
  | .object ms => "\x7b" ++ indentMembers (level + 1) ms ++ newline level ++ "\x7d"
  | .null => "null"
  | .bool b => if b then "true" else "false"
  | .number l => l
  | .string t => quote .markup t

def indentItems (level : Nat) : List Json → Text
  | [] => []
  | [x] => newline level ++ renderIndented level x
  | x :: rest => newline level ++ renderIndented level x ++ "," ++ indentItems level rest

def indentMembers (level : Nat) : List (Text × Json) → Text
  | [] => []
  | [(k, v)] => newline level ++ quote .markup k ++ ": " ++ renderIndented level v
  | (k, v) :: rest =>
    newline level ++ quote .markup k ++ ": " ++ renderIndented level v ++ "," ++
      indentMembers level rest

end

end Json
end Regatta
