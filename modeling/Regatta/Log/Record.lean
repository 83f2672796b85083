import Regatta.Json.Parser
import Regatta.Log.Level
import Regatta.Text.Blank
import Regatta.Text.Quoted
import Regatta.Time.Instant

/-! Log records and their two written forms: a JSON object a line, or a terse line for reading. -/
namespace Regatta.Log

inductive Format where
  | json
  | terse
deriving DecidableEq, Repr

/-- Only `text` asks for terse lines. -/
def Format.ofName (t : Text) : Format := if t == "text" then .terse else .json

structure Record where
  time : Instant
  level : Level
  message : Text
  attributes : List (Text × Json)

/-- Attributes that say something: a nameless `null` does not. -/
def Record.shown (r : Record) : List (Text × Json) :=
  r.attributes.filter fun (k, v) => match v with | .null => !k.isEmpty | _ => true

/-! ### JSON lines -/

/-- Numbers are doubles, whatever their spelling was. -/
private def normalNumber (literal : Text) : Text :=
  match Json.double? literal with
  | some x => Decimal.render .json x
  | none => literal

mutual

def normal : Json → Json
  | .number l => .number (normalNumber l)
  | .array xs => .array (normalItems xs)
  | .object ms => .object (normalMembers ms)
  | j => j

def normalItems : List Json → List Json
  | [] => []
  | x :: rest => normal x :: normalItems rest

def normalMembers : List (Text × Json) → List (Text × Json)
  | [] => []
  | (k, v) :: rest => (k, normal v) :: normalMembers rest

end

def Record.jsonLine (r : Record) : Text :=
  (Json.object <|
    [Json.field "time" r.time.rfc3339, Json.field "level" r.level.name,
      Json.field "msg" r.message] ++
    r.shown.map fun (k, v) => (k, normal v)).renderWith .plain ++ "\n"

/-! ### Terse lines -/

/-- Floating-point numbers inside lists: positional up to 10²¹. -/
private def listedNumber : Decimal.Layout := ⟨-4, 21, 2⟩

private def numberText (layout : Decimal.Layout) (literal : Text) : Text :=
  match Json.double? literal with
  | some x => Decimal.render layout x
  | none => literal

mutual

/-- A value without quotes, lists in brackets. -/
def plainText : Json → Text
  | .null => "<nil>"
  | .bool b => if b then "true" else "false"
  | .number l => numberText listedNumber l
  | .string t => t
  | .array xs => "[" ++ plainItems xs ++ "]"
  | .object ms => "map[" ++ plainMembers ms ++ "]"

def plainItems : List Json → Text
  | [] => []
  | [x] => plainText x
  | x :: rest => plainText x ++ " " ++ plainItems rest

def plainMembers : List (Text × Json) → Text
  | [] => []
  | [(k, v)] => k ++ ":" ++ plainText v
  | (k, v) :: rest => k ++ ":" ++ plainText v ++ " " ++ plainMembers rest

end

/-- Whether a value has to stand in quotes: it is empty, or has blanks, equals signs, quotes or
something that cannot be printed. -/
def needsQuotes (t : Text) : Bool :=
  t.isEmpty || t.runes.any fun
    | .stray _ => true
    | .char c =>
      let n := c.toNat
      if n < 0x80 then n != 92 && (n ≤ 0x20 || n == 61 || n == 34)
      else n == 0xFFFD || Char.isBlank c || !Char.isPrintable c

/-- Removes terminal escape sequences: from an escape character to the next letter. -/
def withoutEscapes : (inside : Bool) → List Rune → List Rune
  | _, [] => []
  | inside, r :: rest =>
    let n := r.toChar.toNat
    if n == 0x1B then withoutEscapes true rest
    else if inside then
      withoutEscapes (!((65 ≤ n && n ≤ 90) || (97 ≤ n && n ≤ 122))) rest
    else r :: withoutEscapes false rest

def terseText (t : Text) : Text :=
  let t := Text.ofRunes (withoutEscapes false t.runes)
  if needsQuotes t then t.quoted else t

def terseValue : Json → Text
  | .bool b => if b then "true" else "false"
  | .number l => numberText .general l
  | j => terseText (plainText j)

def Record.terseLine (r : Record) : Text :=
  let shown := r.shown.map fun (k, v) => terseText k ++ "=" ++ terseValue v
  Text.join " "
    ([(Calendar.ofInstant r.time).clockText, r.level.short, r.message] ++ shown) ++ "\n"

def Record.line (f : Format) (r : Record) : Text :=
  match f with
  | .json => r.jsonLine
  | .terse => r.terseLine

/-- Everything a logger of the given level and form writes. -/
def output (level : Level) (f : Format) (rs : List Record) : Text :=
  (rs.filter fun r => level.number ≤ r.level.number).flatMap (Record.line f)

end Regatta.Log
