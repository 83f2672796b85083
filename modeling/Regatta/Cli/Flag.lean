import Regatta.Report.CsvReading
import Regatta.Text.Numeral
import Regatta.Text.Quoted
import Regatta.Time.Duration

/-! Flags of a command and their values. -/
namespace Regatta.Cli

inductive FlagValue where
  | text (t : Text)
  | toggle (b : Bool)
  | number (n : Int)
  | duration (d : Duration)
  /-- Items separated by commas. -/
  | list (items : List Text)
  /-- One item for each time the flag is given. -/
  | array (items : List Text)
deriving DecidableEq, Repr

namespace FlagValue

/-- What stands for the value in a help text. -/
def placeholder : FlagValue → Text
  | .text _ => "string"
  | .toggle _ => ""
  | .number _ => "int"
  | .duration _ => "duration"
  | .list _ => "strings"
  | .array _ => "stringArray"

def renderItems (items : List Text) : Text :=
  "[" ++ (Csv.record items).dropLast ++ "]"

/-- The value as a help text shows it. -/
def render : FlagValue → Text
  | .text t => Text.quoted t
  | .toggle b => if b then "true" else "false"
  | .number n => Text.ofInt n
  | .duration d => Duration.render d
  | .list items | .array items => renderItems items

/-- Whether a help text leaves the value out. -/
def isBlank : FlagValue → Bool
  | .text t => t.isEmpty
  | .toggle b => !b
  | .number n => n == 0
  | .duration d => d == 0
  | .list items | .array items => renderItems items == "[]"

end FlagValue

inductive ValueFault where
  | toggle (t : Text)
  | number (t : Text) (f : Text.NumeralFault)
  | duration (e : Duration.ParseError)
  | list (f : Csv.ReadFault)

def ValueFault.message : ValueFault → Text
  | .toggle t => "strconv.ParseBool: parsing " ++ Text.quoted t ++ ": invalid syntax"
  | .number t f => "strconv.ParseInt: parsing " ++ Text.quoted t ++ ": " ++ f.message
  | .duration e => e.message
  | .list f => f.message

def readToggle (t : Text) : Option Bool :=
  let isOneOf (names : List String) : Bool := names.any (Text.ofString · == t)
  if isOneOf ["1", "t", "T", "true", "TRUE", "True"] then some true
  else if isOneOf ["0", "f", "F", "false", "FALSE", "False"] then some false
  else none

/-- The value of a flag after a text was given for it. A list that was given before is extended;
one that only has its default is replaced. -/
def FlagValue.read (old : FlagValue) (given : Bool) (t : Text) : Except ValueFault FlagValue :=
  match old with
  | .text _ => .ok (.text t)
  | .toggle _ =>
    match readToggle t with
    | some b => .ok (.toggle b)
    | none => .error (.toggle t)
  | .number _ =>
    match Text.intLiteral t with
    | .ok n => .ok (.number n)
    | .error f => .error (.number t f)
  | .duration _ =>
    match Duration.parse t with
    | .ok d => .ok (.duration d)
    | .error e => .error (.duration e)
  | .list items =>
    let old := if given then items else []
    if t.isEmpty then .ok (.list old)
    else match Csv.readRecord t with
      | .ok new => .ok (.list (old ++ new))
      | .error f => .error (.list f)
  | .array items => .ok (.array ((if given then items else []) ++ [t]))

/-- A flag with the value it has when it is not given. -/
structure Flag where
  name : Text
  short : Option Char
  value : FlagValue
  usage : Text

namespace Flag

def isToggle (f : Flag) : Bool :=
  match f.value with
  | .toggle _ => true
  | _ => false

def names (f : Flag) : Text :=
  match f.short with
  | some c => "-" ++ [Text.byte c] ++ ", --" ++ f.name
  | none => "--" ++ f.name

def find? (flags : List Flag) (name : Text) : Option Flag := flags.find? (·.name == name)

def findShort? (flags : List Flag) (b : UInt8) : Option Flag :=
  flags.find? fun f => f.short.any (Text.byte · == b)

end Flag

inductive FlagFault where
  | badForm (argument : Text)
  | unknown (name : Text)
  | unknownShort (letter : UInt8) (group : Text)
  | noValue (argument : Text)
  | noValueShort (letter : UInt8) (group : Text)
  | badValue (value : Text) (flag : Flag) (f : ValueFault)

def quotedLetter (b : UInt8) : Text :=
  let c := Char.ofNat b.toNat
  if c == '\'' then "'\\''" else if c == '"' then "'\"'" else "'" ++ Char.quoted c ++ "'"

def FlagFault.message : FlagFault → Text
  | .badForm a => "bad flag syntax: " ++ a
  | .unknown n => "unknown flag: --" ++ n
  | .unknownShort b g => "unknown shorthand flag: " ++ quotedLetter b ++ " in -" ++ g
  | .noValue a => "flag needs an argument: " ++ a
  | .noValueShort b g => "flag needs an argument: " ++ quotedLetter b ++ " in -" ++ g
  | .badValue v f e =>
    "invalid argument " ++ Text.quoted v ++ " for " ++ Text.quoted f.names ++ " flag: " ++ e.message

/-- What was given: values of flags, and the other arguments. -/
structure Given where
  values : List (Text × FlagValue) := []
  arguments : List Text := []

namespace Given

def isGiven (g : Given) (name : Text) : Bool := (g.values.lookup name).isSome

def value (g : Given) (f : Flag) : FlagValue := (g.values.lookup f.name).getD f.value

def set (g : Given) (f : Flag) (t : Text) : Except FlagFault Given :=
  match (g.value f).read (g.isGiven f.name) t with
  | .error e => .error (.badValue t f e)
  | .ok v => .ok { g with values := (f.name, v) :: g.values.filter (·.1 != f.name) }

def addArguments (g : Given) (ts : List Text) : Given := { g with arguments := g.arguments ++ ts }

end Given

/-- The name and the value of an argument with an equals sign. -/
def splitValue (t : Text) : Text × Option Text :=
  match Text.cut 61 t with
  | some (name, value) => (name, some value)
  | none => (t, none)

/-- A flag with two dashes. Its value is after an equals sign, or the next argument; a toggle needs
none. -/
def readLong (flags : List Flag) (g : Given) (argument : Text) (rest : List Text) :
    Except FlagFault (Given × List Text) := do
  let body := argument.drop 2
  if body.head? == some 45 || body.head? == some 61 then throw (.badForm argument)
  let (name, value) := splitValue body
  match Flag.find? flags name with
  | none => throw (.unknown name)
  | some f =>
    match value, rest with
    | some v, _ => return (← g.set f v, rest)
    | none, _ =>
      if f.isToggle then return (← g.set f "true", rest)
      match rest with
      | v :: rest => return (← g.set f v, rest)
      | [] => throw (.noValue argument)

/-- Flags of one letter behind one dash. The last one may take the rest of the group as its value,
or the next argument. -/
def readShort (flags : List Flag) (rest : List Text) :
    (fuel : Nat) → Given → (group : Text) → Except FlagFault (Given × List Text)
  | 0, g, _ => .ok (g, rest)
  | _, g, [] => .ok (g, rest)
  | fuel + 1, g, b :: more => do
    if ("test." : Text).isPrefixOf (b :: more) then return (g, rest)
    match Flag.findShort? flags b with
    | none => throw (.unknownShort b (b :: more))
    | some f =>
      if more.head? == some 61 && 1 < more.length then return (← g.set f (more.drop 1), rest)
      if f.isToggle then readShort flags rest fuel (← g.set f "true") more
      else if !more.isEmpty then return (← g.set f more, rest)
      else match rest with
        | v :: rest => return (← g.set f v, rest)
        | [] => throw (.noValueShort b (b :: more))

/-- Read arguments. Two dashes alone end the flags. -/
def readArguments (flags : List Flag) : (fuel : Nat) → List Text → Given → Except FlagFault Given
  | 0, _, g => .ok g
  | _, [], g => .ok g
  | fuel + 1, a :: rest, g => do
    match a with
    | 45 :: 45 :: [] => return g.addArguments rest
    | 45 :: 45 :: _ =>
      let (g, rest) ← readLong flags g a rest
      readArguments flags fuel rest g
    | 45 :: b :: more =>
      let (g, rest) ← readShort flags rest (a.length + 1) g (b :: more)
      readArguments flags fuel rest g
    | _ => readArguments flags fuel rest (g.addArguments [a])

end Regatta.Cli
