import Regatta.Text.Blank

/-! Comma separated records.

A field is quoted when it holds a comma, a quote or a line break, when it starts with a blank, and
when it is `\.`, which some readers take for the end of the data. Quotes inside are doubled. -/
namespace Regatta.Csv

def comma : UInt8 := 44
def quoteMark : UInt8 := 34
def lineFeed : UInt8 := 10
def carriageReturn : UInt8 := 13

def special (b : UInt8) : Bool :=
  b == comma || b == quoteMark || b == lineFeed || b == carriageReturn

def startsBlank (t : Text) : Bool := t.runes.head?.any Rune.isBlank

def needsQuotes (t : Text) : Bool := t == "\\." || t.any special || startsBlank t

def doubled : Text → Text
  | [] => []
  | b :: rest => if b == quoteMark then quoteMark :: quoteMark :: doubled rest else b :: doubled rest

def field (t : Text) : Text :=
  if needsQuotes t then quoteMark :: doubled t ++ [quoteMark] else t

/-- A record and the line feed that ends it. -/
def record (fields : List Text) : Text := Text.join [comma] (fields.map field) ++ [lineFeed]

def render (records : List (List Text)) : Text := records.flatMap record

end Regatta.Csv
