import Regatta.Http.Message

/-! Requests from pages of other origins: who may ask for what. -/
namespace Regatta.Http.Cors

def allowedMethods : List Text := ["GET", "POST", "DELETE", "OPTIONS"]

def allowedHeaders : List Text := ["Accept", "Content-Type", "X-Request-Id", "Origin"]

def exposedHeader : Text := "X-Request-Id"

/-- Seconds for which an answer may be remembered. -/
def maxAge : Text := "300"

private def upperByte (b : UInt8) : UInt8 := if 97 ≤ b && b ≤ 122 then b - 32 else b

def upperCase (t : Text) : Text := t.map upperByte

def methodAllowed (m : Text) : Bool := allowedMethods.contains (upperCase m)

/-- A character of a header name that is kept. -/
private def inName (b : UInt8) : Bool :=
  Text.isLetter b || Text.isDigit b || b == 45 || b == 95 || b == 46

/-- A header name in its customary spelling: capitals at the start and after `-` or `_`. -/
private def spell : (capital : Bool) → Text → Text
  | _, [] => []
  | capital, b :: rest =>
    let b' := if capital then upperByte b else Text.lowerByte b
    let rest := spell (b == 45 || b == 95) rest
    if inName b then b' :: rest else rest

/-- The header names of a list, which are separated by commas or blanks. -/
def headerNames (t : Text) : List Text :=
  let pieces := (Text.splitOn (Text.byte ',') t).flatMap (Text.splitOn (Text.byte ' '))
  (pieces.map (spell true)).filter (!·.isEmpty)

/-- Whether a request only asks whether another one would be allowed. -/
def isPreflight (r : Request) : Bool :=
  r.method == "OPTIONS" && !(r.headers.first "Access-Control-Request-Method").isEmpty &&
    !(r.headers.first "Origin").isEmpty

def preflight (r : Request) : Headers :=
  let vary : Headers := [("Vary", "Origin"), ("Vary", "Access-Control-Request-Method"),
    ("Vary", "Access-Control-Request-Headers")]
  let method := r.headers.first "Access-Control-Request-Method"
  let names := headerNames (r.headers.first "Access-Control-Request-Headers")
  if methodAllowed method && names.all allowedHeaders.contains then
    let allowed := (vary.add "Access-Control-Allow-Origin" "*").add
      "Access-Control-Allow-Methods" (upperCase method)
    let allowed := if names.isEmpty then allowed
      else allowed.add "Access-Control-Allow-Headers" (Text.join ", " names)
    allowed.add "Access-Control-Max-Age" maxAge
  else vary

/-- The headers that every other answer carries. -/
def actual (r : Request) : Headers :=
  let vary : Headers := [("Vary", "Origin")]
  if (r.headers.first "Origin").isEmpty || !methodAllowed r.method then vary
  else (vary.add "Access-Control-Allow-Origin" "*").add
    "Access-Control-Expose-Headers" exposedHeader

end Regatta.Http.Cors
