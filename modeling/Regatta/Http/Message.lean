import Regatta.Text.Basic

/-! Requests and responses of the web interface. -/
namespace Regatta.Http

abbrev Headers := List (Text × Text)

/-- The first value of a header, letter case of its name aside; blank when there is none. -/
def Headers.first (hs : Headers) (name : Text) : Text :=
  ((hs.find? fun (n, _) => Text.lowerAscii n == Text.lowerAscii name).map (·.2)).getD ""

def Headers.set (hs : Headers) (name value : Text) : Headers :=
  (hs.filter fun (n, _) => n != name) ++ [(name, value)]

def Headers.add (hs : Headers) (name value : Text) : Headers := hs ++ [(name, value)]

structure Request where
  method : Text
  /-- Path and query, as they stand in the request line. -/
  target : Text
  headers : Headers
  body : Text
deriving Repr, Inhabited

structure Response where
  status : Nat
  headers : Headers
  body : Text
deriving Repr, Inhabited

end Regatta.Http
