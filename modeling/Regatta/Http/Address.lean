import Regatta.Text.Basic

/-! Addresses to listen on: a host, a colon, and a port.

A port is a number or the name of a service. A host with colons stands in brackets. -/
namespace Regatta.Http

inductive AddressFault where
  /-- The address, or the port in it, and what is wrong. -/
  | malformed (part reason : Text)
  | unknownService (name : Text)
deriving DecidableEq, Repr

def AddressFault.message : AddressFault → Text
  | .malformed part reason => "address " ++ part ++ ": " ++ reason
  | .unknownService name => "lookup tcp/" ++ name ++ ": unknown port"

namespace Address

def colon : UInt8 := 58
def openBracket : UInt8 := 91
def closeBracket : UInt8 := 93

def cutLast (t : Text) : Option (Text × Text) :=
  match Text.cut colon t.reverse with
  | some (back, front) => some (front.reverse, back.reverse)
  | none => none

def split (t : Text) : Except AddressFault (Text × Text) := do
  let refuse {α : Type} (reason : Text) : Except AddressFault α := .error (.malformed t reason)
  match cutLast t with
  | none => refuse "missing port in address"
  | some (front, port) =>
    if t.head? == some openBracket then
      match Text.cut closeBracket t with
      | none => refuse "missing ']' in address"
      | some (host, rest) =>
        if rest.head? != some colon then refuse "missing port in address"
        else if rest != colon :: port then refuse "too many colons in address"
        else if (host.drop 1 ++ rest).any (· == openBracket) then refuse "unexpected '[' in address"
        else if rest.any (· == closeBracket) then refuse "unexpected ']' in address"
        else return (host.drop 1, port)
    else if front.any (· == colon) then refuse "too many colons in address"
    else if t.any (· == openBracket) then refuse "unexpected '[' in address"
    else if t.any (· == closeBracket) then refuse "unexpected ']' in address"
    else return (front, port)

/-- Ports of services that go by a name. -/
def services : List (String × Nat) :=
  [("domain", 53), ("finger", 79), ("ftp", 21), ("ftps", 990), ("gopher", 70), ("http", 80),
    ("https", 443), ("imap2", 143), ("imap3", 220), ("imaps", 993), ("pop3", 110), ("pop3s", 995),
    ("smtp", 25), ("submissions", 465), ("ssh", 22), ("telnet", 23)]

/-- The number of a port; no port at all is zero. -/
def port (t : Text) : Except AddressFault Nat :=
  let (negative, digits) := match t with
    | 45 :: rest => (true, rest)
    | 43 :: rest => (false, rest)
    | _ => (false, t)
  if digits.all Text.isDigit then
    let n := Text.digitsValue digits
    if n ≤ 65535 && (!negative || n == 0) then .ok n else .error (.malformed t "invalid port")
  else
    match services.find? fun (name, _) => Text.ofString name == Text.lowerAscii t with
    | some (_, n) => .ok n
    | none => .error (.unknownService t)

/-- Whether an address can be listened on; none at all stands for the port of the web. -/
def check (t : Text) : Except AddressFault Unit := do
  if t.isEmpty then return
  let (_, p) ← split t
  let _ ← port p

end Address
end Regatta.Http
