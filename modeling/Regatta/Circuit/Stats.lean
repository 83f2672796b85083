import Regatta.Number
import Regatta.Text.Quoted

/-! Figures of a circuit, and the summary line in which the tool reports them. -/
namespace Regatta

structure Stats where
  inputs : Int
  outputs : Int
  latches : Int
  ands : Int
deriving DecidableEq, Repr, Inhabited

namespace Stats

inductive Source where
  | tool
  | native
  | auto
deriving DecidableEq, Repr, Inhabited

def Source.name : Source → Text
  | .tool => "abc"
  | .native => "native"
  | .auto => "auto"

/-- No name at all asks the tool. -/
def Source.parse (t : Text) : Except Text Source :=
  if t.isEmpty || t == "abc" then .ok .tool
  else if t == "native" then .ok .native
  else if t == "auto" then .ok .auto
  else .error ("unknown stats source " ++ t.quoted ++ ": must be abc, native or auto")

namespace Summary

/-- White space inside a summary: tab, line feed, form feed, carriage return, blank. -/
def isGap (b : UInt8) : Bool := b == 9 || b == 10 || b == 12 || b == 13 || b == 32

def gaps (t : Text) : Text := t.dropWhile isGap

/-- At least one white space. -/
def gap (t : Text) : Option Text :=
  match t with
  | b :: rest => if isGap b then some (gaps rest) else none
  | [] => none

def number (t : Text) : Option (Nat × Text) :=
  let ds := t.takeWhile Text.isDigit
  if ds.isEmpty then none else some (Text.digitsValue ds, t.dropWhile Text.isDigit)

/-- A name, an equals sign and a number, with white space around the sign. -/
def entry (name : String) (t : Text) : Option (Nat × Text) := do
  let t ← Text.stripPrefix? name t
  let t ← Text.stripPrefix? "=" (gaps t)
  number (gaps t)

/-- The summary at the start of the text: `i/o = a / b  lat = c  and = d`. -/
def atStart (t : Text) : Option (Nat × Nat × Nat × Nat) := do
  let (a, t) ← entry "i/o" t
  let t ← Text.stripPrefix? "/" (gaps t)
  let (b, t) ← number (gaps t)
  let t ← gap t
  let (c, t) ← entry "lat" t
  let t ← gap t
  let (d, _) ← entry "and" t
  some (a, b, c, d)

/-- The leftmost summary of the text. -/
def find : Text → Option (Nat × Nat × Nat × Nat)
  | [] => none
  | b :: rest =>
    match atStart (b :: rest) with
    | some s => some s
    | none => find rest

end Summary

/-- The figures in a tool's output. A summary with a number above 2⁶³ - 1 counts as none. -/
def extract (output : Text) : Option Stats :=
  match Summary.find output with
  | some (a, b, c, d) =>
    if [a, b, c, d].all (· < Number.wordLimit) then some ⟨a, b, c, d⟩ else none
  | none => none

end Stats
end Regatta
