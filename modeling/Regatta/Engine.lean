import Regatta.Text.Blank
import Regatta.Text.Lower
import Regatta.Text.Quoted

/-! The model-checking engines of the external tool.

An engine is known by its number. Numbers one to five are engines that can be run; zero stands
for no engine, and larger numbers name nothing. -/
namespace Regatta

structure Engine where
  code : UInt8
deriving DecidableEq, Repr, Inhabited

namespace Engine

def none : Engine := ⟨0⟩
def pdr : Engine := ⟨1⟩
def bmc : Engine := ⟨2⟩
def int : Engine := ⟨3⟩
def dprove : Engine := ⟨4⟩
def sim : Engine := ⟨5⟩

/-- Every engine that can be run, in order of number. -/
def all : List Engine := [pdr, bmc, int, dprove, sim]

/-- The name of the engine, which is also its tool command; empty when it cannot be run. -/
def name (e : Engine) : Text :=
  if e = pdr then "pdr"
  else if e = bmc then "bmc"
  else if e = int then "int"
  else if e = dprove then "dprove"
  else if e = sim then "sim"
  else ""

def runnable (e : Engine) : Bool := all.contains e

inductive ParseError where
  | unknown (name : Text)
  | repeated (name : Text)
deriving DecidableEq, Repr

def ParseError.message : ParseError → Text
  | .unknown n =>
    "unknown engine " ++ n.quoted ++ ": must be one of [" ++
      Text.join " " (all.map name) ++ "]"
  | .repeated n => "engine " ++ n.quoted ++ " listed twice"

/-- The engine of a name; letter case and surrounding white space do not count. -/
def parse (t : Text) : Except ParseError Engine :=
  let wanted := t.trim.lower
  match all.find? (fun e => e.name == wanted) with
  | some e => .ok e
  | .none => .error (.unknown t)

/-- Engines of the names after those already `seen`. -/
def parseAfter (seen : List Engine) : List Text → Except ParseError (List Engine)
  | [] => .ok []
  | n :: rest => do
    let e ← parse n
    if seen.contains e then throw (.repeated n)
    return e :: (← parseAfter (e :: seen) rest)

/-- The engines of a list of names, none of them twice. -/
def parseList (names : List Text) : Except ParseError (List Engine) := parseAfter [] names

/-- Reads the text form, in which the empty text is no engine. -/
def ofText (t : Text) : Except ParseError Engine :=
  if t.isEmpty then .ok none else parse t

/-- Reads the text form into a variable. -/
def load (t : Text) : EStateM ParseError Engine Unit := do
  if t.isEmpty then set none
  else match parse t with
    | .ok e => set e
    | .error x => throw x

end Engine
end Regatta
