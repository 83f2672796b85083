import Regatta.Text.Lower

/-! What an engine found out about a circuit, read off its output. -/
namespace Regatta

/-- The answer of an engine. The five answers below are the ones the program gives; a stored or
received verdict may be any text. -/
structure Verdict where
  text : Text
deriving DecidableEq, Repr, Inhabited

namespace Verdict

def sat : Verdict := ⟨"SAT"⟩
def unsat : Verdict := ⟨"UNSAT"⟩
def unknown : Verdict := ⟨"UNKNOWN"⟩
def timeout : Verdict := ⟨"TIMEOUT"⟩
def fail : Verdict := ⟨"FAIL"⟩
def absent : Verdict := ⟨[]⟩

def all : List Verdict := [sat, unsat, unknown, timeout, fail]

/-- Whether the verdict decides the property. -/
def conclusive (v : Verdict) : Bool := v = sat || v = unsat

/-- Texts that report a proof. -/
def proofMarkers : List Text := ["unsat", "property proved"]

/-- Texts that report a counterexample. -/
def refutationMarkers : List Text := ["sat", "counterexample"]

/-- The verdict that a tool's output reports. A proof marker outweighs a counterexample marker,
which it may contain. -/
def classify (output : Text) : Verdict :=
  let t := output.lower
  if proofMarkers.any (Text.contains · t) then unsat
  else if refutationMarkers.any (Text.contains · t) then sat
  else unknown

end Verdict
end Regatta
