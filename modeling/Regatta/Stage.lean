import Regatta.Text.Blank
import Regatta.Text.Quoted

/-! Named transformation scripts that are applied to a circuit before the race. -/
namespace Regatta

structure Stage where
  name : Text
  commands : Text
deriving DecidableEq, Repr, Inhabited

namespace Stage

/-- The simplification that runs unless the caller chooses otherwise. -/
def defaults : List Stage := [⟨"simplify", "dc2; rewrite; retime -o; strash"⟩]

inductive Fault where
  | notAssignment (text : Text)
  | nameMissing
  | nameRefused (name : Text)
  | noCommands (name : Text)
deriving DecidableEq, Repr

def Fault.message : Fault → Text
  | .notAssignment t => "invalid stage " ++ t.quoted ++ ": want name=commands"
  | .nameMissing => "stage name is required"
  | .nameRefused n => "invalid stage name " ++ n.quoted
  | .noCommands n => "stage " ++ n.quoted ++ " has no commands"

/-- Names become parts of file names and of scripts: no separators and no blanks. -/
def refused (b : UInt8) : Bool := b == 47 || b == 92 || b == 59 || b == 32

def checkName (n : Text) : Except Fault Unit :=
  if n.isEmpty then .error .nameMissing
  else if n.any refused then .error (.nameRefused n)
  else .ok ()

def validate (s : Stage) : Except Fault Unit := do
  checkName s.name
  if s.commands.trim.isEmpty then throw (.noCommands s.name)

/-- Reads `name=commands`. -/
def parse (t : Text) : Except Fault Stage :=
  match Text.cut (Text.byte '=') t with
  | none => .error (.notAssignment t)
  | some (n, c) =>
    let n := n.trim
    let c := c.trim
    if n.isEmpty || c.isEmpty then .error (.notAssignment t)
    else do
      checkName n
      return ⟨n, c⟩

end Stage
end Regatta
