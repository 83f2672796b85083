import Regatta.Engine
import Regatta.Script

/-! Calls of the external tool: a script of commands, and a label that says what it is for. -/
namespace Regatta

structure Invocation where
  /-- The run that the call belongs to; blank when it belongs to none. -/
  id : Text
  /-- The engine's name, the stage's name, or `stats`. -/
  label : Text
  commands : List Text
deriving DecidableEq, Repr, Inhabited

namespace Invocation

def script (i : Invocation) : Text := Script.ofCommands i.commands

/-- The file that the first command reads. -/
def source? (i : Invocation) : Option Text := i.commands.head? >>= Text.stripPrefix? "read "

/-- The file that the last command writes. -/
def target? (i : Invocation) : Option Text := i.commands.getLast? >>= Text.stripPrefix? "write "

def engineCommands (circuit : Text) (e : Engine) : List Text :=
  ["read " ++ circuit, e.name, "print_stats"]

def engine (id circuit : Text) (e : Engine) : Invocation :=
  ⟨id, e.name, engineCommands circuit e⟩

/-- Asks for the figures of a circuit. -/
def stats (circuit : Text) : Invocation := ⟨"", "stats", ["read " ++ circuit, "print_stats"]⟩

/-- Applies transformation commands to one file and writes another. -/
def transform (id name commands source target : Text) : Invocation :=
  ⟨id, name, ["read " ++ source, commands, "write " ++ target]⟩

end Invocation
end Regatta
