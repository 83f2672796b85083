import Regatta.Text.Blank

/-! Scripts for the external tool: commands separated by semicolons. -/
namespace Regatta.Script

/-- The commands as one script. Each is trimmed and blank ones are left out. -/
def ofCommands (commands : List Text) : Text :=
  Text.join "; " ((commands.map Text.trim).filter (!·.isEmpty))

/-- The commands of a script as the tool understands it. -/
def commands (script : Text) : List Text :=
  ((Text.splitOn (Text.byte ';') script).map Text.trim).filter (!·.isEmpty)

end Regatta.Script
