import Regatta.Files.Tree
import Regatta.Settings

/-! Tidying up after the external tool, which leaves a history of its commands behind. -/
namespace Regatta.Tool

structure CleanupFault where
  path : Text
  error : FileError

def CleanupFault.message (f : CleanupFault) : Text :=
  "remove history file: remove " ++ f.path ++ ": " ++ f.error.message

/-- Removes the history file; there need not be one. -/
def cleanup (t : FileTree) (s : ToolSettings) : Except CleanupFault FileTree :=
  let path := Path.join [s.workDirectory, s.historyFile]
  match t.remove path with
  | .ok t => .ok t
  | .error .notFound => .ok t
  | .error e => .error ⟨path, e⟩

end Regatta.Tool
