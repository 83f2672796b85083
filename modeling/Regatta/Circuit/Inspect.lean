import Regatta.Circuit.Aiger
import Regatta.Files.Tree

/-! The figures of a circuit file, read from the file itself. -/
namespace Regatta.Circuit

inductive InspectFault where
  | unopened (path : Text) (e : FileError)
  | directory (path : Text)
  | tooShort (path : Text)
  | otherFormat (path header : Text)
  | malformed (path : Text) (f : Aiger.Fault)
deriving Repr

namespace InspectFault

def message : InspectFault → Text
  | .unopened p e => "open circuit: open " ++ p ++ ": " ++ e.message
  | .directory p => "read circuit header " ++ p ++ ": read " ++ p ++ ": is a directory"
  | .tooShort p => "read circuit header " ++ p ++ ": EOF"
  | .otherFormat p h => p ++ ": not an AIGER file (header " ++ Text.quoted h ++ ")"
  | .malformed p f => "parse circuit " ++ p ++ ": " ++ f.message

/-- Whether reading broke down instead of reporting what is wrong. -/
def isBreakdown : InspectFault → Bool
  | .malformed _ .breakdown => true
  | _ => false

def isMissing : InspectFault → Bool
  | .unopened _ .notFound => true
  | _ => false

end InspectFault

def inspect (t : FileTree) (path : Text) : Except InspectFault Stats :=
  match t.read path with
  | .error .isDirectory => .error (.directory path)
  | .error e => .error (.unopened path e)
  | .ok content =>
    match Aiger.stats content with
    | .ok s => .ok s
    | .error .tooShort => .error (.tooShort path)
    | .error (.otherFormat h) => .error (.otherFormat path h)
    | .error (.content f) => .error (.malformed path f)

end Regatta.Circuit
