import Regatta.Files.Tree
import Regatta.Text.Quoted

/-! Finding the program of a tool. -/
namespace Regatta.Tool

inductive PathFault where
  | missing (path : Text) (e : FileError)
  | directory
  | denied
deriving DecidableEq, Repr

def PathFault.message : PathFault → Text
  | .missing path e => "stat " ++ path ++ ": " ++ e.message
  | .directory => FileError.isDirectory.message
  | .denied => FileError.denied.message

/-- A program is a file that can be run. -/
def checkProgram (t : FileTree) (path : Text) : Except PathFault Unit :=
  match t.stat path with
  | .error e => .error (.missing path e)
  | .ok .directory => .error .directory
  | .ok (.file _ executable) => if executable then .ok () else .error .denied

def isProgram (t : FileTree) (path : Text) : Bool := (checkProgram t path).toBool

inductive LookupFault where
  | path (name : Text) (f : PathFault)
  /-- No directory of the search path has it. -/
  | unknown (name : Text)
deriving DecidableEq, Repr

def LookupFault.message : LookupFault → Text
  | .path name f => "exec: " ++ Text.quoted name ++ ": " ++ f.message
  | .unknown name => "exec: " ++ Text.quoted name ++ ": executable file not found in $PATH"

/-- Whether a name is a path, and not to be looked for. -/
def isPath (name : Text) : Bool := name.any (· == Path.slash)

/-- The path of a program. A name with a slash is a path itself; others are looked for in the
directories of the search path. -/
def findProgram (t : FileTree) (search : List Text) (name : Text) : Except LookupFault Text :=
  if isPath name then
    match checkProgram t name with
    | .ok _ => .ok name
    | .error f => .error (.path name f)
  else if name.isEmpty then .error (.unknown name)
  else
    match (search.map fun d => Path.join [if d.isEmpty then "." else d, name]).find? (isProgram t) with
    | some p => .ok p
    | none => .error (.unknown name)

end Regatta.Tool
