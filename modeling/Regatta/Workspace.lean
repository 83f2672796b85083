import Regatta.Files.Tree
import Regatta.Text.Quoted

/-! Resetting a working directory: whatever the path names is removed, and an empty directory
takes its place. -/
namespace Regatta.Workspace

inductive Fault where
  | missing
  | refused (path : Text)
  /-- What is to be removed is in a place that cannot be opened. -/
  | unopened (directory : Text) (e : FileError)
  | notRemoved (path : Text) (e : FileError)
  | notCreated (path : Text) (e : FileError)
deriving DecidableEq, Repr

def Fault.message : Fault → Text
  | .missing => "workspace directory is required"
  | .refused p => "refusing to reset " ++ p.quoted
  | .unopened d e => "remove workspace: open " ++ d ++ ": " ++ e.message
  | .notRemoved p e =>
    "remove workspace: unlinkat " ++ Path.directory p ++ "/" ++ Path.base p ++ ": " ++ e.message
  | .notCreated p e => "create workspace: mkdir " ++ p ++ ": " ++ e.message

/-- Whether the last part of a path is a step up. -/
def endsUp (p : Text) : Bool := (Path.parts p).getLast? == some ".."

/-- Removes what is at a path, with everything below it. A directory that is named by a step up
cannot be removed by that name, but that shows only when everything below it is gone. -/
def clear (t : FileTree) (p : Text) : FileTree × Option Fault :=
  match t.locate p with
  | .ok l =>
    if endsUp p then (t.eraseBelow l, some (.notRemoved p .notEmpty)) else (t.erase l, none)
  | .error .notFound => (t, none)
  | .error e =>
    match t.locate (Path.directory p) with
    | .ok _ => (t, some (.notRemoved p e))
    | .error e => (t, some (.unopened (Path.directory p) e))

/-- Removes what is at the cleaned path and creates an empty directory there. The root and the
current directory are refused by their cleaned spelling. Gives the files as they are then, and the
reason if it failed. -/
def reset (t : FileTree) (path : Text) : FileTree × Option Fault :=
  if path.isEmpty then (t, some .missing)
  else
    let p := Path.clean path
    if p == "/" || p == "." then (t, some (.refused path))
    else match clear t p with
      | (t, some f) => (t, some f)
      | (t, none) =>
        match t.makeAll p with
        | (t, none) => (t, none)
        | (t, some (p, e)) => (t, some (.notCreated p e))

end Regatta.Workspace
