import Regatta.Files.Tree
import Regatta.Store.Basic

/-! Where a store lives: in memory, or in a database file. -/
namespace Regatta.Store

/-- The path of a store that lives in memory and ends with it. -/
def inMemory : Text := ":memory:"

/-- What every database file starts with. -/
def magic : Text := Text.ofString "SQLite format 3" ++ [0]

inductive OpenFault where
  | unopenable
  | otherFormat
deriving Repr

def OpenFault.message : OpenFault → Text
  | .unopenable => "connect database: unable to open database file: out of memory (14)"
  | .otherFormat => "connect database: file is not a database (26)"

/-- The file that a path with parameters names. -/
def fileOf (path : Text) : Text :=
  match Text.cut (Text.byte '?') path with
  | some (front, _) => if front.isEmpty then path else front
  | none => path

/-- Whether a store can be opened at a path, and the files afterwards: a database file that is not
there yet is made. -/
def openable (t : FileTree) (path : Text) : Except OpenFault FileTree :=
  if path == inMemory then .ok t
  else
    let file := fileOf path
    match t.read file with
    | .ok content =>
      if content.isEmpty || magic.isPrefixOf content then .ok t else .error .otherFormat
    | .error .notFound =>
      match t.write file magic with
      | .ok t => .ok t
      | .error _ => .error .unopenable
    | .error _ => .error .unopenable

/-- A store that was closed and is opened again at its path: only a file keeps what it held. -/
def reopen (s : Store) (path : Text) : Store :=
  if path == inMemory then {} else { s with isOpen := true }

end Regatta.Store
