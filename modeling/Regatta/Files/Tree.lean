import Regatta.Files.Path

/-! A tree of files and directories, without symbolic links.

Entries are keyed by the list of names that leads to them from the root, which itself is always
there. Operations that fail leave the tree as it was, but for the directories that were made on the
way to one that cannot be made. -/
namespace Regatta

inductive FileEntry where
  | file (content : Text) (executable : Bool)
  | directory
deriving DecidableEq, Repr, Inhabited

inductive FileError where
  | notFound
  | notDirectory
  | isDirectory
  | exists
  | notEmpty
  | denied
  | invalid
  | nameTooLong
deriving DecidableEq, Repr

def FileError.message : FileError → Text
  | .notFound => "no such file or directory"
  | .notDirectory => "not a directory"
  | .isDirectory => "is a directory"
  | .exists => "file exists"
  | .notEmpty => "directory not empty"
  | .denied => "permission denied"
  | .invalid => "invalid argument"
  | .nameTooLong => "file name too long"

/-- Names from the root down. -/
abbrev Location := List Text

structure FileTree where
  current : Location
  entries : List (Location × FileEntry)
deriving Repr, Inhabited

namespace FileTree

def lookup (t : FileTree) (l : Location) : Option FileEntry :=
  if l.isEmpty then some .directory else t.entries.lookup l

def isDirectory (t : FileTree) (l : Location) : Bool := t.lookup l == some .directory

def currentText (t : FileTree) : Text := "/" ++ Text.join "/" t.current

def insert (t : FileTree) (l : Location) (e : FileEntry) : FileTree :=
  { t with entries := (l, e) :: t.entries.filter (fun (k, _) => k != l) }

def erase (t : FileTree) (l : Location) : FileTree :=
  { t with entries := t.entries.filter fun (k, _) => !l.isPrefixOf k }

def hasChildren (t : FileTree) (l : Location) : Bool :=
  t.entries.any fun (k, _) => l.isPrefixOf k && k != l

/-- Takes away everything below a location, which itself stays. -/
def eraseBelow (t : FileTree) (l : Location) : FileTree :=
  { t with entries := t.entries.filter fun (k, _) => !(l.isPrefixOf k && k != l) }

/-- The longest name, in bytes. -/
def maxName : Nat := 255

/-- Follows the parts of a path. All but the last must lead through directories. -/
def walk (t : FileTree) (at_ : Location) : List Text → Except FileError Location
  | [] => .ok at_
  | c :: rest =>
    match t.lookup at_ with
    | none => .error .notFound
    | some (.file _ _) => .error .notDirectory
    | some .directory =>
      if maxName < c.length then .error .nameTooLong
      else if c == ".." then walk t at_.dropLast rest
      else walk t (at_ ++ [c]) rest

/-- The place that a path names; nothing needs to be there. No path has a zero byte. -/
def locate (t : FileTree) (p : Text) : Except FileError Location :=
  if p.isEmpty then .error .notFound
  else if p.any (· == 0) then .error .invalid
  else do
    let start := if Path.isAbsolute p then [] else t.current
    let l ← t.walk start (Path.parts p)
    -- A path that ends in a slash asks for a directory.
    if p.getLast? == some Path.slash then
      match t.lookup l with
      | some (.file _ _) => throw .notDirectory
      | _ => return l
    else return l

def stat (t : FileTree) (p : Text) : Except FileError FileEntry := do
  let l ← t.locate p
  match t.lookup l with
  | some e => .ok e
  | none => .error .notFound

/-- The content of a file. A directory can be opened but not read. -/
def read (t : FileTree) (p : Text) : Except FileError Text := do
  match ← t.stat p with
  | .file c _ => .ok c
  | .directory => .error .isDirectory

def write (t : FileTree) (p : Text) (content : Text) : Except FileError FileTree := do
  let l ← t.locate p
  match t.lookup l with
  | some .directory => .error .isDirectory
  | some (.file _ x) => .ok (t.insert l (.file content x))
  | none =>
    if t.isDirectory l.dropLast then .ok (t.insert l (.file content false))
    else match t.lookup l.dropLast with
      | none => .error .notFound
      | _ => .error .notDirectory

/-- Why nothing can be given this name. -/
def misnamed? (c : Text) : Option FileError :=
  if c.any (· == 0) then some .invalid
  else if maxName < c.length then some .nameTooLong
  else none

/-- Creates the directories on the way to a location that are missing, up to the first that cannot be
made. On the way up there is nothing to create. Gives the files as they are then, and on failure the
parts of the path so far with the reason. -/
def makeAlong (t : FileTree) (at_ : Location) (passed : List Text) :
    List Text → FileTree × Option (List Text × FileError)
  | [] => (t, none)
  | c :: rest =>
    if c == ".." then makeAlong t at_.dropLast (passed ++ [c]) rest
    else match misnamed? c with
      | some e => (t, some (passed ++ [c], e))
      | none =>
        let l := at_ ++ [c]
        match t.lookup l with
        | some .directory => makeAlong t l (passed ++ [c]) rest
        | some (.file _ _) => (t, some (passed ++ [c], .notDirectory))
        | none => makeAlong (t.insert l .directory) l (passed ++ [c]) rest

/-- Creates a directory and its missing parents. A failure gives the path that could not be made. -/
def makeAll (t : FileTree) (p : Text) : FileTree × Option (Text × FileError) :=
  let rooted := Path.isAbsolute p
  let (t, failure) := t.makeAlong (if rooted then [] else t.current) [] (Path.parts p)
  (t, failure.map fun (cs, e) => (if rooted then "/" ++ Text.join "/" cs else Text.join "/" cs, e))

/-- Removes what a path names, with everything below it. A path to nothing is fine. -/
def removeAll (t : FileTree) (p : Text) : Except FileError FileTree :=
  if p.isEmpty then .ok t
  else match t.locate p with
    | .ok l => .ok (t.erase l)
    | .error .notFound => .ok t
    | .error e => .error e

/-- Removes one file or empty directory. -/
def remove (t : FileTree) (p : Text) : Except FileError FileTree := do
  let l ← t.locate p
  match t.lookup l with
  | none => .error .notFound
  | some .directory => if t.hasChildren l then .error .notEmpty else .ok (t.erase l)
  | some (.file _ _) => .ok (t.erase l)

/-- The path of a location below the current directory, directories with a trailing slash. -/
private def listed (t : FileTree) : Location × FileEntry → Option Text
  | (k, e) =>
    if t.current.isPrefixOf k && k != t.current then
      let p := Text.join "/" (k.drop t.current.length)
      some (match e with | .directory => p ++ "/" | _ => p)
    else none

/-- All paths below the current directory, in bytewise order. -/
def listing (t : FileTree) : List Text := Text.sort (t.entries.filterMap (listed t))

end FileTree
end Regatta
