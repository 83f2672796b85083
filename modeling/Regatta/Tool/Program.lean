import Regatta.Settings
import Regatta.Tool.Invocation
import Regatta.Tool.Lookup

/-! Programs, and starting one as a process.

A process is started in a directory of its own, from which a relative path of the program is seen.
A program is a script: its first line names what interprets it. -/
namespace Regatta.Tool

inductive Exit where
  | code (n : Nat)
  | signal
deriving DecidableEq, Repr

/-- The code that a process is reported with. -/
def Exit.number : Exit → Int
  | .code n => n % 256
  | .signal => -1

/-- What a process does: the output it gives at once, its end, and its work on the files. -/
structure ProcessPlan where
  stdout : Text := ""
  stderr : Text := ""
  exit : Exit := .code 0
  /-- Whether it goes on until it is stopped. -/
  hangs : Bool := false
  /-- How long helpers of the process keep its streams open after its end. -/
  held : Duration := 0
  effect : FileTree → FileTree := id

/-- What is stored as a program: what a process does that is started with some arguments in a
directory. -/
abbrev Program := (arguments : List Text) → (directory : Location) → FileTree → ProcessPlan

/-- Where programs run: the search path, what can interpret a script, and what the programs do. -/
structure Machine where
  search : List Text
  interpreters : List Text
  program : Location → Program

inductive LaunchFault where
  | lookup (f : LookupFault)
  /-- Whoever asked for it had already given up. -/
  | cancelled
  | refused (path : Text) (e : FileError)
  /-- The file is no program. -/
  | format (path : Text)
deriving DecidableEq, Repr

def LaunchFault.message : LaunchFault → Text
  | .lookup f => f.message
  | .cancelled => "context canceled"
  | .refused path e => "fork/exec " ++ path ++ ": " ++ e.message
  | .format path => "fork/exec " ++ path ++ ": exec format error"

/-- The directory that a process starts in. -/
def startDirectory (t : FileTree) (path : Text) : Except FileError Location := do
  if path.isEmpty then return t.current
  match ← t.stat path with
  | .directory => t.locate path
  | .file _ _ => throw .notDirectory

/-- What interprets a script, from its first line. -/
def interpreter? (content : Text) : Option Text := do
  let line ← Text.stripPrefix? "#!" content
  let isBlank (b : UInt8) : Bool := b == 32 || b == 9
  let word := ((line.takeWhile (· != 10)).dropWhile isBlank).takeWhile fun b => !isBlank b
  if word.isEmpty then none else some word

/-- The place of the program at a path. -/
def Machine.load (m : Machine) (t : FileTree) (path : Text) : Except LaunchFault Location := do
  let refuse {α : Type} (e : FileError) : Except LaunchFault α := .error (.refused path e)
  match t.stat path, t.locate path with
  | .error e, _ | _, .error e => refuse e
  | .ok .directory, _ => refuse .denied
  | .ok (.file content executable), .ok l =>
    if !executable then refuse .denied
    else match interpreter? content with
      | none => .error (.format path)
      | some i =>
        if m.interpreters.contains i then .ok l
        else match checkProgram t i with
          | .error (.missing _ e) => refuse e
          | _ => refuse .denied

/-- The arguments that hand a script to the tool. -/
def scriptArguments (script : Text) : List Text := ["-c", script]

/-- Start the tool on a script. -/
def Machine.launch (m : Machine) (s : ToolSettings) (t : FileTree) (script : Text)
    (cancelled : Bool) : Except LaunchFault ProcessPlan := do
  let path ← if isPath s.binary then pure s.binary
    else match findProgram t m.search s.binary with
      | .ok p => pure p
      | .error f => throw (.lookup f)
  if cancelled then throw .cancelled
  if script.any (· == 0) then throw (.refused path .invalid)
  match startDirectory t s.workDirectory with
  | .error e => throw (.refused path e)
  | .ok directory =>
    let l ← m.load { t with current := directory } path
    return m.program l (scriptArguments script) directory t

end Regatta.Tool
