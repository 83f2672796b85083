import Regatta.Engine
import Regatta.Json.Value

/-! The verification tools that are known by name, and what each can do. -/
namespace Regatta

structure Capabilities where
  name : Text
  binary : Text
  workDirectory : Text
  engines : Option (List Text)
deriving Repr, Inhabited

def Capabilities.toJson (c : Capabilities) : Json :=
  .object [
    Json.field "name" c.name,
    Json.field "binary" c.binary,
    Json.field "work_dir" c.workDirectory,
    Json.field "engines" (Json.ofOption (fun es => .array (es.map Json.string)) c.engines)]

/-- The tool's name where none is given. -/
def Capabilities.defaultName : Text := "abc"

/-- What the external tool offers: every engine. -/
def Capabilities.ofTool (binary workDirectory : Text) : Capabilities :=
  ⟨defaultName, if binary.isEmpty then defaultName else binary, workDirectory,
    some (Engine.all.map Engine.name)⟩

/-- Tools in the order of their names. -/
structure Registry where
  entries : List (Text × Capabilities)
deriving Inhabited

namespace Registry

def empty : Registry := ⟨[]⟩

inductive Fault where
  | unregistered (name : Text)

def Fault.message : Fault → Text
  | .unregistered n => "backend " ++ Text.quoted n ++ " is not registered"

/-- A later registration replaces an earlier one of the same name. -/
def register (r : Registry) (name : Text) (c : Capabilities) : Registry :=
  let others := r.entries.filter fun (n, _) => n != name
  let before := others.takeWhile fun (n, _) => Text.le n name
  ⟨before ++ (name, c) :: others.drop before.length⟩

def resolve (r : Registry) (name : Text) : Except Fault Capabilities :=
  let name := if name.isEmpty then Capabilities.defaultName else name
  match r.entries.lookup name with
  | some c => .ok c
  | none => .error (.unregistered name)

def toJson (r : Registry) : Json :=
  .array <| r.entries.map fun (n, c) =>
    .object [Json.field "name" n, Json.field "capabilities" c.toJson]

end Registry
end Regatta
