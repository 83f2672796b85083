import Regatta.Files.Tree
import Regatta.Service.Request

/-! Requests for a run as they are sent in: a JSON object. -/
namespace Regatta.Api

/-- What a sender may leave out. -/
structure Defaults where
  engines : Option (List Engine)
  budget : Duration
  stages : List Stage
deriving Inhabited

structure Submission where
  dataset : Text := ""
  engines : List Text := []
  seconds : Option Double := none
  stages : Option (List Stage) := none
  noTransform : Bool := false

namespace Submission

/-- Longest body that is read, in bytes. -/
def bodyLimit : Nat := Number.twoTo 20

private def setText (old : Text) : Json → Option Text
  | .string t => some t
  | .null => some old
  | _ => none

def setStage (old : Stage) : Json → Option Stage
  | .null => some old
  | .object ms => ms.foldlM (fun s (k, v) =>
      let k := Json.foldKey k
      if k == "name" then (setText s.name v).map fun name => { s with name }
      else if k == "commands" then (setText s.commands v).map fun commands => { s with commands }
      else some s) old
  | _ => none

/-- Sets the items of a list one by one, starting from the old items in their places. -/
private def setItems (set : α → Json → Option α) (blank : α) : List α → List Json → Option (List α)
  | _, [] => some []
  | [], j :: rest => do return (← set blank j) :: (← setItems set blank [] rest)
  | old :: olds, j :: rest => do return (← set old j) :: (← setItems set blank olds rest)

def setField (s : Submission) (key : Text) (v : Json) : Option Submission :=
  let k := Json.foldKey key
  if k == "dataset" then (setText s.dataset v).map fun dataset => { s with dataset }
  else if k == "engines" then
    match v with
    | .null => some { s with engines := [] }
    | .array xs => (setItems setText "" s.engines xs).map fun engines => { s with engines }
    | _ => none
  else if k == "timeout_s" then
    match v with
    | .null => some { s with seconds := none }
    | .number l => (Json.double? l).map fun x => { s with seconds := some x }
    | _ => none
  else if k == "stages" then
    match v with
    | .null => some { s with stages := none }
    | .array xs =>
      (setItems setStage ⟨"", ""⟩ (s.stages.getD []) xs).map fun x => { s with stages := some x }
    | _ => none
  else if k == "no_transform" then
    match v with
    | .null => some s
    | .bool b => some { s with noTransform := b }
    | _ => none
  else some s

/-- Reads the first value of a body. Keys may be in any letter case, and others are ignored. -/
def ofBody (body : Text) : Option Submission := do
  let (v, _) ← Json.parseFirst (body.take bodyLimit)
  match v with
  | .null => some {}
  | .object ms => ms.foldlM (fun s (k, v) => s.setField k v) {}
  | _ => none

inductive Fault where
  | noDataset
  | unreadable (path : Text)
  | engines (e : Engine.ParseError)
  | noEngines
  | timeout
  | stage (f : Stage.Fault)

def Fault.message : Fault → Text
  | .noDataset => "dataset is required"
  | .unreadable p => "dataset is not readable: " ++ p
  | .engines e => e.message
  | .noEngines => "at least one engine is required"
  | .timeout => "timeout_s must be positive"
  | .stage f => f.message

/-- Seconds as a duration, cut off to whole nanoseconds. Where there is no such duration the least
one stands for it. -/
def budget (seconds : Double) : Duration :=
  match (seconds.mul (.ofInt Duration.second)).truncate? with
  | some n => if Number.fitsWord n then n else Number.leastWord
  | none => Number.leastWord

def isPositive (x : Double) : Bool := !x.isNegative && !x.isZero

def checkDataset (s : Submission) (files : FileTree) : Except Fault Unit :=
  if s.dataset.isEmpty then .error .noDataset
  else match files.stat s.dataset with
    | .error _ => .error (.unreadable s.dataset)
    | .ok _ => .ok ()

def chosenEngines (s : Submission) (d : Defaults) : Except Fault (Option (List Engine)) := do
  let engines ← if s.engines.isEmpty then pure d.engines
    else (Engine.parseList s.engines).mapError .engines |>.map some
  if (engines.getD []).isEmpty then throw .noEngines
  return engines

def chosenBudget (s : Submission) (d : Defaults) : Except Fault Duration :=
  match s.seconds with
  | none => .ok d.budget
  | some x => if isPositive x then .ok (budget x) else .error .timeout

def chosenStages (s : Submission) (d : Defaults) : Except Fault (List Stage) := do
  if s.noTransform then return []
  match s.stages with
  | none => return d.stages
  | some ss =>
    for st in ss do st.validate.mapError .stage
    return ss

def toRequest (s : Submission) (files : FileTree) (d : Defaults) : Except Fault Request := do
  s.checkDataset files
  let engines ← s.chosenEngines d
  let budget ← s.chosenBudget d
  let stages ← s.chosenStages d
  return ⟨s.dataset, engines, budget, stages⟩

end Submission
end Regatta.Api
