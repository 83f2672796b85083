import Regatta.Run
import Regatta.Store.Stamp

/-! The store: runs, the results of their engines and the lines of their output.

Rows keep engines, verdicts and times as text, so what is read back is decoded. A run is never
removed, and its status moves only along the edges that `Status.allows`. -/
namespace Regatta

structure RunRow where
  id : Text
  status : Text
  dataset : Text
  /-- Engine names, separated by commas. -/
  engines : Text
  timeoutSeconds : Int
  inputs : Option Int
  latches : Option Int
  ands : Option Int
  verdict : Text
  engine : Text
  elapsedMillis : Option Int
  error : Text
  createdAt : Text
  startedAt : Option Text
  finishedAt : Option Text
deriving DecidableEq, Repr, Inhabited

structure ResultRow where
  run : Text
  seq : Int
  engine : Text
  verdict : Text
  elapsedMillis : Option Int
  createdAt : Text
deriving DecidableEq, Repr, Inhabited

structure LineRow where
  id : Nat
  run : Text
  seq : Int
  line : Text
  createdAt : Text
deriving DecidableEq, Repr, Inhabited

structure Store where
  runs : List RunRow := []
  results : List ResultRow := []
  lines : List LineRow := []
  isOpen : Bool := true
deriving Repr, Inhabited

inductive StoreError where
  | notFound
  | invalidTransition (source target : Status)
  | duplicate
  /-- The store is closed; `action` says what was tried. -/
  | closed (action : Text)
  /-- The caller gave up; `action` says what was tried. -/
  | interrupted (action : Text)
  /-- A row holds something that cannot be read back. -/
  | undecodable (place : Text) (e : Engine.ParseError)
  | badTime (place column : Text)
  /-- The store refuses, for a reason of its own. -/
  | refused (reason : Text)
deriving Repr

def StoreError.message : StoreError → Text
  | .notFound => "run not found"
  | .invalidTransition a b => "invalid status transition: " ++ a.text ++ " → " ++ b.text
  | .duplicate => "insert run: constraint failed: UNIQUE constraint failed: runs.id (1555)"
  | .closed a => a ++ ": sql: database is closed"
  | .interrupted a => a ++ ": context canceled"
  | .undecodable p e => p ++ ": " ++ e.message
  | .badTime p c => p ++ ": sql: Scan error on column " ++ c
  | .refused r => r

namespace Store

def joinEngines (es : List Engine) : Text := Text.join "," (es.map Engine.name)

def splitEngines (t : Text) : Except Engine.ParseError (List Engine) :=
  if t.isEmpty then .ok [] else Engine.parseList (Text.splitOn (Text.byte ',') t)

def encode (r : Run) : RunRow where
  id := r.id
  status := r.status.text
  dataset := r.dataset
  engines := joinEngines (r.engines.getD [])
  timeoutSeconds := r.timeoutSeconds
  inputs := r.inputs
  latches := r.latches
  ands := r.ands
  verdict := r.verdict.text
  engine := r.engine.name
  elapsedMillis := r.elapsedMillis
  error := r.error
  createdAt := Stamp.ofInstant r.createdAt
  startedAt := r.startedAt.map Stamp.ofInstant
  finishedAt := r.finishedAt.map Stamp.ofInstant

def time (place column stamp : Text) : Except StoreError Instant :=
  match Stamp.toInstant? stamp with
  | some t => .ok t
  | none => .error (.badTime place column)

def time? (place column : Text) : Option Text → Except StoreError (Option Instant)
  | none => .ok none
  | some s => some <$> time place column s

/-- Reads a row back; `place` says what for. -/
def decode (place : Text) (r : RunRow) : Except StoreError Run := do
  let createdAt ← time place "created_at" r.createdAt
  let startedAt ← time? place "started_at" r.startedAt
  let finishedAt ← time? place "finished_at" r.finishedAt
  let here : Text := place ++ ": run " ++ r.id
  let engines ← (splitEngines r.engines).mapError (.undecodable here)
  let engine ← (Engine.ofText r.engine).mapError (.undecodable here)
  return {
    id := r.id, status := ⟨r.status⟩, dataset := r.dataset, engines := some engines
    timeoutSeconds := r.timeoutSeconds, inputs := r.inputs, latches := r.latches, ands := r.ands
    verdict := ⟨r.verdict⟩, engine, elapsedMillis := r.elapsedMillis, error := r.error
    createdAt, startedAt, finishedAt }

/-- Fails when the store is closed. -/
def need (s : Store) (action : Text) : Except StoreError Unit :=
  if s.isOpen then .ok () else .error (.closed action)

def row? (s : Store) (id : Text) : Option RunRow := s.runs.find? (·.id == id)

def createRun (s : Store) (r : Run) : Except StoreError Store := do
  s.need "insert run"
  if (s.row? r.id).isSome then throw .duplicate
  return { s with runs := s.runs ++ [encode r] }

def getRun (s : Store) (id : Text) : Except StoreError Run := do
  s.need "get run"
  match s.row? id with
  | none => throw .notFound
  | some r => decode "get run" r

/-- Whether a row comes before another in a list: newest first, then by id from the back. -/
def newer (a b : RunRow) : Bool :=
  if a.createdAt == b.createdAt then Text.le b.id a.id else Text.le b.createdAt a.createdAt

/-- A page of a list. A negative limit is no limit and a negative offset is zero. -/
def page (limit offset : Int) (xs : List α) : List α :=
  let xs := xs.drop offset.toNat
  if limit < 0 then xs else xs.take limit.toNat

/-- How many runs there are, and a page of them. -/
def listRuns (s : Store) (limit offset : Int) : Except StoreError (Nat × List Run) := do
  s.need "begin read tx"
  let rows := page limit offset (s.runs.mergeSort newer)
  return (s.runs.length, ← rows.mapM (decode "scan run"))

def replace (s : Store) (id : Text) (f : RunRow → RunRow) : Store :=
  { s with runs := s.runs.map fun r => if r.id == id then f r else r }

/-- A row with another status, and a note of when the run started or ended. -/
def move (now : Instant) (target : Status) (r : RunRow) : RunRow :=
  let stamp := Stamp.ofInstant now
  if target == .running then { r with status := target.text, startedAt := some stamp }
  else if target.terminal then { r with status := target.text, finishedAt := some stamp }
  else { r with status := target.text }

/-- Moves a run to another status, and notes when it started or ended. -/
def updateStatus (s : Store) (now : Instant) (id : Text) (target : Status) :
    Except StoreError Store := do
  s.need "begin tx"
  match s.row? id with
  | none => throw .notFound
  | some r =>
    unless Status.allows ⟨r.status⟩ target do throw (.invalidTransition ⟨r.status⟩ target)
    return s.replace id (move now target)

/-- A row with what can change about a run written over it. -/
def overwrite (run : Run) (r : RunRow) : RunRow :=
  let new := encode run
  { r with status := new.status, inputs := new.inputs, latches := new.latches
           ands := new.ands, verdict := new.verdict, engine := new.engine
           elapsedMillis := new.elapsedMillis, error := new.error
           startedAt := new.startedAt, finishedAt := new.finishedAt }

/-- Writes what can change about a run. Its status may stay as it is. -/
def updateRun (s : Store) (run : Run) : Except StoreError Store := do
  s.need "begin tx"
  match s.row? run.id with
  | none => throw .notFound
  | some r =>
    let current : Status := ⟨r.status⟩
    unless current == run.status || current.allows run.status do
      throw (.invalidTransition current run.status)
    return s.replace run.id (overwrite run)

/-- Whole milliseconds of a duration, rounded toward zero. -/
def millis (d : Duration) : Int := d.tdiv Duration.millisecond

def insertResult (s : Store) (now : Instant) (run : Text) (seq : Int) (r : EngineResult) :
    Except StoreError Store := do
  s.need "insert engine result"
  return { s with results := s.results ++
    [⟨run, seq, r.engine.name, r.verdict.text, r.elapsed.map millis, Stamp.ofInstant now⟩] }

def decodeResult (r : ResultRow) : Except StoreError ResultRecord := do
  let engine ← (Engine.ofText r.engine).mapError
    (.undecodable ("engine result " ++ Text.ofInt r.seq))
  return ⟨r.run, r.seq, engine, ⟨r.verdict⟩, r.elapsedMillis,
    ← time "scan engine result" "created_at" r.createdAt⟩

def getResults (s : Store) (run : Text) : Except StoreError (List ResultRecord) := do
  s.need "get engine results"
  let rows := (s.results.filter (·.run == run)).mergeSort fun a b => a.seq ≤ b.seq
  rows.mapM decodeResult

def insertLine (s : Store) (now : Instant) (run : Text) (seq : Int) (line : Text) :
    Except StoreError Store := do
  s.need "insert log line"
  return { s with lines := s.lines ++
    [⟨s.lines.length + 1, run, seq, line, Stamp.ofInstant now⟩] }

def getLines (s : Store) (run : Text) : Except StoreError (List LogLine) := do
  s.need "get log lines"
  let rows := (s.lines.filter (·.run == run)).mergeSort fun a b => a.seq ≤ b.seq
  rows.mapM fun r => do
    return ⟨r.id, r.run, r.seq, r.line, ← time "scan log line" "created_at" r.createdAt⟩

def close (s : Store) : Store := { s with isOpen := false }

end Store
end Regatta
