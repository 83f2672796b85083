import Regatta.EngineResult
import Regatta.Status
import Regatta.Time.Instant

/-! Runs: requests to verify a circuit, with what became of them. -/
namespace Regatta

structure Run where
  id : Text
  status : Status
  dataset : Text
  /-- The engines asked for; `none` when the request named no list at all. -/
  engines : Option (List Engine)
  timeoutSeconds : Int
  inputs : Option Int
  latches : Option Int
  ands : Option Int
  verdict : Verdict
  engine : Engine
  elapsedMillis : Option Int
  error : Text
  createdAt : Instant
  startedAt : Option Instant
  finishedAt : Option Instant
deriving DecidableEq, Repr, Inhabited

namespace Run

/-- How many characters the id of a run has. -/
def idLength : Nat := 26

/-- A member that is left out when the text is blank. -/
private def unlessBlank (name : String) (t : Text) : List (Text × Json) :=
  if t.isEmpty then [] else [Json.field name t]

def engineNames (es : List Engine) : Json := .array (es.map fun e => .string e.name)

def toJson (r : Run) : Json :=
  .object <|
    [Json.field "id" r.id, Json.field "status" r.status.text, Json.field "dataset" r.dataset,
      Json.field "engines" (Json.ofOption engineNames r.engines),
      Json.field "timeout_s" (Json.ofInt r.timeoutSeconds)] ++
    Json.optional "inputs" Json.ofInt r.inputs ++
    Json.optional "latches" Json.ofInt r.latches ++
    Json.optional "ands" Json.ofInt r.ands ++
    unlessBlank "verdict" r.verdict.text ++
    [Json.field "engine" r.engine.name] ++
    Json.optional "elapsed_ms" Json.ofInt r.elapsedMillis ++
    unlessBlank "error" r.error ++
    [Json.field "created_at" r.createdAt.rfc3339] ++
    Json.optional "started_at" (fun t => .string t.rfc3339) r.startedAt ++
    Json.optional "finished_at" (fun t => .string t.rfc3339) r.finishedAt

end Run

/-- A line of output that was kept for a run. -/
structure LogLine where
  id : Nat
  run : Text
  seq : Int
  line : Text
  createdAt : Instant
deriving DecidableEq, Repr, Inhabited

def LogLine.toJson (l : LogLine) : Json :=
  .object [Json.field "id" (Json.ofNat l.id), Json.field "run_id" l.run,
    Json.field "seq" (Json.ofInt l.seq), Json.field "line" l.line,
    Json.field "created_at" l.createdAt.rfc3339]

/-- An engine's result that was kept for a run. -/
structure ResultRecord where
  run : Text
  seq : Int
  engine : Engine
  verdict : Verdict
  elapsedMillis : Option Int
  createdAt : Instant
deriving DecidableEq, Repr, Inhabited

def ResultRecord.toJson (r : ResultRecord) : Json :=
  .object <|
    [Json.field "run_id" r.run, Json.field "seq" (Json.ofInt r.seq),
      Json.field "engine" r.engine.name, Json.field "verdict" r.verdict.text] ++
    Json.optional "elapsed_ms" Json.ofInt r.elapsedMillis ++
    [Json.field "created_at" r.createdAt.rfc3339]

end Regatta
