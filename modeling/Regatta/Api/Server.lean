import Regatta.Api.Route
import Regatta.Api.Submission
import Regatta.Http.Cors
import Regatta.Http.EventStream
import Regatta.Http.Target
import Regatta.Service.Runner
import Regatta.Settings
import Regatta.Tool.Lookup
import Regatta.Tool.Registry

/-! The web interface over a runner.

Most requests are answered at once. A request for the log of a run that has not ended is a stream:
it stays open, passes lines on as they are published, and ends with the run or when the client goes
away. -/
namespace Regatta.Api

/-- An answer that may still grow. -/
structure Stream where
  request : Http.Request
  pattern : Text
  response : Http.Response
  /-- Where its lines come from, while it is open. -/
  subscription : Option Subscription

def Stream.isOpen (s : Stream) : Bool := s.subscription.isSome

structure Server where
  runner : Runner
  defaults : Defaults
  registry : Registry
  /-- The directories in which programs are looked for. -/
  search : List Text
  streams : Array Stream

namespace Server

def desk (s : Server) : Desk := s.runner.desk

def ledger (s : Server) : Ledger := s.desk.ledger

def setDesk (s : Server) (desk : Desk) : Server := { s with runner := { s.runner with desk } }

def note (s : Server) (level : Log.Level) (message : Text) : Server :=
  s.setDesk (s.desk.note level message)

def count (s : Server) (name : String) (labels : List (Text × Text)) (n : Int := 1) : Server :=
  s.setDesk (s.desk.count ⟨name, labels⟩ n)

/-! ### Answers -/

def json (status : Nat) (j : Json) : Http.Response :=
  ⟨status, [("Content-Type", "application/json")], j.render ++ "\n"⟩

def complaint (status : Nat) (message : Text) : Http.Response :=
  json status (.object [Json.field "error" message])

def notFound : Http.Response :=
  ⟨404, [("Content-Type", "text/plain; charset=utf-8"), ("X-Content-Type-Options", "nosniff")],
    "404 page not found\n"⟩

def methodNotAllowed (allowed : List Text) : Http.Response :=
  ⟨405, allowed.map fun m => (Text.ofString "Allow", m), ""⟩

/-- The form in which counts are read by monitoring; the counts themselves are kept elsewhere. -/
def metricsPage : Http.Response :=
  ⟨200, [("Content-Type", "text/plain; version=0.0.4; charset=utf-8; escaping=underscores")], ""⟩

/-! ### Resources -/

def health (s : Server) : Http.Response :=
  let tools := s.registry.entries.map fun (name, c) =>
    (name, c.binary, (Tool.findProgram s.desk.bench.files s.search c.binary).toBool)
  let ok := tools.all fun (_, _, found) => found
  json (if ok then 200 else 503) <| .object [
    Json.field "status" (if ok then "ok" else "degraded" : String),
    Json.field "active_runs" (Json.ofNat s.runner.active),
    Json.field "tools" (.array (tools.map fun (name, binary, found) => .object [
      Json.field "backend" name, Json.field "binary" binary, Json.field "found" (.bool found)]))]

def engines (s : Server) : Http.Response :=
  let isDefault (e : Engine) : Bool := (s.defaults.engines.getD []).contains e
  json 200 <| .object [
    Json.field "engines" (.array (Engine.all.map fun e => .object [
      Json.field "name" e.name, Json.field "command" e.name,
      Json.field "default" (.bool (isDefault e))])),
    Json.field "backends" s.registry.toJson]

def stats (s : Server) : Server × Http.Response :=
  match s.ledger.stats with
  | .ok x => (s, json 200 x.toJson)
  | .error _ => (s.note .error "get run stats", complaint 500 "failed to get stats")

def submissions (s : Server) (outcome : Text) : Server :=
  s.count "aigrace_http_run_submissions_total" [("outcome", outcome)]

def create (s : Server) (body : Text) : Server × Http.Response :=
  match Submission.ofBody body with
  | none => (s.submissions "invalid", complaint 400 "invalid JSON body")
  | some x =>
    match x.toRequest s.desk.bench.files s.defaults with
    | .error f => (s.submissions "invalid", complaint 400 f.message)
    | .ok request =>
      match s.runner.submit request with
      | (runner, .ok run) =>
        ({ s with runner }.submissions "accepted", json 202 run.toJson)
      | (runner, .error .closed) =>
        ({ s with runner }.submissions "unavailable", complaint 503 "server is shutting down")
      | (runner, .error (.create _)) =>
        let s := { s with runner }.submissions "error"
        (s.note .error "submit run", complaint 500 "failed to submit run")

/-- How many runs a page has unless the request says so, and at most. -/
def pageSize : Int := 20
def maxPageSize : Int := 100

def number (r : Http.Request) (name : String) (default : Int) : Int :=
  ((Http.Target.parameter r.target (Text.ofString name)).toInt?).getD default

def list (s : Server) (r : Http.Request) : Server × Http.Response :=
  let limit := number r "limit" pageSize
  let limit := if limit ≤ 0 || maxPageSize < limit then pageSize else limit
  let offset := max 0 (number r "offset" 0)
  match s.ledger.listRuns limit offset with
  | .error _ => (s.note .error "list runs", complaint 500 "failed to list runs")
  | .ok (total, runs) =>
    (s, json 200 (.object [Json.field "runs" (.array (runs.map Run.toJson)),
      Json.field "total" (Json.ofNat total), Json.field "limit" (Json.ofInt limit),
      Json.field "offset" (Json.ofInt offset)]))

def withRun (s : Server) (id : Text) (f : Run → Server × Http.Response) : Server × Http.Response :=
  match s.ledger.getRun id with
  | .ok run => f run
  | .error .notFound => (s, complaint 404 "run not found")
  | .error _ => (s.note .error "get run", complaint 500 "failed to get run")

def results (s : Server) (id : Text) : Server × Http.Response :=
  match s.ledger.getResults id with
  | .ok rs => (s, json 200 (.object [Json.field "run_id" id,
      Json.field "results" (.array (rs.map ResultRecord.toJson))]))
  | .error _ => (s.note .error "get engine results", complaint 500 "failed to get results")

def timeText (t : Instant) : Text := (t - t.fmod Duration.second).rfc3339

def history (s : Server) (id : Text) : Server × Http.Response :=
  match s.ledger.getLines id with
  | .ok ls => (s, json 200 (.object [Json.field "run_id" id,
      Json.field "lines" (.array (ls.map fun l => .object [
        Json.field "seq" (Json.ofInt l.seq), Json.field "line" l.line,
        Json.field "created_at" (timeText l.createdAt)]))]))
  | .error _ => (s.note .error "get log lines", complaint 500 "failed to get log lines")

def cancel (s : Server) (run : Run) : Server × Http.Response :=
  match s.runner.cancel run.id with
  | none => (s, complaint 409 "run is not active")
  | some runner => ({ s with runner }.note .info "run cancel requested", json 202 run.toJson)

def streamHeaders : Http.Headers :=
  [("Content-Type", "text/event-stream"), ("Cache-Control", "no-cache"),
    ("Connection", "keep-alive")]

def countStreams (s : Server) (n : Int) : Server := s.count "aigrace_http_log_streams_active" [] n

/-- Answers a request for a log: at once when the run has ended, else with a subscription. -/
def logs (s : Server) (id : Text) : Server × Http.Response × Option Subscription :=
  match s.ledger.getRun id with
  | .error .notFound => (s, complaint 404 "run not found", none)
  | .error _ => (s.note .error "get run", complaint 500 "failed to get run", none)
  | .ok run =>
    if run.status.terminal then (s, ⟨200, streamHeaders, Http.EventStream.done⟩, none)
    else
      let s := s.note .error "set write deadline for SSE"
      let (broker, sub) := s.desk.broker.subscribe id
      let s := (s.setDesk { s.desk with broker }).countStreams 1
      (s, ⟨200, streamHeaders, ""⟩, some sub)

def resource (s : Server) (r : Http.Request) :
    Route → Server × Http.Response × Option Subscription
  | .health => (s, s.health, none)
  | .metrics => (s, metricsPage, none)
  | .engines => (s, s.engines, none)
  | .stats => plain s.stats
  | .runs => plain (if r.method == "POST" then s.create r.body else s.list r)
  | .run id => plain (s.withRun id fun run =>
      if r.method == "DELETE" then s.cancel run else (s, json 200 run.toJson))
  | .results id => plain (s.withRun id fun _ => s.results id)
  | .history id => plain (s.withRun id fun _ => s.history id)
  | .logs id => s.logs id
where
  plain : Server × Http.Response → Server × Http.Response × Option Subscription
    | (s, a) => (s, a, none)

/-! ### Requests -/

def finish (s : Server) (r : Http.Request) (pattern : Text) (status : Nat) : Server :=
  let s := s.count "aigrace_http_requests_total"
    [("method", r.method), ("path", pattern), ("status", Text.ofNat status)]
  let s := s.count "aigrace_http_request_duration_seconds" [("method", r.method), ("path", pattern)]
  s.note .info "request"

/-- Takes a request. The answer is a stream, which is closed already unless it waits for lines. -/
def receive (s : Server) (r : Http.Request) : Server × Stream :=
  if Http.Cors.isPreflight r then
    let a : Http.Response := ⟨200, Http.Cors.preflight r, ""⟩
    (s.finish r Routed.unmatched 200, ⟨r, Routed.unmatched, a, none⟩)
  else
    let routed := Routed.ofPath r.method (Http.Target.routePath r.target)
    let (s, a, sub) := match routed with
      | .found route => s.resource r route
      | .methodNotAllowed allowed _ => (s, methodNotAllowed allowed, none)
      | .notFound _ => (s, notFound, none)
    let a := { a with headers := Http.Cors.actual r ++ a.headers }
    let s := if sub.isSome then s else s.finish r routed.pattern a.status
    (s, ⟨r, routed.pattern, a, sub⟩)

def openStream (s : Server) (r : Http.Request) : Server × Nat :=
  let (s, x) := s.receive r
  ({ s with streams := s.streams.push x }, s.streams.size)

def endStream (s : Server) (x : Stream) (sub : Subscription) : Server × Stream :=
  let s := s.setDesk { s.desk with broker := s.desk.broker.unsubscribe sub }
  let s := (s.countStreams (-1)).finish x.request x.pattern x.response.status
  (s, { x with subscription := none })

/-- Passes on the lines that wait for a stream, and ends it when there will be no more. -/
def pump (s : Server) (x : Stream) : Server × Stream :=
  match x.subscription with
  | none => (s, x)
  | some sub =>
    let (broker, lines, ended) := s.desk.broker.drain sub none
    let s := s.setDesk { s.desk with broker }
    let more := lines.flatMap Http.EventStream.data ++ if ended then Http.EventStream.done else []
    let x := { x with response := { x.response with body := x.response.body ++ more } }
    if ended then s.endStream x sub else (s, x)

def pumpAll (s : Server) : Server :=
  let (s, xs) := s.streams.foldl (fun (s, xs) x =>
    let (s, x) := s.pump x
    (s, xs.push x)) (s, #[])
  { s with streams := xs }

/-- The client of a stream goes away. -/
def hangUp (s : Server) (i : Nat) : Server :=
  match s.streams[i]? with
  | some x =>
    match x.subscription with
    | some sub =>
      let (s, x) := s.endStream x sub
      { s with streams := s.streams.set! i x }
    | none => s
  | none => s

end Server
end Regatta.Api
