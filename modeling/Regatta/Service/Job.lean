import Regatta.Circuit.Collection
import Regatta.Log.Broker
import Regatta.Service.Request
import Regatta.Store.Ledger
import Regatta.Verification

/-! A run being carried out, from its record in the store to its end.

A run starts, gathers the figures of its circuit, is verified, and is recorded as completed, failed
or cancelled. Every line of tool output is kept in the store and passed on to listeners; every
result that the race looks at is kept too. -/
namespace Regatta

/-- What all runs share. -/
structure Desk where
  bench : Bench
  ledger : Ledger := ⟨{}, []⟩
  broker : Broker := .empty
  /-- The runs that can be cancelled. -/
  tracked : List Text := []
  collector : Circuit.Collector
  options : Verification.Options

namespace Desk

def note (d : Desk) (level : Log.Level) (message : Text) : Desk :=
  { d with bench := d.bench.note level message }

def count (d : Desk) (m : Metric) (n : Int := 1) : Desk := { d with bench := d.bench.count m n }

def now (d : Desk) : Instant := d.bench.now

def track (d : Desk) (id : Text) : Desk := { d with tracked := d.tracked ++ [id] }

def untrack (d : Desk) (id : Text) : Desk := { d with tracked := d.tracked.filter (· != id) }

/-- Changes the ledger, or notes that it refused. -/
def record (d : Desk) (complaint : Text) (r : Except StoreError Ledger) : Desk :=
  match r with
  | .ok ledger => { d with ledger }
  | .error _ => d.note .error complaint

end Desk

inductive RunError where
  | create (e : StoreError)
  | cancelledBeforeStart
  | start (e : StoreError)
  | cancelled (id : Text)
  | fault (id : Text) (f : Verification.Fault)
  | breakdown (id reason : Text)
deriving Repr

def RunError.message : RunError → Text
  | .create e => "create run: " ++ e.message
  | .cancelledBeforeStart => Verification.Fault.cancelled.message
  | .start e => "start run: " ++ e.message
  | .cancelled id => "run " ++ id ++ ": " ++ Verification.Fault.cancelled.message
  | .fault id f => "run " ++ id ++ ": " ++ f.message
  | .breakdown id r => "run " ++ id ++ " panicked: " ++ r

structure RunOutcome where
  id : Text
  stats : Option Stats := none
  result : EngineResult := .empty
  error : Option RunError := none

namespace Job

inductive Phase where
  | starting
  | collecting (c : Circuit.Collection)
  /-- The figures of the circuit are there, or known to be unknown. -/
  | collected (x : Circuit.Collected)
  | verifying (v : Verification)
  /-- What the verification came to is still to be recorded. -/
  | verified (o : Verification.Outcome)
  /-- The end is recorded, and nobody has been told yet. -/
  | leaving (o : RunOutcome)

end Job

structure Job where
  run : Run
  request : Request
  /-- Whether it was submitted, so that nobody waits for its outcome. -/
  submitted : Bool
  cancelled : Bool
  /-- When whoever asked for it gives up. -/
  cancelAt : Option Instant
  stats : Option Stats
  /-- How many lines and results were kept so far. -/
  lines : Int32
  results : Int32
  phase : Job.Phase

namespace Job

def new (run : Run) (request : Request) (submitted : Bool) (cancelAt : Option Instant) : Job :=
  ⟨run, request, submitted, false, cancelAt, none, 0, 0, .starting⟩

def id (j : Job) : Text := j.run.id

def stopped (j : Job) (d : Desk) : Bool := j.cancelled || d.bench.passed j.cancelAt

/-- The run as it is recorded in the end. Only a completed one keeps verdict, engine and elapsed
time. -/
def closing (j : Job) (now : Instant) (status : Status) (error : Text) : Run :=
  let run := { j.run with status, error, finishedAt := some now }
  if status == .completed then run
  else { run with verdict := .absent, engine := .none, elapsedMillis := none }

def finish (j : Job) (d : Desk) (status : Status) (error : Text) : Desk :=
  let run := j.closing d.now status error
  let d := d.record "failed to record finished run" (d.ledger.updateRun run)
  d.count (.run status.text run.verdict.text)

/-- Leaves: listeners hear the end, and the run can no longer be cancelled. -/
def leave (j : Job) (d : Desk) (o : RunOutcome) : Desk :=
  let d := { d with broker := d.broker.close j.id }
  let d := (d.untrack j.id).count .runsInFlight (-1)
  if j.submitted && o.error.isSome then d.note .warn "run failed" else d

/-- Records the end of a run that came to no answer. -/
def giveUp (j : Job) (d : Desk) (status : Status) (error : Text) (o : RunOutcome) : Desk × Job :=
  (j.finish d status error, { j with phase := .leaving o })

/-- Fails because the calling code broke down. -/
def breakDown (j : Job) (d : Desk) (reason : Text) : Desk × Job :=
  let e : RunError := .breakdown j.id reason
  j.giveUp (d.note .error "run panicked") .failed e.message
    { id := j.id, stats := j.stats, error := some e }

/-- Keeps a line and passes it on. -/
def keepLine (j : Job) (d : Desk) (source line : Text) : Job × Desk :=
  let tagged := source ++ ": " ++ line
  let d := d.note .debug "tool output"
  let d := d.record "failed to persist log line"
    (d.ledger.insertLine d.now j.id j.lines.toInt tagged)
  ({ j with lines := j.lines + 1 }, { d with broker := d.broker.publish j.id tagged })

def keepResult (j : Job) (d : Desk) (r : EngineResult) : Job × Desk :=
  ({ j with results := j.results + 1 },
    d.record "failed to persist engine result" (d.ledger.insertResult d.now j.id j.results.toInt r))

def keep (s : Job × Desk) : RaceEvent → Job × Desk
  | .line source text => s.1.keepLine s.2 source text
  | .result r => s.1.keepResult s.2 r

def answered (j : Job) (r : EngineResult) : Job :=
  { j with run := { j.run with
    verdict := r.verdict
    engine := r.engine
    elapsedMillis := r.elapsed.map Store.millis } }

/-- Records what the verification came to. -/
def conclude (j : Job) (d : Desk) : Verification.Outcome → Desk × Job
  | .breakdown reason => j.breakDown d reason
  | .answer result (some f) =>
    let out (e : RunError) : RunOutcome := { id := j.id, stats := j.stats, result, error := some e }
    if j.stopped d then j.giveUp d .cancelled "cancelled" (out (.cancelled j.id))
    else j.giveUp d .failed f.message (out (.fault j.id f))
  | .answer result none =>
    let j := j.answered result
    let d := (j.finish d .completed "").note .info "run finished"
    (d, { j with phase := .leaving { id := j.id, stats := j.stats, result } })

/-- Goes on with the verification, and keeps what it reports. -/
def verify (j : Job) (d : Desk) (v : Verification) : Desk × Job :=
  let (bench, events, p) := v.step d.bench (j.stopped d)
  let (j, d) := events.foldl keep (j, { d with bench })
  match p with
  | .going v => (d, { j with phase := .verifying v })
  | .ended o => (d, { j with phase := .verified o })

def verification (j : Job) : Verification.Request where
  id := j.id
  circuit := j.request.dataset
  stages := j.request.stages
  engines := j.request.engines.getD []
  budget := j.request.budget

def startVerification (j : Job) (d : Desk) : Desk × Job :=
  let (bench, p) := Verification.start d.bench d.options j.verification
  match p with
  | .going v => ({ d with bench }, { j with phase := .verifying v })
  | .ended o => ({ d with bench }, { j with phase := .verified o })

/-- Notes the figures of the circuit and goes on to verify it. -/
def collected (j : Job) (d : Desk) : Circuit.Collected → Desk × Job
  | .breakdown reason => j.breakDown d reason
  | .figures s =>
    let j := { j with stats := s, run := { j.run with
      inputs := s.map fun (x : Stats) => (x.inputs : Int)
      latches := s.map fun (x : Stats) => (x.latches : Int)
      ands := s.map fun (x : Stats) => (x.ands : Int) } }
    j.startVerification d

/-- Notes how far the gathering of figures has come. -/
def collect (j : Job) (d : Desk) (p : Bench × Progress Circuit.Collection Circuit.Collected) :
    Desk × Job :=
  match p with
  | (bench, .going c) => ({ d with bench }, { j with phase := .collecting c })
  | (bench, .ended x) => ({ d with bench }, { j with phase := .collected x })

/-- Starts the run, unless it was cancelled or the store does not let it. -/
def begin (j : Job) (d : Desk) : Desk × Job :=
  let d := d.count .runsInFlight
  if j.stopped d then
    j.giveUp d .cancelled "cancelled before start"
      { id := j.id, error := some .cancelledBeforeStart }
  else match d.ledger.updateStatus d.now j.id .running with
    | .error e =>
      let d := d.note .error "failed to transition to running"
      j.giveUp d .failed ("failed to start: " ++ e.message) { id := j.id, error := some (.start e) }
    | .ok ledger =>
      let d := { d with ledger }
      let j := { j with run := { j.run with status := .running, startedAt := some d.now } }
      let d := d.note .info "run started"
      j.collect d (Circuit.Collection.start d.bench d.collector j.request.dataset)

/-- What the run does up to now, as far as the next look at whether it was cancelled. -/
def step (j : Job) (d : Desk) : Desk × Progress Job RunOutcome :=
  let go (s : Desk × Job) : Desk × Progress Job RunOutcome := (s.1, .going s.2)
  match j.phase with
  | .starting => go (j.begin d)
  | .collecting c => go (j.collect d (c.advance d.bench (j.stopped d)))
  | .collected x => go (j.collected d x)
  | .verifying v => go (j.verify d v)
  | .verified o => go (j.conclude d o)
  | .leaving o => (j.leave d o, .ended o)

/-- How many steps at one instant a run can take. -/
def depth (j : Job) : Nat :=
  match j.phase with
  | .starting => j.request.stages.length + 7
  | .collecting _ => j.request.stages.length + 6
  | .collected _ => j.request.stages.length + 5
  | .verifying v => v.depth + 2
  | .verified _ => 2
  | .leaving _ => 1

/-- Steps until nothing more happens at this instant. -/
def settle : (fuel : Nat) → Job → Desk → Desk × Progress Job RunOutcome
  | 0, j, d => (d, .going j)
  | fuel + 1, j, d =>
    match j.step d with
    | (d, .ended o) => (d, .ended o)
    | (d, .going j') => if j'.depth < j.depth then settle fuel j' d else (d, .going j')

def advance (j : Job) (d : Desk) : Desk × Progress Job RunOutcome := settle j.depth j d

def wake (j : Job) (now : Instant) : Option Instant :=
  let work := match j.phase with
    | .starting => some now
    | .collecting c => c.wake now
    | .verifying v => v.wake now
    | .collected _ | .verified _ | .leaving _ => some now
  Instant.earlier work (j.cancelAt.filter (now < ·))

end Job
end Regatta
