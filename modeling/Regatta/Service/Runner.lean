import Regatta.Service.Job

/-! The runner: takes requests, carries out many runs side by side, and stops them on demand.

A submitted run goes on in the background; an executed one is waited for. After a shutdown nothing
more is taken in, and every run that was submitted has ended. -/
namespace Regatta

structure Runner where
  desk : Desk
  jobs : List Job := []
  /-- Outcomes of executed runs, by their ids. -/
  outcomes : List (Text × RunOutcome) := []
  closed : Bool := false
  /-- The ids of new runs, by how many were given out before. -/
  newId : Nat → Text
  issued : Nat := 0

namespace Runner

inductive SubmitError where
  | closed
  | create (e : StoreError)

def SubmitError.message : SubmitError → Text
  | .closed => "runner is shut down"
  | .create e => "create run: " ++ e.message

def now (r : Runner) : Instant := r.desk.bench.now

def isActive (r : Runner) (id : Text) : Bool := r.desk.tracked.contains id

def active (r : Runner) : Nat := r.desk.tracked.length

/-- Tells the jobs that `which` picks to stop. -/
def stop (r : Runner) (which : Job → Bool) : Runner :=
  { r with jobs := r.jobs.map fun j => if which j then { j with cancelled := true } else j }

/-- Tells a run to stop; `none` when it is not active. -/
def cancel (r : Runner) (id : Text) : Option Runner :=
  if r.isActive id then some (r.stop (·.id == id)) else none

def cancelAll (r : Runner) : Runner := r.stop fun j => r.isActive j.id

/-- Takes a run in, to be carried out in the background. -/
def submit (r : Runner) (request : Request) : Runner × Except SubmitError Run :=
  if r.closed then (r, .error .closed)
  else
    let request := request.complete
    let run := request.newRun (r.newId r.issued) r.now
    let r := { r with issued := r.issued + 1 }
    match r.desk.ledger.createRun false run with
    | .error e => (r, .error (.create e))
    | .ok ledger =>
      let job := Job.new run request true none
      ({ r with desk := { r.desk with ledger }.track run.id, jobs := r.jobs ++ [job] }, .ok run)

/-- Takes a run in that is waited for. Gives its id; without a job there is an outcome already. -/
def begin (r : Runner) (request : Request) (cancelAt : Option Instant) : Runner × Text :=
  let request := request.complete
  let id := r.newId r.issued
  let run := request.newRun id r.now
  let r := { r with issued := r.issued + 1 }
  match r.desk.ledger.createRun (r.desk.bench.passed cancelAt) run with
  | .error e =>
    ({ r with outcomes := r.outcomes ++ [(id, { id, error := some (.create e) })] }, id)
  | .ok ledger =>
    let job := Job.new run request false cancelAt
    ({ r with desk := { r.desk with ledger }.track id, jobs := r.jobs ++ [job] }, id)

def advanceJobs (d : Desk) : List Job → Desk × List Job × List RunOutcome
  | [] => (d, [], [])
  | j :: rest =>
    let (d, p) := j.advance d
    let (d, going, ended) := advanceJobs d rest
    match p with
    | .going j => (d, j :: going, ended)
    | .ended o => (d, going, if j.submitted then ended else o :: ended)

def settle (r : Runner) : Runner :=
  let (desk, jobs, ended) := advanceJobs r.desk r.jobs
  { r with desk, jobs, outcomes := r.outcomes ++ ended.map fun o => (o.id, o) }

def wake (r : Runner) : Option Instant := (r.jobs.map (·.wake r.now)).foldl Instant.earlier none

def setNow (r : Runner) (t : Instant) : Runner :=
  { r with desk := { r.desk with bench := { r.desk.bench with now := t } } }

/-- The outcome of an executed run that has ended. -/
def outcome? (r : Runner) (id : Text) : Option RunOutcome := r.outcomes.lookup id

/-- Whether no submitted run is under way. -/
def idle (r : Runner) : Bool := !r.jobs.any (·.submitted)

/-- Takes no more requests and tells every run to stop. -/
def closeDown (r : Runner) : Runner := { r.cancelAll with closed := true }

end Runner
end Regatta
