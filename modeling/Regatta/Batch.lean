import Regatta.Report.Row
import Regatta.Service.Runner
import Regatta.Workspace

/-! Batches: many datasets, a few at a time, one row of a report for each.

Datasets are started in order as soon as fewer than the given number are under way. The rows are in
the order of the datasets, whatever order they end in. -/
namespace Regatta

inductive Execution where
  | answered (stats : Option Stats) (result : EngineResult)
  | failed (stats : Option Stats)
  /-- The calling code broke down. -/
  | breakdown
deriving Inhabited

/-- Something that carries out datasets against a clock. A started dataset is known by its ticket. -/
structure Executor (κ : Type) where
  start : κ → (dataset : Text) → κ × Nat
  poll : κ → (ticket : Nat) → Option Execution
  /-- Lets happen what can happen at this instant. -/
  settle : κ → κ
  wake : κ → Option Instant
  setNow : κ → Instant → κ
  note : κ → Log.Level → Text → κ

structure Batch where
  waiting : List (Nat × Text)
  /-- Datasets under way: position, name and ticket. -/
  running : List (Nat × Text × Nat)
  rows : List (Nat × Row)

namespace Batch

def ofDatasets (ds : List Text) : Batch := ⟨ds.zipIdx.map fun (d, i) => (i, d), [], []⟩

def isOver (b : Batch) : Bool := b.waiting.isEmpty && b.running.isEmpty

/-- The row of a dataset that has ended, and the note about it. -/
def row (dataset : Text) : Execution → Row × Log.Level × Text
  | .answered stats r => (.ofResult dataset stats r, .info, "dataset finished")
  | .failed stats => (.ofFailure dataset stats, .error, "dataset failed")
  | .breakdown => (.ofFailure dataset none, .error, "dataset panicked")

variable {κ : Type} (e : Executor κ)

/-- Keeps a dataset under way, unless it has ended. -/
def collectOne (s : κ × Batch) (x : Nat × Text × Nat) : κ × Batch :=
  match e.poll s.1 x.2.2 with
  | none => (s.1, { s.2 with running := s.2.running ++ [x] })
  | some ended =>
    let (r, level, message) := row x.2.1 ended
    (e.note s.1 level message, { s.2 with rows := s.2.rows ++ [(x.1, r)] })

def collect (s : κ × Batch) : κ × Batch :=
  s.2.running.foldl (collectOne e) (s.1, { s.2 with running := [] })

def launch (s : κ × Batch) (x : Nat × Text) : κ × Batch :=
  let (k, t) := e.start (e.note s.1 .info "running dataset") x.2
  (k, { s.2 with running := s.2.running ++ [(x.1, x.2, t)] })

/-- Starts datasets while fewer than `parallel` are under way. -/
def fill (parallel : Nat) (s : κ × Batch) : κ × Batch :=
  let room := parallel - s.2.running.length
  (s.2.waiting.take room).foldl (launch e) (s.1, { s.2 with waiting := s.2.waiting.drop room })

/-- One round at an instant: what has ended makes room for what waits. -/
def round (parallel : Nat) (s : κ × Batch) : κ × Batch :=
  let (k, b) := fill e parallel (collect e s)
  (e.settle k, b)

def ready (s : κ × Batch) : Bool := s.2.running.any fun (_, _, t) => (e.poll s.1 t).isSome

/-- Rounds until all datasets have ended; `none` when there is no last round. -/
def play (parallel : Nat) (s : κ × Batch) : Option (κ × Batch) :=
  let s := round e parallel s
  if s.2.isOver then some s
  else if ready e s then (play (s := s)) parallel
  else match e.wake s.1 with
    | none => some s
    | some t => (play (s := (e.settle (e.setNow s.1 t), s.2))) parallel
partial_fixpoint

def sortedRows (b : Batch) : List Row :=
  (b.rows.mergeSort fun a b => a.1 ≤ b.1).map (·.2)

/-- Carries out all datasets; fewer than one at a time counts as one. -/
def run (k : κ) (parallel : Int) (datasets : List Text) : κ × List Row :=
  let start := (k, ofDatasets datasets)
  let (k, b) := (play e (max 1 parallel).toNat start).getD start
  (k, b.sortedRows)

/-- The executor that runs each dataset with the same request. -/
def onRunner (request : Text → Request) (cancelAt : Option Instant) : Executor Runner where
  start r d :=
    let ticket := r.issued
    ((r.begin (request d) cancelAt).1, ticket)
  poll r t := (r.outcome? (r.newId t)).map fun o =>
    match o.error with
    | some _ => .failed o.stats
    | none => .answered o.stats o.result
  settle := Runner.settle
  wake := Runner.wake
  setNow := Runner.setNow
  note r level message := { r with desk := r.desk.note level message }

/-- Datasets under way whose ends are known in advance. -/
structure Rehearsal where
  bench : Bench
  /-- When each started dataset ends, and with what. -/
  started : Array (Instant × Execution)

inductive Fault where
  | workspace (f : Workspace.Fault)
  | interrupted

def Fault.message : Fault → Text
  | .workspace f => "prepare workspace: " ++ f.message
  | .interrupted => "batch interrupted: " ++ Verification.Fault.cancelled.message

structure Report (κ : Type) where
  executor : κ
  rows : List Row
  fault : Option Fault
  /-- How often the tool was tidied up. -/
  cleanups : Nat

/-- Carries out a batch: empties its work directory first, if it has one, and tidies up at the end.
`bench` and `setBench` give access to the bench of the executor; `cleanup`, where there is one,
says whether tidying up works. -/
def carryOut (bench : κ → Bench) (setBench : κ → Bench → κ) (k : κ) (workDirectory : Text)
    (cancelAt : Option Instant) (cleanup : Option (Bench → Bench × Bool)) (parallel : Int)
    (datasets : List Text) : Report κ :=
  let (files, obstacle) :=
    if workDirectory.isEmpty then ((bench k).files, none)
    else Workspace.reset (bench k).files workDirectory
  let k := setBench k { bench k with files }
  match obstacle with
  | some f => ⟨k, [], some (.workspace f), 0⟩
  | none =>
    let (k, rows) := run e k parallel datasets
    let fault := if (bench k).passed cancelAt then some .interrupted else none
    match cleanup with
    | none => ⟨k, rows, fault, 0⟩
    | some tidy =>
      let (b, ok) := tidy (bench k)
      ⟨setBench k (if ok then b else b.note .warn "cleanup failed"), rows, fault, 1⟩

end Batch
end Regatta
