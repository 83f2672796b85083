import Regatta.Bench
import Regatta.EngineResult

/-! One engine at work on a circuit within its budget of time. -/
namespace Regatta

structure Worker where
  engine : Engine
  started : Instant
  budget : Duration
  deadline : Option Instant
  activity : Activity

namespace Worker

def start (b : Bench) (id circuit : Text) (budget : Duration) (e : Engine) : Bench × Worker :=
  let deadline := b.deadline budget
  let (b', a) := b.call (.engine id (b.absolute circuit) e)
  (b', ⟨e, b.now, budget, deadline, a⟩)

def isLate (w : Worker) (now : Instant) : Bool := w.deadline.any (· ≤ now)

/-- What the engine's answer amounts to. `stop` says that its result is no longer wanted: then an
unfinished call is not a timeout. -/
def judge (w : Worker) (now : Instant) (stop : Bool) (e : Ending) : EngineResult :=
  match e with
  | .done output => ⟨.classify output, w.engine, some (now - w.started)⟩
  | .breakdown _ => ⟨.unknown, w.engine, some (now - w.started)⟩
  | _ =>
    if !stop && w.isLate now then ⟨.timeout, w.engine, some w.budget⟩
    else ⟨.unknown, w.engine, some (now - w.started)⟩

/-- Notes how the call came back. A failure is worth a warning unless the engine was stopped. -/
def note (w : Worker) (b : Bench) (stop : Bool) (e : Ending) : Bench :=
  match e with
  | .breakdown _ => b.note .error "engine worker panicked"
  | .done _ => b.note .debug "engine output"
  | _ =>
    let b := b.note .debug "engine output"
    if stop || w.isLate b.now then b else b.note .warn "engine invocation failed"

/-- Everything the engine does up to now: the lines it emits, and how it stands then. -/
def advance (w : Worker) (b : Bench) (stop : Bool) :
    Bench × List Text × Progress Worker EngineResult :=
  match w.activity.advance b.now (stop || w.isLate b.now) with
  | (lines, .going a) => (b, lines, .going { w with activity := a })
  | (lines, .ended r) =>
    let result := w.judge b.now stop r.ending
    let b := w.note { b with files := r.closing b.files } stop r.ending
    (b.count (.engineResult w.engine.name result.verdict.text), lines, .ended result)

def wake (w : Worker) (now : Instant) : Option Instant :=
  Instant.next now [w.activity.wake, w.deadline]

end Worker
end Regatta
