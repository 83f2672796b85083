import Regatta.Race.Exchange
import Regatta.Race.Worker

/-! A race: all engines start at once on one circuit, and the first conclusive result wins.

Results are taken in the order in which they arrive. Once one is conclusive the engines that still
run are told to stop; the race is over when all have returned. -/
namespace Regatta

/-- What a race lets its owner see while it runs. -/
inductive RaceEvent where
  | line (source text : Text)
  | result (r : EngineResult)
deriving Repr

structure Race where
  id : Text
  running : List Worker
  /-- Results of engines that wait for room in the queue. -/
  held : List EngineResult
  exchange : Exchange

namespace Race

def startWorkers (b : Bench) (id circuit : Text) (budget : Duration) :
    List Engine → Bench × List Worker
  | [] => (b, [])
  | e :: rest =>
    let (b, w) := Worker.start b id circuit budget e
    let (b, ws) := startWorkers b id circuit budget rest
    (b, w :: ws)

/-- Starts every engine. Without engines there is no race, and nothing is decided. -/
def start (b : Bench) (id circuit : Text) (budget : Duration) (engines : List Engine) :
    Bench × Progress Race EngineResult :=
  if engines.isEmpty then (b, .ended .inconclusive)
  else
    let (b, ws) := startWorkers b id circuit budget engines
    (b, .going ⟨id, ws, [], .ofCount engines.length⟩)

/-- Lets every running engine do what it does up to now. Gives the lines, the results they return
with and the engines that go on. -/
def advanceWorkers (b : Bench) (stop : Bool) :
    List Worker → Bench × List RaceEvent × List EngineResult × List Worker
  | [] => (b, [], [], [])
  | w :: rest =>
    let (b, lines, p) := w.advance b stop
    let (b, events, results, going) := advanceWorkers b stop rest
    let events := lines.map (RaceEvent.line w.engine.name) ++ events
    match p with
    | .going w => (b, events, results, w :: going)
    | .ended r => (b, events, r :: results, going)

def outcome (r : Race) : EngineResult := r.exchange.outcome

/-- Whether every engine has returned and sent its result. -/
def isOver (r : Race) : Bool := r.running.isEmpty && r.held.isEmpty

/-- Notes the results that nobody looked at, and the outcome. -/
def conclude (r : Race) (b : Bench) : Bench :=
  let b := r.exchange.queue.foldl (fun b _ => b.note .debug "engine cancelled") b
  let b := b.count (.race r.outcome.verdict.text)
  if r.outcome.engine.runnable then b.count (.raceWin r.outcome.engine.name) else b

/-- Lets the engines go on, and receives what they send. -/
def step (r : Race) (b : Bench) (stop : Bool) : Bench × List RaceEvent × Race :=
  let (b, lines, results, running) := advanceWorkers b (stop || !r.exchange.watches) r.running
  let (exchange, held) := r.exchange.sendAll (r.held ++ results)
  let (received, exchange) := exchange.receiveAll
  (received.foldl (fun b _ => b.note .info "engine finished") b,
    lines ++ received.map .result, { r with running, held, exchange })

/-- Steps, and steps again when the race comes to be decided, so that the engines that still run are
told to stop. -/
def proceed (r : Race) (b : Bench) (stop : Bool) : Bench × List RaceEvent × Race :=
  let (b, events, r') := r.step b stop
  if r.exchange.watches && !r'.exchange.watches then
    let (b, more, r') := r'.step b stop
    (b, events ++ more, r')
  else (b, events, r')

def advance (r : Race) (b : Bench) (stop : Bool) :
    Bench × List RaceEvent × Progress Race EngineResult :=
  let (b, events, r) := r.proceed b stop
  if r.isOver then (r.conclude b, events, .ended r.outcome) else (b, events, .going r)

def wake (r : Race) (now : Instant) : Option Instant :=
  (r.running.map (·.wake now)).foldl Instant.earlier none

end Race
end Regatta
