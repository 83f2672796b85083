import Regatta.EngineResult

/-! Where the results of a race go.

Each engine sends its one result into a queue. The owner of the race receives results in the order
in which they were sent, until one of them is conclusive or all have come. The queue is closed when
every engine has returned, and what is left in it then is drained. -/
namespace Regatta

structure Exchange where
  /-- How many results the queue has room for. -/
  room : Nat
  /-- Results that were sent and not received, in the order of their arrival. -/
  queue : List EngineResult
  isOpen : Bool
  /-- How many results the owner would still receive. -/
  due : Nat
  winner : Option EngineResult
deriving DecidableEq, Repr

namespace Exchange

/-- The exchange of a race of so many engines: there is room for all their results. -/
def ofCount (engines : Nat) : Exchange := ⟨engines, [], true, engines, none⟩

/-- Sends a result; `none` when the sender has to wait for room. -/
def send? (x : Exchange) (r : EngineResult) : Option Exchange :=
  if x.isOpen && decide (x.queue.length < x.room) then some { x with queue := x.queue ++ [r] }
  else none

/-- Sends results one after the other, as far as there is room. Gives those that have to wait. -/
def sendAll (x : Exchange) : List EngineResult → Exchange × List EngineResult
  | [] => (x, [])
  | r :: rest =>
    match x.send? r with
    | some x => x.sendAll rest
    | none => (x, r :: rest)

/-- Whether the owner looks for further results. -/
def watches (x : Exchange) : Bool := x.winner.isNone && x.due != 0

/-- The owner looks at a result, with `rest` behind it in the queue. -/
def look (x : Exchange) (r : EngineResult) (rest : List EngineResult) : Exchange :=
  { x with
    queue := rest
    due := x.due - 1
    winner := if r.verdict.conclusive then some r else none }

/-- The owner receives a result and looks at it; `none` when there is none, or no need for one. -/
def receive? (x : Exchange) : Option (EngineResult × Exchange) :=
  match x.watches, x.queue with
  | true, r :: rest => some (r, x.look r rest)
  | _, _ => none

def receiveUpTo : (count : Nat) → Exchange → List EngineResult × Exchange
  | 0, x => ([], x)
  | count + 1, x =>
    match x.receive? with
    | none => ([], x)
    | some (r, x) =>
      let (rest, x) := receiveUpTo count x
      (r :: rest, x)

/-- Receives until nothing more is there to be received. -/
def receiveAll (x : Exchange) : List EngineResult × Exchange := receiveUpTo x.queue.length x

def close (x : Exchange) : Exchange := { x with isOpen := false }

/-- Takes a result out of a closed queue without looking at it. -/
def drain? (x : Exchange) : Option (EngineResult × Exchange) :=
  match x.isOpen, x.queue with
  | false, r :: rest => some (r, { x with queue := rest })
  | _, _ => none

def outcome (x : Exchange) : EngineResult := x.winner.getD .inconclusive

end Exchange
end Regatta
