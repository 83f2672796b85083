import Regatta.Api.Server

/-! Letting time pass for a server: the clock jumps from one event to the next, and at each instant
everything that can happen does. -/
namespace Regatta.Api.Server

def settle (s : Server) : Server := { s with runner := s.runner.settle }.pumpAll

def now (s : Server) : Instant := s.runner.now

def setNow (s : Server) (t : Instant) : Server := { s with runner := s.runner.setNow t }

/-- Lets time pass until `goal` holds, at most `fuel` events or until nothing more happens. -/
def runUntil (goal : Server → Bool) : (fuel : Nat) → Server → Server
  | 0, s => s
  | fuel + 1, s =>
    if goal s then s
    else match s.runner.wake with
      | none => s
      | some t => runUntil goal fuel (s.setNow t).settle

/-- More events than a session has. -/
def horizon : Nat := 1000000

def sleepUntil (target : Instant) : (fuel : Nat) → Server → Server
  | 0, s => (s.setNow target).settle
  | fuel + 1, s =>
    match s.runner.wake with
    | some t => if t ≤ target then sleepUntil target fuel (s.setNow t).settle
        else (s.setNow target).settle
    | none => (s.setNow target).settle

def sleep (s : Server) (d : Duration) : Server := sleepUntil (s.now + d) horizon s

def wait (s : Server) : Server := runUntil (·.runner.idle) horizon s

/-- Takes no more requests, stops every run and waits for their ends. -/
def shutdown (s : Server) : Server := ({ s with runner := s.runner.closeDown }.settle).wait

def execute (s : Server) (r : Request) (cancelAt : Option Instant) : Server × Option RunOutcome :=
  let (runner, id) := s.runner.begin r cancelAt
  let s := runUntil (fun s => (s.runner.outcome? id).isSome) horizon { s with runner }.settle
  (s, s.runner.outcome? id)

def respond (s : Server) (r : Http.Request) : Server × Http.Response :=
  let (s, i) := s.openStream r
  let complete (s : Server) : Bool := !(s.streams[i]?.any Stream.isOpen)
  let s := if complete s then s else runUntil complete horizon s.settle
  let answer := (s.streams[i]?.map Stream.response).getD ⟨0, [], ""⟩
  ({ s with streams := s.streams.extract 0 i }, answer)

end Regatta.Api.Server
