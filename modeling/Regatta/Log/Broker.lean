import Regatta.Text.Basic

/-! Live log lines, passed on to whoever listens to a run.

Each run has a topic. A topic remembers its last lines, so that a listener who joins late still sees
them, and forwards each new line to the listeners it has. A line is dropped for a listener whose
channel is full: publishing never waits. A closed topic stays closed. -/
namespace Regatta

/-- How many lines a topic remembers and a channel holds. -/
def backlog : Nat := 256

/-- The lines that wait for one listener. -/
structure Channel where
  waiting : List Text
  isOpen : Bool
deriving Inhabited

namespace Channel

/-- Adds a line when there is room. -/
def offer (c : Channel) (line : Text) : Channel :=
  if c.waiting.length < backlog then { c with waiting := c.waiting ++ [line] } else c

/-- What a reader gets who takes up to `limit` waiting lines, all of them without a limit: the lines,
and whether the end of a closed channel was seen. -/
def drain (c : Channel) (limit : Option Nat) : List Text × Bool × Channel :=
  match limit with
  | none => (c.waiting, !c.isOpen, { c with waiting := [] })
  | some n =>
    (c.waiting.take n, decide (c.waiting.length < n) && !c.isOpen,
      { c with waiting := c.waiting.drop n })

end Channel

structure Topic where
  /-- The listeners: the number given to each, and its channel. -/
  listeners : List (Nat × Nat)
  next : Nat
  recent : List Text
  closed : Bool
deriving Inhabited

def Topic.empty : Topic := ⟨[], 0, [], false⟩

/-- Adds a line to those remembered, and forgets the oldest when there are too many. -/
def Topic.remember (t : Topic) (line : Text) : Topic :=
  let kept := if t.recent.length == backlog then t.recent.drop 1 else t.recent
  { t with recent := kept ++ [line] }

structure Broker where
  topics : List (Text × Topic)
  /-- Every channel ever handed out, by its index. -/
  channels : Array Channel
deriving Inhabited

/-- What a listener holds: its channel, and its number in the topic unless that was closed. -/
structure Subscription where
  run : Text
  channel : Nat
  number : Option Nat
deriving Inhabited

namespace Broker

def empty : Broker := ⟨[], #[]⟩

def topic (b : Broker) (run : Text) : Topic := (b.topics.lookup run).getD .empty

def setTopic (b : Broker) (run : Text) (t : Topic) : Broker :=
  { b with topics := (run, t) :: b.topics.filter fun (r, _) => r != run }

def channel (b : Broker) (i : Nat) : Channel := (b.channels[i]?).getD ⟨[], false⟩

def updateChannel (b : Broker) (i : Nat) (f : Channel → Channel) : Broker :=
  { b with channels := b.channels.modify i f }

/-- Opens a channel that starts with the remembered lines. -/
def subscribe (b : Broker) (run : Text) : Broker × Subscription :=
  let t := b.topic run
  let i := b.channels.size
  if t.closed then
    ({ b with channels := b.channels.push ⟨[], false⟩ }, ⟨run, i, none⟩)
  else
    let b := { b with channels := b.channels.push ⟨t.recent, true⟩ }
    (b.setTopic run { t with listeners := t.listeners ++ [(t.next, i)], next := t.next + 1 },
      ⟨run, i, some t.next⟩)

/-- Takes the listener off its topic; its channel keeps the lines it has. -/
def unsubscribe (b : Broker) (s : Subscription) : Broker :=
  match s.number with
  | none => b
  | some n =>
    let t := b.topic s.run
    b.setTopic s.run { t with listeners := t.listeners.filter fun (m, _) => m != n }

def publish (b : Broker) (run line : Text) : Broker :=
  let t := b.topic run
  if t.closed then b
  else
    let b := b.setTopic run (t.remember line)
    t.listeners.foldl (fun b (_, i) => b.updateChannel i (·.offer line)) b

def close (b : Broker) (run : Text) : Broker :=
  let t := b.topic run
  let b := t.listeners.foldl (fun b (_, i) => b.updateChannel i ({ · with isOpen := false })) b
  b.setTopic run { t with closed := true, recent := [], listeners := [] }

def drain (b : Broker) (s : Subscription) (limit : Option Nat) : Broker × List Text × Bool :=
  let (lines, ended, c) := (b.channel s.channel).drain limit
  (b.updateChannel s.channel fun _ => c, lines, ended)

end Broker
end Regatta
