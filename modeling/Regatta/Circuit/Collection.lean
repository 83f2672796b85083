import Regatta.Bench
import Regatta.Circuit.Inspect

/-! Gathering the figures of a circuit, by asking the tool or by reading the file. -/
namespace Regatta.Circuit

/-- What comes of it: figures if they are known, unless it broke down. -/
inductive Collected where
  | figures (s : Option Stats)
  | breakdown (reason : Text)

/-- Where a setting says the figures come from. Unknown settings ask the tool. -/
structure Collector where
  source : Text
  budget : Duration

/-- A question to the tool that is under way. -/
structure Collection where
  circuit : Text
  /-- Whether the file is read when the tool does not know. -/
  fallback : Bool
  deadline : Option Instant
  activity : Activity

namespace Collection

def native (b : Bench) (circuit : Text) : Bench × Collected :=
  match inspect b.files circuit with
  | .ok s => (b, .figures (some s))
  | .error f =>
    if f.isBreakdown then (b, .breakdown ("runtime error: " ++ Aiger.Fault.breakdown.message))
    else (b.note .warn "native stats failed", .figures none)

def start (b : Bench) (c : Collector) (circuit : Text) : Bench × Progress Collection Collected :=
  let circuit := b.absolute circuit
  if c.source == Stats.Source.native.name then
    let (b, r) := native b circuit
    (b, .ended r)
  else
    let deadline := b.deadline c.budget
    let (b, a) := b.call (.stats circuit)
    (b, .going ⟨circuit, c.source == Stats.Source.auto.name, deadline, a⟩)

/-- What the tool's answer amounts to. -/
def judge (c : Collection) (b : Bench) : Ending → Bench × Collected
  | .breakdown r => (b, .breakdown r)
  | .done output =>
    match Stats.extract output with
    | some s => (b, .figures (some s))
    | none => otherwise (b.note .warn "no stats line in tool output")
  | _ => otherwise (b.note .warn "stats invocation failed")
where
  otherwise (b : Bench) : Bench × Collected :=
    if c.fallback then native b c.circuit else (b, .figures none)

def advance (c : Collection) (b : Bench) (stop : Bool) : Bench × Progress Collection Collected :=
  match c.activity.advance b.now (stop || b.passed c.deadline) with
  | (_, .going a) => (b, .going { c with activity := a })
  | (_, .ended r) =>
    let (b, x) := c.judge { b with files := r.closing b.files } r.ending
    (b, .ended x)

def wake (c : Collection) (now : Instant) : Option Instant :=
  Instant.next now [c.activity.wake, c.deadline]

end Collection
end Regatta.Circuit
