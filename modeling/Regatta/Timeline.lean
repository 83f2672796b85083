import Regatta.Circuit.Collection
import Regatta.Verification

/-! Playing something that goes on against the clock, until it comes to an end.

The clock jumps from one instant at which something happens to the next. The owner may cancel at a
given instant; from then on the work is told to stop. -/
namespace Regatta

/-- Something that goes on on a bench: what it does up to now, and when it next does something. -/
class Process (σ : Type) (ε ρ : outParam Type) where
  advance : σ → Bench → (stop : Bool) → Bench × List ε × Progress σ ρ
  wake : σ → (now : Instant) → Option Instant

instance : Process Worker Text EngineResult := ⟨Worker.advance, Worker.wake⟩

instance : Process Race RaceEvent EngineResult := ⟨Race.advance, Race.wake⟩

instance : Process Verification RaceEvent Verification.Outcome :=
  ⟨Verification.advance, Verification.wake⟩

instance : Process Circuit.Collection Empty Circuit.Collected where
  advance c b stop :=
    let (b, p) := c.advance b stop
    (b, [], p)
  wake := Circuit.Collection.wake

namespace Timeline

/-- What was seen and what came of it; nothing came of it when it would go on for ever. -/
structure Record (ε ρ : Type) where
  bench : Bench
  events : List ε
  result : Option ρ

/-- Plays until the end, instant by instant; `none` when there is no last instant. -/
def play [Process σ ε ρ] (cancelAt : Option Instant) (b : Bench) (seen : List ε) (s : σ) :
    Option (Record ε ρ) :=
  match Process.advance s b (b.passed cancelAt) with
  | (b, events, .ended r) => some ⟨b, (events.reverse ++ seen).reverse, some r⟩
  | (b, events, .going s) =>
    match Instant.next b.now [Process.wake s b.now, cancelAt] with
    | none => some ⟨b, (events.reverse ++ seen).reverse, none⟩
    | some t => (play cancelAt (s := s)) { b with now := t } (events.reverse ++ seen)
partial_fixpoint

def complete [Process σ ε ρ] (cancelAt : Option Instant) :
    Bench × Progress σ ρ → Record ε ρ
  | (b, .ended r) => ⟨b, [], some r⟩
  | (b, .going s) => (play cancelAt b [] s).getD ⟨b, [], none⟩

end Timeline

def Worker.run (b : Bench) (id circuit : Text) (budget : Duration) (e : Engine)
    (cancelAt : Option Instant) : Timeline.Record Text EngineResult :=
  let (b, w) := Worker.start b id circuit budget e
  Timeline.complete cancelAt (b, .going w)

def Race.run (b : Bench) (id circuit : Text) (budget : Duration) (engines : List Engine)
    (cancelAt : Option Instant) : Timeline.Record RaceEvent EngineResult :=
  Timeline.complete cancelAt (Race.start b id circuit budget engines)

def Verification.run (b : Bench) (o : Verification.Options) (r : Verification.Request)
    (cancelAt : Option Instant) : Timeline.Record RaceEvent Verification.Outcome :=
  Timeline.complete cancelAt (Verification.start b o r)

def Circuit.Collection.run (b : Bench) (c : Circuit.Collector) (circuit : Text)
    (cancelAt : Option Instant) : Timeline.Record Empty Circuit.Collected :=
  Timeline.complete cancelAt (Circuit.Collection.start b c circuit)

end Regatta
