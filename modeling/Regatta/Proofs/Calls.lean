import Regatta.Proofs.Bench
import Regatta.Proofs.Race.Course

/-! Calls in flight.

A call is in flight from the moment it is made until it comes back. The calls that a step finds in
flight and those it makes are the ones that come back in it and the ones that it leaves in flight:
`step_balanced` says so of a verification, `advance_balanced` of the gathering of figures. So nothing
that was called is lost sight of. -/
namespace Regatta

open Bench (Works)

def Progress.ends {σ ρ : Type} : Progress σ ρ → Nat
  | .going _ => 0
  | .ended _ => 1

namespace Race

def stepReturns (r : Race) (now : Instant) (stop : Bool) : Nat :=
  (returning r.running now (r.orders stop)).length

def returns (r : Race) (b : Bench) (stop : Bool) : Nat :=
  r.stepReturns b.now stop +
    if r.exchange.watches && !(r.step b stop).2.2.exchange.watches then
      (r.step b stop).2.2.stepReturns b.now stop
    else 0

theorem step_balanced (r : Race) (b : Bench) (stop : Bool) :
    (r.step b stop).2.2.running.length + r.stepReturns b.now stop = r.running.length := by
  rw [(r.step_spec b stop).2.2]
  exact length_staying r.running b.now (r.orders stop)

theorem proceed_balanced (r : Race) (b : Bench) (stop : Bool) :
    (r.proceed b stop).2.2.running.length + r.returns b stop = r.running.length := by
  have hfirst := r.step_balanced b stop
  have hsecond := (r.step b stop).2.2.step_balanced (r.step b stop).1 stop
  rw [(r.step_spec b stop).1] at hsecond
  unfold proceed returns
  dsimp only
  split
  · rw [Nat.add_comm (r.stepReturns b.now stop), ← Nat.add_assoc]
    exact (congrArg (· + _) hsecond).trans hfirst
  · exact hfirst

theorem advance_balanced {r : Race} {b b' : Bench} {stop : Bool} {events : List RaceEvent}
    {progress : Progress Race EngineResult} (h : r.advance b stop = (b', events, progress)) :
    progress.Holds (fun r' => r'.running.length + r.returns b stop = r.running.length)
      (fun _ => r.returns b stop = r.running.length) := by
  have hall := r.proceed_balanced b stop
  unfold advance at h
  dsimp only at h
  split at h
  · rename_i hover
    cases h
    -- a race that is over has no engine running
    unfold isOver at hover
    rw [Bool.and_eq_true, List.isEmpty_iff] at hover
    rw [hover.1, List.length_nil, Nat.zero_add] at hall
    exact hall
  · cases h
    exact hall

end Race

namespace Verification

def returns (v : Verification) (b : Bench) (stop : Bool) : Nat :=
  match v.phase with
  | .racing race => race.returns b stop
  | .raced _ => 0
  | .transforming _ _ _ deadline a => (a.advance b.now (stop || b.passed deadline)).2.ends

variable {b : Bench} {stop : Bool} {v : Verification}

variable {a : Activity} {deadline : Option Instant} {lines : List Text} {rest : List Stage}
  {s : Stage} {target : Text}

theorem step_transforming {a' : Activity}
    (hphase : v.phase = .transforming s rest target deadline a)
    (ha : a.advance b.now (stop || b.passed deadline) = (lines, .going a')) :
    v.step b stop = (b, lines.map (.line s.name ·),
      .going { v with phase := .transforming s rest target deadline a' }) := by
  unfold step
  rw [hphase]
  dsimp only
  rw [ha]

/-- What a stage that comes back amounts to. -/
def transformed (s : Stage) (target : Text) (b : Bench) (r : Activity.Return) :
    Bench × Transformed :=
  judgeStage { b with files := r.closing b.files } s target r.ending

theorem step_transformed
    {r : Activity.Return} (hphase : v.phase = .transforming s rest target deadline a)
    (ha : a.advance b.now (stop || b.passed deadline) = (lines, .ended r)) :
    v.step b stop =
      let t := transformed s target b r
      let after := v.afterStage t.1 stop rest target t.2
      (after.1, lines.map (.line s.name ·), after.2) := by
  unfold step
  rw [hphase]
  dsimp only
  rw [ha]
  rfl

theorem step_balanced {b' : Bench} {events : List RaceEvent}
    {progress : Progress Verification Outcome} (h : v.step b stop = (b', events, progress)) :
    ∃ calls, Works calls b b' ∧
      progress.Holds
        (fun v' => v'.phase.inFlight + v.returns b stop = v.phase.inFlight + calls.length)
        (fun _ => v.returns b stop = v.phase.inFlight ∧ calls = []) := by
  have hdoes := v.does b stop
  rw [h] at hdoes
  unfold returns
  cases hdoes with
  | @races race _ _ p hphase hadvance =>
    have hworks := race.works_advance b stop
    have hbalanced := Race.advance_balanced hadvance
    rw [hadvance] at hworks
    rw [hphase]
    cases p with
    | going race' => exact ⟨[], hworks, hbalanced⟩
    | ended result => exact ⟨[], hworks, (Nat.zero_add _).trans hbalanced⟩
  | closes hphase =>
    rw [hphase]
    exact ⟨[], works_clear b _, rfl, rfl⟩
  | waits hphase ha =>
    rw [hphase]
    dsimp only
    rw [ha]
    exact ⟨[], .refl b, rfl⟩
  | fails hphase ha hworks =>
    rw [hphase]
    dsimp only
    rw [ha]
    exact ⟨[], hworks.trans (works_clear _ _), rfl, rfl⟩
  | @resumes _ rest target _ _ _ _ after hphase ha hworks =>
    rw [hphase]
    dsimp only
    rw [ha]
    obtain ⟨calls, hcalls, hlength⟩ := v.works_resume after target rest
    refine ⟨calls, hworks.trans hcalls, ?_⟩
    show (v.resume after target rest).2.phase.inFlight + 1 = 1 + calls.length
    rw [Nat.add_comm, hlength]

theorem calm_step (v : Verification) (b : Bench) (stop : Bool) : Bench.Calm b (v.step b stop).1 := by
  cases h : v.step b stop with
  | mk b' rest =>
  obtain ⟨calls, hworks, -⟩ := step_balanced h
  exact hworks.calm

end Verification

namespace Circuit.Collection

def returns (c : Collection) (b : Bench) (stop : Bool) : Nat :=
  (c.activity.advance b.now (stop || b.passed c.deadline)).2.ends

theorem advance_balanced (c : Collection) (b : Bench) (stop : Bool) :
    (c.advance b stop).2.Holds (fun _ => c.returns b stop = 0) (fun _ => c.returns b stop = 1) := by
  unfold advance returns
  split <;> rename_i hadvance <;> rw [hadvance] <;> rfl

end Circuit.Collection
end Regatta
