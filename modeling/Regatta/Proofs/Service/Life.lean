import Regatta.Proofs.Service.Runner

/-! The life of a run, as the store tells it.

Whatever requests come in, whatever the tool does and whenever a run is told to stop, `run_life`
says how every run goes that the runner takes in: pending, then perhaps running, then completed,
failed or cancelled for good. The record of a run that has ended is complete, and a run that nobody
works on any more has ended, can no longer be cancelled, and has a closed topic. On the way the store
never has to refuse anything. -/
namespace Regatta.Runner

/-- How a run has gone by the end of these events. -/
structure Life (r₀ : Runner) (events : List Event) (id : Text) : Prop where
  /-- Pending, then perhaps running, then one end that stays. -/
  statuses : r₀.statuses id events = [] ∨ Status.Shape (r₀.statuses id events)
  last : (r₀.run events).status? id = (r₀.statuses id events).getLast?
  /-- An end leaves a complete record, which shows a start if and only if there was one. -/
  record : ∀ row, (r₀.run events).desk.ledger.store.row? id = some row →
    row.standing.terminal = true →
      row.Ended ∧ (row.startedAt.isSome = true ↔ Status.running ∈ r₀.statuses id events)
  /-- A run that nobody works on any more has ended, is not active, and its topic is closed. -/
  left : (r₀.run events).status? id ≠ none → (∀ j ∈ (r₀.run events).jobs, j.id ≠ id) →
    (∃ s, (r₀.run events).status? id = some s ∧ s.terminal = true) ∧
      (r₀.run events).cancel id = none ∧
      ((r₀.run events).desk.broker.topic id).closed = true

/-- A run is recorded on the way from one state to another: unknown before, pending after. -/
def Records (r r' : Runner) (id : Text) : Prop :=
  r.status? id = none ∧ r'.status? id = some .pending

variable {r : Runner} {request : Request}

theorem records_of_createRun {r' : Runner} (h : r.desk.ledger.Willing) {interrupted : Bool}
    {id : Text} (hcreate : r.desk.ledger.createRun interrupted (request.newRun id r.now) =
      .ok r'.desk.ledger) : r.Records r' id := by
  obtain ⟨hnone, hrewrites⟩ := Ledger.createRun_eq_ok h hcreate
  refine ⟨Option.map_eq_none_iff.mpr hnone, Option.map_eq_some_iff.mpr ⟨_, hrewrites.row, rfl⟩⟩

theorem submit_records (h : r.desk.ledger.Willing) {run : Run}
    (hsubmit : (r.submit request).2 = .ok run) : r.Records (r.submit request).1 run.id := by
  unfold Runner.submit at hsubmit ⊢
  split at hsubmit
  · cases hsubmit
  · rename_i hopen
    rw [if_neg hopen]
    dsimp only at hsubmit ⊢
    split at hsubmit
    · cases hsubmit
    · rename_i ledger hcreate
      cases hsubmit
      exact records_of_createRun h hcreate

theorem begin_records (h : r.desk.ledger.Willing)
    {cancelAt : Option Instant} (hbegin : (r.begin request cancelAt).1.jobs ≠ r.jobs) :
    r.Records (r.begin request cancelAt).1 (r.begin request cancelAt).2 := by
  unfold Runner.begin at hbegin ⊢
  dsimp only at hbegin ⊢
  split at hbegin
  · exact absurd rfl hbegin
  · rename_i ledger hcreate
    exact records_of_createRun h hcreate

variable {c : Premises} {r₀ : Runner} {events : List Event}

theorem life_of_job {j : Job} (hj : j ∈ (r₀.run events).jobs) {engines : List Engine} {row : RunRow}
    {seen : List EngineResult} (hkept : j.Kept c engines (r₀.run events).desk row seen)
    (hshown : row.Shown (r₀.statuses j.id events)) : Life r₀ events j.id where
  statuses := .inr hshown.passes.shape
  last := by
    rw [hshown.passes.getLast?]
    simp [status?, hkept.filing.recorded]
  record row' hrow hterminal := by
    rw [hkept.filing.recorded] at hrow
    cases hrow
    exact ⟨(hkept.ended hterminal).1, hshown.started⟩
  left _ hnone := absurd rfl (hnone j hj)

theorem life_of_resting {id : Text} {seen : List EngineResult}
    (h : Resting c id (r₀.statuses id events) seen (r₀.run events).desk) : Life r₀ events id := by
  cases h with
  | unrecorded hrow _ hhist =>
    have hstatus : (r₀.run events).status? id = none := by simp [status?, hrow]
    refine ⟨.inl hhist, by rw [hstatus, hhist]; rfl, fun row hsome => ?_, fun h => absurd hstatus h⟩
    rw [hrow] at hsome
    cases hsome
  | @archived engines row harchived hshown =>
    have hstatus : (r₀.run events).status? id = some row.standing := by
      simp [status?, harchived.recorded]
    have hterminal := harchived.ended.terminal
    refine ⟨.inr hshown.passes.shape, by rw [hstatus, hshown.passes.getLast?],
      fun row' hrow _ => ?_, fun _ _ => ⟨⟨_, hstatus, hterminal⟩, ?_, harchived.closed⟩⟩
    · rw [harchived.recorded] at hrow
      cases hrow
      exact ⟨harchived.ended, hshown.started⟩
    · simp [cancel, isActive, harchived.untracked]

/-- **The life of every run.** A run that is submitted, or executed with a job for it, is recorded
as pending under an id that the store did not know. Every such run goes in order, and nothing that
the store is asked for on the way is refused. What the runner does by itself is among the events. -/
theorem run_life (hfresh : r₀.Fresh) (hproper : ∀ e ∈ events, e.Proper fun _ => True) :
    (∀ request run, ((r₀.run events).submit request).2 = .ok run →
      (r₀.run events).Records ((r₀.run events).submit request).1 run.id) ∧
    (∀ request cancelAt, ((r₀.run events).begin request cancelAt).1.jobs ≠ (r₀.run events).jobs →
      (r₀.run events).Records ((r₀.run events).begin request cancelAt).1
        ((r₀.run events).begin request cancelAt).2) ∧
    (∀ id, (r₀.run events).status? id = none → r₀.status? id = none) ∧
    (∀ id, r₀.status? id = none → Life r₀ events id) ∧
    (r₀.run events).desk.bench.complaints = r₀.desk.bench.complaints ∧
    ∃ steps, (∀ e ∈ steps, ∃ i, e = Event.step i) ∧
      r₀.run (events ++ steps) = (r₀.run events).settle := by
  have hsound := (hfresh.sound (P := fun _ => True) trivial).run hproper
  simp only [List.nil_append] at hsound
  refine ⟨fun request run => submit_records hsound.willing,
    fun request cancelAt => begin_records hsound.willing, fun id hnone => ?_, fun id hnew => ?_,
    hsound.complaints, ?_⟩
  · exact Option.map_eq_none_iff.mpr (hsound.old id (Option.map_eq_none_iff.mp hnone))
  · have hrow : r₀.desk.ledger.store.row? id = none := Option.map_eq_none_iff.mp hnew
    by_cases hjob : ∃ j ∈ (r₀.run events).jobs, j.id = id
    · obtain ⟨j, hj, rfl⟩ := hjob
      obtain ⟨engines, row, hkept, hshown⟩ := hsound.jobs j hj
      exact life_of_job hj hkept hshown
    · exact life_of_resting (hsound.others id hrow fun j hj heq => hjob ⟨j, hj, heq⟩)
  · obtain ⟨steps, hsteps, hrun⟩ := (r₀.run events).exists_steps_settle
    exact ⟨steps, hsteps, by rw [run_append, hrun]⟩

/-- A tool with two engines: one finds a counterexample after a while, the other returns sooner and
knows nothing. -/
def duo (i : Invocation) : Behavior :=
  let halted := fun _ => Course.giveUp 5
  if i.label = Engine.sim.name then ⟨[], some 10000000, .done "", fun f => f, fun f => f, halted⟩
  else ⟨[(2, "depth 1")], some 30000000, .done "SAT", fun f => f, fun f => f, halted⟩

def duoRunner : Runner where
  desk := {
    bench := { now := 0, files := default, tool := fun _ _ i => duo i, randomEnding := fun _ => [] }
    collector := ⟨"native", 0⟩
    options := ⟨[], 0⟩ }
  newId n := if n = 0 then "first" else "second"

def duoRequest : Request := ⟨"circuit.aig", some [.sim, .bmc], 0, []⟩

/-- Two runs side by side, of which the second is cancelled before it starts. -/
def duoEvents : List Event :=
  [.submit duoRequest, .step 0, .execute duoRequest none, .step 0, .cancel "second", .step 1,
    .tick 10000000, .step 0, .tick 30000000, .step 0, .step 1, .step 0, .step 0, .step 0]

theorem duoRequest_parsed : duoRequest.Parsed :=
  ⟨["sim", "bmc"], [.sim, .bmc], rfl, rfl⟩

theorem duoRunner_fresh : duoRunner.Fresh := ⟨⟨rfl, rfl⟩, rfl, rfl⟩

theorem run_life_duo :
    duoRunner.Fresh ∧ (∀ e ∈ duoEvents, e.Proper fun _ => True) ∧
      Life duoRunner duoEvents "first" ∧ Life duoRunner duoEvents "second" ∧
      (duoRunner.run duoEvents).status? "first" = some .completed ∧
      (duoRunner.run duoEvents).status? "second" = some .cancelled := by
  have hproper : ∀ e ∈ duoEvents, e.Proper fun _ => True := by
    simp [duoEvents, Event.Proper, duoRequest_parsed]
  obtain ⟨-, -, -, hlife, -⟩ := run_life duoRunner_fresh hproper
  exact ⟨duoRunner_fresh, hproper, hlife _ rfl, hlife _ rfl, by decide +kernel, by decide +kernel⟩

end Regatta.Runner
