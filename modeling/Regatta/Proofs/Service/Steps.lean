import Regatta.Proofs.Calls
import Regatta.Proofs.Service.Job
import Regatta.Proofs.Store.Operations
import Regatta.Service.Runner

/-! What a step of a job does, whether or not the store does as it is told.

A job at work changes nothing about other runs, and the store is as open and as willing as it was
(`Desk.Attends`). Each call it makes is in flight until it comes back (`step_spec`). Where the store
does as it is told, the status of the run fits the phase of its job (`Attested.step`). -/
namespace Regatta

open Bench (Makes)

namespace Desk

/-- Work on one run at the desk, in which these calls are made. -/
structure Attends (id : Text) (calls : List Invocation) (d d' : Desk) : Prop where
  makes : Makes calls d.bench d'.bench
  isOpen : d'.ledger.store.isOpen = d.ledger.store.isOpen
  refusals : d'.ledger.refusals = d.ledger.refusals
  others : ∀ other, other ≠ id → d'.ledger.store.row? other = d.ledger.store.row? other
  tracked : d'.tracked = d.tracked

variable {calls : List Invocation} {f : Store → Except StoreError Store} {id : Text}

theorem Attends.trans {is js : List Invocation} {a b c : Desk}
    (h : Attends id is a b) (h' : Attends id js b c) : Attends id (is ++ js) a c where
  makes := h.makes.trans h'.makes
  isOpen := h'.isOpen.trans h.isOpen
  refusals := h'.refusals.trans h.refusals
  others other hne := (h'.others other hne).trans (h.others other hne)
  tracked := h'.tracked.trans h.tracked

theorem attends_bench {d : Desk} (id : Text) {bench : Bench}
    (h : Makes calls d.bench bench) : Attends id calls d { d with bench } :=
  ⟨h, rfl, rfl, fun _ _ => rfl, rfl⟩

theorem attends_note (d : Desk) (id : Text) (level : Log.Level) (message : Text) :
    Attends id [] d (d.note level message) :=
  attends_bench id ⟨rfl, rfl, rfl⟩

theorem attends_count (d : Desk) (id : Text) (m : Metric) (n : Int) :
    Attends id [] d (d.count m n) :=
  attends_bench id ⟨rfl, rfl, rfl⟩

theorem attends_ledger {d : Desk} {operation : String}
    (hf : ∀ s s', f s = .ok s' → Store.Change id s s')
    {ledger : Ledger} (h : d.ledger.change operation f = .ok ledger) :
    Attends id [] d { d with ledger } := by
  obtain ⟨hstore, hrefusals⟩ := Ledger.change_eq_ok h
  have hchange := hf _ _ hstore
  exact ⟨.refl _, hchange.isOpen, hrefusals, fun _ hne => hchange.row?_other hne, rfl⟩

theorem attends_record {d : Desk}
    (hf : ∀ s s', f s = .ok s' → Store.Change id s s') (complaint : Text) (operation : String) :
    Attends id [] d (d.record complaint (d.ledger.change operation f)) := by
  unfold record
  split
  · rename_i ledger h
    exact attends_ledger hf h
  · exact d.attends_note id .error complaint

theorem Attends.willing {d d' : Desk}
    (h : Attends id calls d d') (hd : d.ledger.Willing) : d'.ledger.Willing :=
  ⟨h.refusals.trans hd.refusals, h.isOpen.trans hd.isOpen⟩

end Desk

namespace Job

def Phase.inFlight : Phase → Nat
  | .collecting _ => 1
  | .verifying v => v.phase.inFlight
  | _ => 0

def returns (j : Job) (d : Desk) : Nat :=
  match j.phase with
  | .collecting c => c.returns d.bench (j.stopped d)
  | .verifying v => v.returns d.bench (j.stopped d)
  | _ => 0

/-- A job has gone on at the desk, and made these calls. -/
structure Carries (j : Job) (d : Desk) (calls : List Invocation) (s : Desk × Job) : Prop where
  attends : d.Attends j.id calls s.1
  continues : j.Continues s.2

theorem finish_attends (j : Job) (d : Desk) (status : Status) (error : Text) :
    d.Attends j.id [] (j.finish d status error) := by
  have hid := j.closing_id d.now status error
  have hupdate : ∀ s s', Store.updateRun s (j.closing d.now status error) = .ok s' →
      Store.Change j.id s s' := by
    intro s s' h
    rw [← hid]
    exact ((Store.Operation.updateRun _).does h).change rfl
  exact (Desk.attends_record hupdate _ _).trans (Desk.attends_count _ j.id _ _)

variable (events : List RaceEvent) (s : Job × Desk)

theorem keep_attends (e : RaceEvent) : s.2.Attends s.1.id [] (keep s e).2 := by
  obtain ⟨j, d⟩ := s
  cases e with
  | line source text =>
    have hinsert : ∀ s s', Store.insertLine s d.now j.id j.lines.toInt (source ++ ": " ++ text) = .ok s' →
        Store.Change j.id s s' := fun _ _ h => ((Store.Operation.insertLine ..).does h).change rfl
    have hattends := (d.attends_note j.id .debug "tool output").trans
      (Desk.attends_record (d := d.note .debug "tool output") hinsert "failed to persist log line"
        "InsertLogLine")
    exact ⟨hattends.makes, hattends.isOpen, hattends.refusals, hattends.others, hattends.tracked⟩
  | result r =>
    have hinsert : ∀ s s', Store.insertResult s d.now j.id j.results.toInt r = .ok s' →
        Store.Change j.id s s' := fun _ _ h => ((Store.Operation.insertResult ..).does h).change rfl
    exact Desk.attends_record hinsert _ _

theorem keepAll_attends : s.2.Attends s.1.id [] (events.foldl keep s).2 := by
  induction events generalizing s with
  | nil => exact Desk.attends_bench _ (.refl _)
  | cons e rest ih =>
    have hid : (keep s e).1.id = s.1.id := (keepAll_continues [e] s).id
    have hrest := ih (keep s e)
    rw [hid] at hrest
    exact (keep_attends s e).trans hrest

theorem Phase.Idle.quiet {j : Job} (h : j.phase.Idle) (d : Desk) :
    j.phase.inFlight = 0 ∧ j.returns d = 0 := by
  unfold returns
  cases hphase : j.phase with
  | collecting c =>
    rw [hphase] at h
    exact h.elim
  | verifying v =>
    rw [hphase] at h
    exact h.elim
  | _ => exact ⟨rfl, rfl⟩

theorem Does.attends {j j' : Job} {d d' : Desk} (h : j.Does d (d', .going j')) :
    ∃ calls, d.Attends j.id calls d' ∧
      j'.phase.inFlight + j.returns d = j.phase.inFlight + calls.length := by
  cases h with
  | givesUp hidle hmakes =>
    refine ⟨[], (Desk.attends_bench _ hmakes).trans (j.finish_attends _ _ _), ?_⟩
    rw [(hidle.quiet d).1, (hidle.quiet d).2]
    rfl
  | @starts before _ _ p hphase _ hupdate hworks hcollect =>
    obtain ⟨calls, hcalls, hflight⟩ :=
      Circuit.Collection.works_start before d.collector j.request.dataset
    rw [hcollect] at hcalls hflight
    have hstatus : ∀ s s', Store.updateStatus s d.now j.id .running = .ok s' →
        Store.Change j.id s s' := fun _ _ h => ((Store.Operation.updateStatus ..).does h).change rfl
    refine ⟨calls, (Desk.attends_ledger hstatus hupdate).trans
      (Desk.attends_bench _ (hworks.makes.trans hcalls.makes)), ?_⟩
    unfold returns
    rw [hphase]
    cases p with
    | going c => exact hflight.symm.trans (Nat.zero_add _).symm
    | ended x =>
      rw [show calls = [] from hflight]
      rfl
  | @gathers c _ p hphase hadvance =>
    have hworks := (c.works_advance d.bench (j.stopped d)).makes
    have hbalanced := c.advance_balanced d.bench (j.stopped d)
    rw [hadvance] at hworks hbalanced
    refine ⟨[], Desk.attends_bench _ hworks, ?_⟩
    unfold returns
    rw [hphase]
    dsimp only
    cases p with
    | going c' =>
      rw [show c.returns d.bench (j.stopped d) = 0 from hbalanced]
      rfl
    | ended x =>
      rw [show c.returns d.bench (j.stopped d) = 1 from hbalanced]
      rfl
  | @launches _ _ p hphase hstart =>
    obtain ⟨calls, hworks, hcalls⟩ := Verification.works_start d.bench d.options j.verification
    rw [hstart] at hworks hcalls
    refine ⟨calls, Desk.attends_bench _ hworks.makes, ?_⟩
    unfold returns
    rw [hphase]
    cases p with
    | going v => exact hcalls.symm.trans (Nat.zero_add _).symm
    | ended o =>
      rw [show calls = [] from hcalls]
      rfl
  | @verifies v bench events p hphase hstep kept hkept =>
    obtain ⟨calls, hworks, hbalanced⟩ := Verification.step_balanced hstep
    have hkeeps := keepAll_attends events (j, { d with bench })
    have hall := (Desk.attends_bench j.id hworks.makes).trans hkeeps
    rw [hkept, List.append_nil] at hall
    refine ⟨calls, hall, ?_⟩
    unfold returns
    rw [hphase]
    dsimp only
    cases p with
    | going v' => exact hbalanced
    | ended o =>
      show 0 + _ = _
      rw [hbalanced.1, hbalanced.2]
      exact Nat.zero_add _
  | @answers r hphase =>
    have hfinish := (j.answered r).finish_attends d .completed ""
    refine ⟨[], hfinish.trans (Desk.attends_note _ j.id .info "run finished"), ?_⟩
    unfold returns
    rw [hphase]
    rfl

theorem leave_spec (j : Job) (d : Desk) (o : RunOutcome) :
    Makes [] d.bench (j.leave d o).bench ∧ (j.leave d o).ledger = d.ledger ∧
      (j.leave d o).tracked = d.tracked.filter (· != j.id) := by
  unfold leave
  dsimp only
  split <;> exact ⟨⟨rfl, rfl, rfl⟩, rfl, rfl⟩

/-- **What a step of a job does at the desk.** A job that goes on has worked on its own run only,
and the calls that were in flight or are made are in flight or have come back. A job that ends has
nothing in flight, and its run is no longer tracked. -/
theorem step_spec {j : Job} {d d' : Desk} {progress : Progress Job RunOutcome}
    (h : j.step d = (d', progress)) :
    progress.Holds
      (fun j' => ∃ calls, j.Carries d calls (d', j') ∧
        j'.phase.inFlight + j.returns d = j.phase.inFlight + calls.length)
      (fun _ => (∃ o, j.phase = .leaving o) ∧ Makes [] d.bench d'.bench ∧ d'.ledger = d.ledger ∧
        d'.tracked = d.tracked.filter (· != j.id)) := by
  have hdoes := does_of_step h
  cases progress with
  | going j' =>
    obtain ⟨calls, hattends, hflight⟩ := hdoes.attends
    exact ⟨calls, ⟨hattends, hdoes.continues⟩, hflight⟩
  | ended o =>
    cases hdoes with
    | leaves hphase => exact ⟨⟨o, hphase⟩, j.leave_spec d o⟩

/-! ### The status of a run under way -/

/-- The run is recorded, and its status fits the phase of its job. -/
def Attested (d : Desk) (j : Job) : Prop :=
  ∃ row, d.ledger.store.row? j.id = some row ∧ j.phase.Fits row.standing

theorem keep_runs (e : RaceEvent) :
    (keep s e).2.ledger.store.runs = s.2.ledger.store.runs := by
  obtain ⟨j, d⟩ := s
  have hrecord : ∀ (d : Desk) (complaint : Text) (operation : String)
      (f : Store → Except StoreError Store), (∀ s s', f s = .ok s' → s'.runs = s.runs) →
      (d.record complaint (d.ledger.change operation f)).ledger.store.runs =
        d.ledger.store.runs := by
    intro d complaint operation f hf
    unfold Desk.record
    split
    · rename_i ledger h
      exact hf _ _ (Ledger.change_eq_ok h).1
    · rfl
  cases e with
  | line source text =>
    refine hrecord (d.note .debug "tool output") _ _ _ fun s s' h => ?_
    cases (Store.open_of_ok h).2
    rfl
  | result r =>
    refine hrecord d _ _ _ fun s s' h => ?_
    cases (Store.open_of_ok h).2
    rfl

theorem keepAll_runs :
    (events.foldl keep s).2.ledger.store.runs = s.2.ledger.store.runs := by
  induction events generalizing s with
  | nil => rfl
  | cons e rest ih => exact (ih (keep s e)).trans (keep_runs s e)

theorem keepAll_row (id : Text) :
    (events.foldl keep s).2.ledger.store.row? id = s.2.ledger.store.row? id := by
  unfold Store.row?
  rw [keepAll_runs]

variable {j : Job} {d d' : Desk} {row : RunRow}

theorem giveUp_row (hd : d.ledger.Willing) (hrow : d.ledger.store.row? j.id = some row)
    (hfits : j.phase.Fits row.standing) (hidle : j.phase.Idle) {status : Status}
    (hstatus : status = .failed ∨ status = .cancelled) (error : Text) :
    (j.finish d status error).ledger.store.row? j.id =
      some (Store.overwrite (j.closing d.now status error) row) :=
  (finish_ok hd hrow (hfits.allows hidle hstatus) error).2.1

/-- **The status of a run fits the phase of its job**, step by step, and shows an end in the end. -/
theorem Attested.step (h : j.Attested d) (hd : d.ledger.Willing)
    {progress : Progress Job RunOutcome} (hstep : j.step d = (d', progress)) :
    progress.Holds (Attested d')
      (fun _ => ∃ row, d'.ledger.store.row? j.id = some row ∧ row.standing.terminal = true) := by
  obtain ⟨row, hrow, hfits⟩ := h
  cases does_of_step hstep with
  | @givesUp bench _ error _ hidle _ _ hstatus =>
    refine ⟨_, giveUp_row (d := { d with bench }) hd hrow hfits hidle hstatus error, ?_⟩
    show Status.terminal _ = true
    rw [standing_closing]
    rcases hstatus with rfl | rfl <;> decide
  | @starts _ _ _ p hphase _ hupdate =>
    rw [hphase] at hfits
    have hallows : row.standing.allows .running = true := by
      rw [show row.standing = .pending from hfits]
      rfl
    obtain ⟨ledger, hok, hrewrites⟩ := Ledger.updateStatus_ok hd hrow d.now hallows
    cases hok.symm.trans hupdate
    refine ⟨_, hrewrites.row, ?_⟩
    cases p <;> exact Store.standing_move d.now .running row
  | @gathers _ _ p hphase | @launches _ _ p hphase =>
    rw [hphase] at hfits
    refine ⟨row, hrow, ?_⟩
    cases p <;> exact hfits
  | @verifies _ bench events p hphase _ kept hkept =>
    rw [hphase] at hfits
    have hid := (keepAll_continues events (j, { d with bench })).id
    have hkeeps := keepAll_row events (j, { d with bench }) j.id
    rw [hkept] at hid hkeeps
    refine ⟨row, (congrArg _ hid).trans (hkeeps.trans hrow), ?_⟩
    cases p <;> exact hfits
  | @answers r hphase =>
    rw [hphase] at hfits
    have hallows : row.standing.allows .completed = true := by
      rw [show row.standing = .running from hfits]
      rfl
    exact ⟨_, (finish_ok (j := j.answered r) hd hrow hallows "").2.1, rfl⟩
  | leaves hphase =>
    rw [hphase] at hfits
    refine ⟨row, ?_, hfits⟩
    rw [(j.leave_spec d _).2.1]
    exact hrow

end Job
end Regatta
