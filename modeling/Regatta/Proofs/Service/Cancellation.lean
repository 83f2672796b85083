import Regatta.Proofs.Service.Departure

/-! What becomes of a run that is told to stop.

A run may be told to stop at any time. As long as its verification has a look at that still to come
(`Phase.Heeds`), nothing that the tool reports afterwards makes a difference: each step of its job
leads on toward one end (`Doomed.step`), and the run is recorded as cancelled, without an answer and
with no call in flight. The exception is a breakdown of the code that runs the tool or reads the
circuit. -/
namespace Regatta

/-- No call of the tool breaks down. -/
def Tool.Steady (tool : Tool) : Prop :=
  ∀ history files i reason, (tool history files i).ending ≠ .breakdown reason ∧
    ∀ d, ((tool history files i).halted d).ending ≠ .breakdown reason

structure RunRow.CalledOff (row : RunRow) : Prop where
  standing : row.standing = .cancelled
  verdict : row.verdict = []
  engine : row.engine = []
  elapsed : row.elapsedMillis = none

namespace Job

/-- The job has a look at whether it is to stop still before it, or has found a fault that it looks
into once more. -/
def Phase.Heeds : Phase → Prop
  | .starting | .collecting _ | .collected _ | .verifying _ => True
  | .verified (.answer _ fault) => fault.isSome = true
  | .verified (.breakdown _) | .leaving _ => False

instance (p : Phase) : Decidable p.Heeds :=
  match p with
  | .starting | .collecting _ | .collected _ | .verifying _ => .isTrue trivial
  | .verified (.answer _ fault) => inferInstanceAs (Decidable (fault.isSome = true))
  | .verified (.breakdown _) | .leaving _ => .isFalse not_false

instance (p : Phase) : Decidable p.Broken :=
  match p with
  | .collected (.breakdown _) | .verified (.breakdown _) => .isTrue trivial
  | .starting | .collecting _ | .collected (.figures _) | .verifying _ | .verified (.answer _ _)
  | .leaving _ => .isFalse not_false

structure Doomed (d : Desk) (j : Job) : Prop where
  stopped : j.stopped d = true
  heeds : j.phase.Heeds

theorem Doomed.later {j : Job} {d d' : Desk} (h : j.Doomed d) (hnow : d.now ≤ d'.now) :
    j.Doomed d' :=
  ⟨stopped_later h.stopped hnow, h.heeds⟩

/-- Where a step takes a job that was told to stop: it goes on toward its end, it breaks down, or
its run is recorded as cancelled. -/
inductive Fate (d : Desk) (j : Job) : Prop
  | doomed (h : j.phase.Heeds)
  | broken (h : j.phase.Broken)
  | calledOff {o : RunOutcome} {row : RunRow} (hphase : j.phase = .leaving o)
    (hrow : d.ledger.store.row? j.id = some row) (h : row.CalledOff)

variable {j : Job} {d d' : Desk}

end Job

namespace Verification

theorem start_fault {b b' : Bench} {o : Options} {r : Request} {out : Outcome}
    (h : start b o r = (b', .ended out)) : ∃ result f, out = .answer result (some f) := by
  have hbegins := begins b o r
  rw [h] at hbegins
  cases hbegins with
  | refused _ f => exact ⟨_, f, rfl⟩

/-- A verification that is told to stop ends with a fault, or with a breakdown. -/
theorem step_fault {v : Verification} {b b' : Bench} {events : List RaceEvent} {out : Outcome}
    (h : v.step b true = (b', events, .ended out)) :
    (∃ result f, out = .answer result (some f)) ∨ ∃ reason, out = .breakdown reason := by
  have hdoes := v.does b true
  rw [h] at hdoes
  cases hdoes with
  | closes => exact .inl ⟨_, _, rfl⟩
  | fails _ _ _ _ hfailing =>
    cases hfailing with
    | fault result f => exact .inl ⟨result, f, rfl⟩
    | breakdown reason => exact .inr ⟨reason, rfl⟩
    | nothing hstop => cases hstop

end Verification

namespace Job

variable {j : Job} {d d' : Desk}

/-- **A job that was told to stop in time** goes on toward its end, unless it breaks down. -/
theorem Doomed.step (h : j.Doomed d) (hunbroken : ¬ j.phase.Broken) (hd : d.ledger.Willing)
    (hattested : j.Attested d) :
    ∃ s : Desk × Job, j.step d = (s.1, .going s.2) ∧ Fate s.1 s.2 := by
  have hheeds := h.heeds
  have hdoes := j.does d
  generalize j.step d = x at hdoes ⊢
  cases hdoes with
  | @givesUp bench _ error _ hidle _ _ _ _ hstopped =>
    obtain ⟨row, hrow, hfits⟩ := hattested
    cases (hstopped h.stopped).resolve_right hunbroken
    exact ⟨(_, _), rfl, .calledOff rfl
      (giveUp_row (d := { d with bench }) hd hrow hfits hidle (.inr rfl) error)
      ⟨rfl, rfl, rfl, rfl⟩⟩
  | starts _ hgoes => cases hgoes.symm.trans h.stopped
  | @gathers _ _ p =>
    refine ⟨(_, _), rfl, .doomed ?_⟩
    cases p <;> trivial
  | @launches _ _ p _ hstart =>
    refine ⟨(_, _), rfl, .doomed ?_⟩
    cases p with
    | going v => trivial
    | ended o =>
      obtain ⟨result, f, rfl⟩ := Verification.start_fault hstart
      rfl
  | @verifies _ _ _ p _ hstep =>
    rw [h.stopped] at hstep
    cases p with
    | going v => exact ⟨(_, _), rfl, .doomed trivial⟩
    | ended o =>
      rcases Verification.step_fault hstep with ⟨result, f, rfl⟩ | ⟨reason, rfl⟩
      · exact ⟨(_, _), rfl, .doomed rfl⟩
      · exact ⟨(_, _), rfl, .broken trivial⟩
  | answers hphase =>
    rw [hphase] at hheeds
    cases hheeds
  | leaves hphase =>
    rw [hphase] at hheeds
    exact hheeds.elim

end Job

namespace Runner

/-! ### Whole histories -/

def callsIn (r : Runner) (id : Text) : Event → Nat
  | .step i => r.callsOf id i
  | _ => 0

def returnsIn (r : Runner) (id : Text) : Event → Nat
  | .step i => r.returnsOf id i
  | _ => 0

def made (r : Runner) (id : Text) : List Event → Nat
  | [] => 0
  | e :: rest => r.callsIn id e + (r.next e).made id rest

def returned (r : Runner) (id : Text) : List Event → Nat
  | [] => 0
  | e :: rest => r.returnsIn id e + (r.next e).returned id rest

/-- The jobs are those of different runs, which can be told to stop; their calls are accounted for,
and their runs are recorded as their phases say. -/
structure Tended (made back : Text → Nat) (r : Runner) : Prop where
  nodup : (r.jobs.map Job.id).Nodup
  tracked : ∀ j ∈ r.jobs, j.id ∈ r.desk.tracked
  tallied : Tallied made back r.jobs
  orderly : Orderly r.desk r.jobs

variable {made back : Text → Nat} {r r' : Runner}

theorem Fresh.tended (h : r.Fresh) : r.Tended (fun _ => 0) (fun _ => 0) where
  nodup := by simp [h.jobs]
  tracked := by simp [h.jobs]
  tallied := ⟨by simp [h.jobs], fun _ _ => rfl⟩
  orderly := ⟨h.willing, by simp [h.jobs]⟩

variable {e : Event} {i : Nat} {id : Text}

theorem callsIn_of_ne (h : ∀ i, e ≠ .step i) (id : Text) :
    r.callsIn id e = 0 ∧ r.returnsIn id e = 0 := by
  cases e with
  | step i => exact absurd rfl (h i)
  | _ => exact ⟨rfl, rfl⟩

theorem Tended.effect (h : r.Tended made back) (he : Effect r e r') :
    r'.Tended (fun id => made id + r.callsIn id e) (fun id => back id + r.returnsIn id e) := by
  cases he with
  | stands which hjobs hledger htracked hnow hevent =>
    simp only [(callsIn_of_ne hevent _).1, (callsIn_of_ne hevent _).2, Nat.add_zero]
    refine ⟨?_, ?_, ?_, ?_⟩
    · rw [hjobs, ids_stopJobs]
      exact h.nodup
    · rw [hjobs, htracked]
      intro j' hj'
      obtain ⟨j, hj, -, hid, -⟩ := mem_stopJobs hj'
      rw [hid]
      exact h.tracked j hj
    · rw [hjobs]
      exact h.tallied.stop which
    · rw [hjobs]
      exact (h.orderly.stop which).ledger hledger
  | @enters request id _ job hcreate hjob hjobs htracked hbench hevent =>
    simp only [(callsIn_of_ne hevent _).1, (callsIn_of_ne hevent _).2, Nat.add_zero]
    obtain ⟨horderly, hnew, hrewrites⟩ := h.orderly.create hcreate
    rw [show (request.complete.newRun id r.now).id = job.id from hjob.id.symm] at hnew
    refine ⟨?_, ?_, ?_, ?_⟩
    · rw [hjobs]
      exact nodup_enter h.nodup hnew
    · rw [hjobs, htracked]
      intro j hj
      rcases List.mem_append.mp hj with hj | hj
      · exact List.mem_append_left _ (h.tracked j hj)
      · rw [List.mem_singleton.mp hj, hjob.id]
        exact List.mem_append_right _ (List.mem_singleton_self _)
    · rw [hjobs]
      exact h.tallied.enter hjob.phase hnew
    · rw [hjobs]
      have hentered := horderly.enter (attested_entering hrewrites.row rfl hjob.id hjob.phase)
      exact hentered.ledger rfl
  | steps he hsteps =>
    subst he
    exact ⟨hsteps.ids.nodup h.nodup, hsteps.tracked h.nodup h.tracked, h.tallied.steps hsteps h.nodup,
      (h.orderly.steps hsteps h.nodup).1⟩

theorem Tended.run (h : r.Tended made back) (events : List Event) :
    (r.run events).Tended (fun id => made id + r.made id events)
      (fun id => back id + r.returned id events) := by
  induction events generalizing r made back with
  | nil => exact h
  | cons e rest ih =>
    have hrest := ih (h.effect (r.next_effect e))
    simp only [Nat.add_assoc] at hrest
    exact hrest

/-! ### A run that was told to stop -/

/-- The run was told to stop in time: its job is on the way to that end, or has recorded it. -/
inductive Stopping (id : Text) (r : Runner) : Prop
  | underWay {j : Job} (hj : j ∈ r.jobs) (hid : j.id = id) (h : j.Doomed r.desk)
  | calledOff {row : RunRow} (hjobs : ∀ j ∈ r.jobs, j.id = id → ∃ o, j.phase = .leaving o)
    (hrow : r.desk.ledger.store.row? id = some row) (h : row.CalledOff)

/-- No job of the run has broken down. -/
def Unbroken (r : Runner) (id : Text) : Prop := ∀ j ∈ r.jobs, j.id = id → ¬ j.phase.Broken

instance (r : Runner) (id : Text) : Decidable (r.Unbroken id) :=
  inferInstanceAs (Decidable (∀ j ∈ r.jobs, j.id = id → ¬ j.phase.Broken))

/-- The run does not break down on the way. -/
def Smooth (r : Runner) (id : Text) : List Event → Prop
  | [] => r.Unbroken id
  | e :: rest => r.Unbroken id ∧ (r.next e).Smooth id rest

instance (r : Runner) (id : Text) (events : List Event) : Decidable (r.Smooth id events) :=
  decide r events
where
  decide (r : Runner) : (events : List Event) → Decidable (r.Smooth id events)
    | [] => inferInstanceAs (Decidable (r.Unbroken id))
    | e :: rest =>
      have := decide (r.next e) rest
      inferInstanceAs (Decidable (r.Unbroken id ∧ (r.next e).Smooth id rest))

/-- The event tells the job to stop. -/
def Event.Stops (j : Job) : Event → Prop
  | .cancel id => id = j.id
  | .cancelAll | .closeDown => True
  | .tick t => j.cancelAt.any (· ≤ t) = true
  | _ => False

theorem stopping_of_stops {j : Job} (hj : j ∈ r.jobs) (hheeds : j.phase.Heeds)
    (ht : r.Tended made back) (h : e.Stops j) : Stopping j.id (r.next e) := by
  have hactive : r.isActive j.id = true := List.contains_iff_mem.mpr (ht.tracked j hj)
  have htold : ∀ which : Job → Bool, which j = true →
      { j with cancelled := true } ∈ (r.stop which).jobs :=
    fun which hwhich => List.mem_map.mpr ⟨j, hj, if_pos hwhich⟩
  have hdoomed : ∀ d, { j with cancelled := true }.Doomed d := fun d => ⟨rfl, hheeds⟩
  cases e with
  | cancel id =>
    cases h
    have hnext : r.next (.cancel j.id) = r.stop (·.id == j.id) := by
      simp [next, cancel, hactive]
    rw [hnext]
    exact .underWay (htold _ (beq_self_eq_true _)) rfl (hdoomed _)
  | cancelAll | closeDown => exact .underWay (htold _ hactive) rfl (hdoomed _)
  | tick t => exact .underWay hj rfl ⟨Bool.or_eq_true_iff.mpr (.inr h), hheeds⟩
  | _ => exact False.elim h

theorem Stopping.stands (h : Stopping id r) (which : Job → Bool)
    (hjobs : r'.jobs = stopJobs which r.jobs) (hledger : r'.desk.ledger = r.desk.ledger)
    (hnow : r.now ≤ r'.now) : Stopping id r' := by
  cases h with
  | @underWay j hj hid hdoomed =>
    have hmem : (if which j then { j with cancelled := true } else j) ∈ r'.jobs :=
      hjobs ▸ List.mem_map_of_mem hj
    have hlater : j.Doomed r'.desk := hdoomed.later hnow
    refine .underWay hmem (by split <;> exact hid) ?_
    split
    · exact ⟨rfl, hlater.heeds⟩
    · exact hlater
  | calledOff hleaving hrow hoff =>
    refine .calledOff (fun j' hj' hid => ?_) (hledger ▸ hrow) hoff
    rw [hjobs] at hj'
    obtain ⟨j, hj, -, hsame, hphase, -⟩ := mem_stopJobs hj'
    rw [hphase]
    exact hleaving j hj (hsame.symm.trans hid)

theorem Stopping.recorded (h : Stopping id r) (ht : Orderly r.desk r.jobs) :
    ∃ row, r.desk.ledger.store.row? id = some row := by
  cases h with
  | underWay hj hid =>
    obtain ⟨row, hrow, -⟩ := ht.attested _ hj
    exact ⟨row, hid ▸ hrow⟩
  | calledOff hleaving hrow => exact ⟨_, hrow⟩

theorem stopping_of_doomed {j : Job} (hj : r.jobs[i]? = some j) (hdoomed : j.Doomed r.desk)
    (ht : r.Tended made back) (hunbroken : ¬ j.phase.Broken) (hs : Steps r i r')
    (hunbroken' : r'.Unbroken j.id) : Stopping j.id r' := by
  have hmem := List.mem_of_getElem? hj
  obtain ⟨⟨d, j'⟩, hstep, hfate⟩ := hdoomed.step hunbroken ht.orderly.willing
    (ht.orderly.attested j hmem)
  cases hs with
  | nobody hnone =>
    rw [hnone] at hj
    cases hj
  | @ended before after k desk o hk hjobs hstep' =>
    cases hj.symm.trans hk
    cases hstep.symm.trans hstep'
  | @going before after k k' desk hk hjobs hstep' =>
    cases hj.symm.trans hk
    cases hstep.symm.trans hstep'
    obtain ⟨calls, hcarries, -⟩ := Job.step_spec hstep
    have hid : j'.id = j.id := hcarries.continues.id
    have hmem' : j' ∈ before ++ j' :: after := by simp
    cases hfate with
    | doomed hheeds =>
      exact .underWay hmem' hid ⟨(Job.does_of_step hstep).stopped hdoomed.stopped, hheeds⟩
    | broken hbroken => exact absurd hbroken (hunbroken' j' hmem' hid)
    | calledOff hphase hrow hoff =>
      refine .calledOff (fun x hx hxid => ?_) (hid ▸ hrow) hoff
      rcases mem_middle.mp hx with rfl | hx
      · exact ⟨_, hphase⟩
      · exact absurd hxid (ids_apart (hjobs ▸ ht.nodup) x hx)

theorem stopping_of_leaving {j : Job} {o : RunOutcome} {row : RunRow}
    (hj : r.jobs[i]? = some j) (hphase : j.phase = .leaving o) (ht : r.Tended made back)
    (hrow : r.desk.ledger.store.row? j.id = some row) (hoff : row.CalledOff) (hs : Steps r i r') :
    Stopping j.id r' := by
  have hstep : j.step r.desk = (j.leave r.desk o, .ended o) := by
    unfold Job.step
    rw [hphase]
  cases hs with
  | nobody hnone =>
    rw [hnone] at hj
    cases hj
  | @going before after k k' desk hk hjobs hstep' =>
    cases hj.symm.trans hk
    cases hstep.symm.trans hstep'
  | @ended before after k desk out hk hjobs hstep' =>
    cases hj.symm.trans hk
    cases hstep.symm.trans hstep'
    refine .calledOff (fun x hx hxid => absurd hxid (ids_apart (hjobs ▸ ht.nodup) x hx)) ?_ hoff
    show (j.leave r.desk o).ledger.store.row? j.id = some row
    rw [(j.leave_spec r.desk o).2.1]
    exact hrow

theorem Stopping.steps (h : Stopping id r) (ht : r.Tended made back)
    (hunbroken : r.Unbroken id) (hs : Steps r i r') (hunbroken' : r'.Unbroken id) :
    Stopping id r' := by
  by_cases hother : ∀ j, r.jobs[i]? = some j → j.id ≠ id
  · -- another job takes the step
    have haside := hs.aside hother
    cases h with
    | @underWay j hj hid hdoomed =>
      exact .underWay ((haside.jobs j hid).mpr hj) hid (hdoomed.later (Int.le_of_eq hs.now.symm))
    | calledOff hleaving hrow hoff =>
      exact .calledOff (fun j hj hid => hleaving j ((haside.jobs j hid).mp hj) hid)
        (haside.row.trans hrow) hoff
  · simp only [not_forall, not_not] at hother
    obtain ⟨j, hj, rfl⟩ := hother
    have hmem := List.mem_of_getElem? hj
    cases h with
    | @underWay k hk hkid hdoomed =>
      cases List.inj_on_of_nodup_map ht.nodup hk hmem hkid
      exact stopping_of_doomed hj hdoomed ht (hunbroken j hmem rfl) hs hunbroken'
    | calledOff hleaving hrow hoff =>
      obtain ⟨o, hphase⟩ := hleaving j hmem rfl
      exact stopping_of_leaving hj hphase ht hrow hoff hs

theorem Stopping.next (h : Stopping id r) (ht : r.Tended made back) (e : Event)
    (hunbroken : r.Unbroken id) (hclock : e.Ahead r.now)
    (hunbroken' : (r.next e).Unbroken id) : Stopping id (r.next e) := by
  cases r.next_effect e with
  | stands which hjobs hledger htracked hnow =>
    refine h.stands which hjobs hledger ?_
    rcases hnow with hsame | htick
    · exact Int.le_of_eq hsame.symm
    · rw [htick] at hclock
      exact hclock
  | @enters request new _ job hcreate hjob hjobs htracked hbench =>
    obtain ⟨hnone, hrewrites⟩ := Ledger.createRun_eq_ok ht.orderly.willing hcreate
    have hnow : (r.next e).now = r.now := congrArg Bench.now hbench
    have hother : id ≠ new := by
      rintro rfl
      obtain ⟨row, hrow⟩ := h.recorded ht.orderly
      cases hrow.symm.trans hnone
    cases h with
    | @underWay j hj hjid hdoomed =>
      exact .underWay (hjobs ▸ List.mem_append_left _ hj) hjid
        (hdoomed.later (Int.le_of_eq hnow.symm))
    | calledOff hleaving hrow hoff =>
      refine .calledOff (fun j hj hjid => ?_) ((hrewrites.others id hother).trans hrow) hoff
      rw [hjobs, List.mem_append, List.mem_singleton] at hj
      rcases hj with hj | rfl
      · exact hleaving j hj hjid
      · exact absurd (hjid.symm.trans hjob.id) hother
  | steps _ hsteps => exact h.steps ht hunbroken hsteps hunbroken'

theorem Smooth.unbroken {events : List Event} (h : r.Smooth id events) :
    r.Unbroken id := by
  cases events with
  | nil => exact h
  | cons e rest => exact h.1

theorem Stopping.run {events : List Event} (h : Stopping id r)
    (ht : r.Tended made back) (hforward : r.Forward events) (hsmooth : r.Smooth id events) :
    Stopping id (r.run events) := by
  induction events generalizing r made back with
  | nil => exact h
  | cons e rest ih =>
    obtain ⟨hclock, hforward⟩ := hforward
    obtain ⟨hunbroken, hrest⟩ := hsmooth
    exact ih (h.next ht e hunbroken hclock hrest.unbroken) (ht.effect (r.next_effect e)) hforward
      hrest

/-- Every call of a run that no job works on has come back, and so has every call of a job that is
about to leave. -/
theorem Tended.returned_all (h : r.Tended made back)
    (hjobs : ∀ j ∈ r.jobs, j.id = id → ∃ o, j.phase = .leaving o) : made id = back id := by
  by_cases habsent : ∀ j ∈ r.jobs, j.id ≠ id
  · exact h.tallied.quiet id habsent
  · simp only [not_forall, not_not] at habsent
    obtain ⟨j, hj, rfl⟩ := habsent
    obtain ⟨o, hphase⟩ := hjobs j hj rfl
    have hbusy := h.tallied.busy j hj
    rw [hphase] at hbusy
    exact hbusy

/-- The store shows that the run is still under way, or that it is called off; and then nothing that
was called for it is still at work. -/
theorem Stopping.shown (h : Stopping id r) (ht : r.Tended made back) :
    ∃ row, r.desk.ledger.store.row? id = some row ∧
      (((row.standing = .pending ∨ row.standing = .running) ∧ ∃ k ∈ r.jobs, k.id = id) ∨
        (row.CalledOff ∧ made id = back id)) := by
  cases h with
  | @underWay k hk hid hdoomed =>
    obtain ⟨row, hrow, hfits⟩ := ht.orderly.attested k hk
    refine ⟨row, hid ▸ hrow, .inl ⟨?_, k, hk, hid⟩⟩
    have hheeds := hdoomed.heeds
    cases hphase : k.phase with
    | leaving o =>
      rw [hphase] at hheeds
      exact False.elim hheeds
    | starting =>
      rw [hphase] at hfits
      exact .inl hfits
    | _ =>
      rw [hphase] at hfits
      exact .inr hfits
  | @calledOff row hleaving hrow hoff => exact ⟨row, hrow, .inr ⟨hoff, ht.returned_all hleaving⟩⟩

theorem Stopping.departs (h : Stopping id r) (ht : r.Tended made back) (hlively : r.Lively) :
    ∃ rest, (∀ e ∈ rest, (∃ i, e = Event.step i) ∨ ∃ t, e = Event.tick t) ∧ r.Forward rest ∧
      ∀ k ∈ (r.run rest).jobs, k.id ≠ id := by
  by_cases habsent : ∀ k ∈ r.jobs, k.id ≠ id
  · exact ⟨[], by simp, trivial, habsent⟩
  · simp only [not_forall, not_not] at habsent
    obtain ⟨k, hk, rfl⟩ := habsent
    have hends : k.Ends r.desk := by
      cases h with
      | underWay hj hid hdoomed =>
        cases List.inj_on_of_nodup_map ht.nodup hj hk hid
        exact Job.ends_of_stopped hdoomed.stopped (hlively k hk)
      | calledOff hleaving =>
        obtain ⟨o, hphase⟩ := hleaving k hk rfl
        exact Job.ends_of_leaving hphase _
    obtain ⟨before, after, hjobs⟩ := List.append_of_mem hk
    obtain ⟨rest, hrest, hforward, hend⟩ := exists_departure hends rfl hjobs
    refine ⟨rest, fun e he => (hrest e he).imp_left fun heq => ⟨_, heq⟩, hforward, ?_⟩
    rw [hend]
    exact ids_apart (hjobs ▸ ht.nodup)

/-- **A run that is told to stop in time is cancelled**, unless it breaks down: as long as it is
under way it shows as pending or running, and then it is called off. It comes to that when its job
steps and time passes. -/
theorem cancelled_of_stopped {r : Runner} (hfresh : r.Fresh) {before after : List Event} {j : Job}
    (hj : j ∈ (r.run before).jobs) (hheeds : j.phase.Heeds)
    (hstopped : j.stopped (r.run before).desk = true ∨ ∃ e ∈ after.head?, e.Stops j)
    (hforward : (r.run before).Forward after) (hsmooth : (r.run before).Smooth j.id after) :
    (∃ row, (r.run (before ++ after)).desk.ledger.store.row? j.id = some row ∧
      (((row.standing = .pending ∨ row.standing = .running) ∧
          ∃ k ∈ (r.run (before ++ after)).jobs, k.id = j.id) ∨
        (row.CalledOff ∧ r.made j.id (before ++ after) = r.returned j.id (before ++ after)))) ∧
    ∃ rest, (∀ e ∈ rest, (∃ i, e = Event.step i) ∨ ∃ t, e = Event.tick t) ∧
      (r.run (before ++ after)).Forward rest ∧
      (∀ k ∈ (r.run (before ++ after ++ rest)).jobs, k.id ≠ j.id) ∧
      ((r.run (before ++ after)).Smooth j.id rest →
        ∃ row, (r.run (before ++ after ++ rest)).desk.ledger.store.row? j.id = some row ∧
          row.CalledOff) := by
  have hlively : r.Lively := by simp [Lively, hfresh.jobs]
  have hbefore := hfresh.tended.run before
  have htended := hfresh.tended.run (before ++ after)
  simp only [Nat.zero_add] at htended
  have hend : Stopping j.id (r.run (before ++ after)) := by
    rw [run_append]
    rcases hstopped with hstopped | ⟨e, he, hstops⟩
    · exact (Stopping.underWay hj rfl ⟨hstopped, hheeds⟩).run hbefore hforward hsmooth
    · obtain ⟨rest, rfl⟩ := List.head?_eq_some_iff.mp he
      exact (stopping_of_stops hj hheeds hbefore hstops).run (hbefore.effect (next_effect _ e))
        hforward.2 hsmooth.2
  obtain ⟨rest, hrest, hforward', hgone⟩ := hend.departs htended (hlively.run _)
  rw [← run_append] at hgone
  refine ⟨hend.shown htended, rest, hrest, hforward', hgone, fun hsmooth' => ?_⟩
  have hlast := hend.run htended hforward' hsmooth'
  obtain ⟨row, hrow, ⟨-, k, hk, hid⟩ | ⟨hoff, -⟩⟩ := hlast.shown (htended.run rest)
  · rw [← run_append] at hk
    exact absurd hid (hgone k hk)
  · rw [← run_append] at hrow
    exact ⟨row, hrow, hoff⟩

/-- A tool that is at work for a while, one engine not as long as the others. -/
def patient (i : Invocation) : Behavior :=
  let length := if i.label = Engine.pdr.name then 10 else 100
  ⟨[], some length, .done "UNSAT", fun f => f, fun f => f, fun _ => Course.giveUp 5⟩

/-- A runner with that tool, and a circuit that names a latch above the maximum of its header. -/
def patientRunner (source : Text) (ledger : Ledger) : Runner where
  desk := {
    bench := {
      now := 0, tool := fun _ _ i => patient i, randomEnding := fun _ => []
      files := ⟨[], [(["c.aag"], .file "aag 1 0 1 0 0\n4 2\n" false)]⟩ }
    ledger
    collector := ⟨source, 0⟩
    options := ⟨[], 0⟩ }
  newId n := if n = 0 then "first" else "second"

def patientRequest : Request := ⟨"c.aag", some [.pdr, .bmc], 0, []⟩

def asking : Runner := patientRunner "abc" ⟨{}, []⟩

/-- One engine has an answer, and the other has been told to stop. -/
def untilDecided : List Event :=
  [.submit patientRequest, .step 0, .tick 100, .step 0, .step 0, .tick 110, .step 0]

def fromCancelled : List Event :=
  [.cancel "first", .tick 115, .step 0, .step 0, .step 0, .step 0]

/-- A run that is told to stop when the answer is there is cancelled all the same. -/
theorem cancelled_when_decided :
    asking.reported "first" untilDecided = [⟨.unsat, .pdr, some 10⟩] ∧
      ∃ row, (asking.run (untilDecided ++ fromCancelled)).desk.ledger.store.row? "first" =
          some row ∧
        row.CalledOff ∧ asking.made "first" (untilDecided ++ fromCancelled) =
          asking.returned "first" (untilDecided ++ fromCancelled) := by
  have hjobs : ∀ j ∈ (asking.run untilDecided).jobs, j.id = "first" ∧ j.phase.Heeds := by
    decide +kernel
  have hsome : 0 < (asking.run untilDecided).jobs.length := by decide +kernel
  have hgone : (asking.run (untilDecided ++ fromCancelled)).jobs.length = 0 := by decide +kernel
  have hforward : (asking.run untilDecided).Forward fromCancelled := by decide +kernel
  have hsmooth : (asking.run untilDecided).Smooth "first" fromCancelled := by decide +kernel
  obtain ⟨j, hj⟩ := List.exists_mem_of_length_pos hsome
  obtain ⟨hid, hheeds⟩ := hjobs j hj
  obtain ⟨⟨row, hrow, hshown⟩, -⟩ := cancelled_of_stopped ⟨⟨rfl, rfl⟩, rfl, rfl⟩ hj hheeds
    (.inr ⟨.cancel "first", rfl, hid.symm⟩) hforward (hid ▸ hsmooth)
  rw [hid] at hrow hshown
  rcases hshown with ⟨-, k, hk, -⟩ | ⟨hoff, hback⟩
  · rw [List.eq_nil_of_length_eq_zero hgone] at hk
    cases hk
  · exact ⟨by decide +kernel, row, hrow, hoff, hback⟩

def reading : Runner := patientRunner "auto" ⟨{}, []⟩

def refused : Runner := patientRunner "abc" ⟨{}, [("UpdateRun", "disk full")]⟩

/-- A steady tool is not enough. A run that was told to stop in time fails when the reading of its
circuit breaks down, and stays pending when the store does not take its end. -/
theorem not_cancelled_although_stopped :
    reading.desk.bench.tool.Steady ∧ refused.desk.bench.tool.Steady ∧
    (∃ j ∈ (reading.run [.submit patientRequest, .step 0]).jobs,
      j.id = "first" ∧ j.phase.Heeds) ∧
    (reading.run [.submit patientRequest, .step 0, .cancel "first", .step 0, .tick 5, .step 0,
      .step 0, .step 0]).status? "first" = some .failed ∧
    (∃ j ∈ (refused.run [.submit patientRequest]).jobs, j.id = "first" ∧ j.phase.Heeds) ∧
    (refused.run [.submit patientRequest, .cancel "first", .step 0, .step 0]).status? "first" =
      some .pending ∧
    (refused.run [.submit patientRequest, .cancel "first", .step 0, .step 0]).jobs.length = 0 := by
  have hsteady : Tool.Steady fun _ _ i => patient i := by
    simp [Tool.Steady, patient, Course.giveUp]
  exact ⟨hsteady, hsteady, by decide +kernel, by decide +kernel, by decide +kernel,
    by decide +kernel, by decide +kernel⟩

end Runner
end Regatta
