import Regatta.Proofs.Service.Job
import Regatta.Service.Runner

/-! What happens to the runs of a runner, whatever the order of events.

Requests come in, runs are told to stop, listeners come and go, the clock is turned, and jobs take
their steps one by one in any order. A runner that is set up on a store that works (`Fresh`) goes
through all of this with its records in order (`Sound.run`). What the runner does by itself at an
instant is a series of such steps (`exists_steps_settle`). -/
namespace Regatta

theorem mem_middle {α : Type} {before after : List α} {x y : α} :
    y ∈ before ++ x :: after ↔ y = x ∨ y ∈ before ++ after := by
  rw [List.perm_middle.mem_iff, List.mem_cons]

/-- A request whose engines were read from a list of names. -/
def Request.Parsed (q : Request) : Prop :=
  ∃ names engines, Engine.parseList names = .ok engines ∧ q.engines = some engines

/-! ### A job that comes in -/

theorem Request.shown_newRun (q : Request) (id : Text) (now : Instant) :
    RunRow.Shown [.pending] (Store.encode (q.newRun id now)) :=
  ⟨.created, iff_of_false (by simp [Store.encode, Request.newRun]) (by decide)⟩

structure Job.Enters (request : Request) (id : Text) (now : Instant) (j : Job) : Prop where
  run : j.run = request.complete.newRun id now
  request : j.request = request.complete
  results : j.results = 0
  phase : j.phase = .starting

theorem Job.Enters.id {request : Request} {id : Text} {now : Instant} {j : Job}
    (h : j.Enters request id now) : j.id = id :=
  congrArg Run.id h.run

theorem Job.Enters.kept {request : Request} {id : Text} {now : Instant} {j : Job}
    (h : j.Enters request id now) (hparsed : request.Parsed) {c : Premises} (hnow : c.shows now)
    {d : Desk}
    (hrow : d.ledger.store.row? id = some (Store.encode (request.complete.newRun id now)))
    (hresults : d.ledger.store.resultsOf id = c.earlier id) (htracked : id ∈ d.tracked) :
    ∃ engines, j.Kept c engines d (Store.encode (request.complete.newRun id now)) [] := by
  obtain ⟨names, engines, hnames, hengines⟩ := hparsed
  have hasked : request.complete.engines = some engines := by
    unfold Request.complete
    split <;> exact hengines
  have hlisted : (Store.encode (request.complete.newRun id now)).engines =
      Store.joinEngines engines := by
    show Store.joinEngines (request.complete.engines.getD []) = _
    rw [hasked]
    rfl
  have hstarted : j.run.startedAt = none := by
    rw [h.run]
    rfl
  refine ⟨engines, ⟨⟨names, hnames⟩, h.request ▸ hasked, h.id ▸ hrow,
    ⟨hlisted, ⟨.none, rfl, .inl rfl⟩, ⟨now, hnow, rfl⟩, ?_, ?_⟩, ?_, h.results, h.id ▸ htracked,
    ?_, ?_⟩, ?_⟩
  · exact fun _ hs => by cases hs
  · exact fun _ hs => by cases hs
  · rw [h.id, hresults]
    exact .nil
  · rw [hstarted]
    rfl
  · rw [hstarted]
    exact fun _ hs => by cases hs
  · unfold Phased
    rw [h.phase]
    exact ⟨rfl, rfl⟩

namespace Runner

/-! ### Events -/

inductive Event where
  | submit (request : Request)
  | execute (request : Request) (cancelAt : Option Instant)
  | cancel (id : Text)
  | cancelAll
  | closeDown
  | tick (t : Instant)
  | step (i : Nat)
  | subscribe (id : Text)
  | unsubscribe (s : Subscription)
  | drain (s : Subscription) (limit : Option Nat)

def stepJob (r : Runner) (i : Nat) : Runner :=
  match r.jobs[i]? with
  | none => r
  | some j =>
    match j.step r.desk with
    | (desk, .going j') => { r with desk, jobs := r.jobs.set i j' }
    | (desk, .ended o) =>
      { r with desk, jobs := r.jobs.eraseIdx i
               outcomes := r.outcomes ++ if j.submitted then [] else [(o.id, o)] }

def withBroker (r : Runner) (broker : Broker) : Runner := { r with desk := { r.desk with broker } }

def next (r : Runner) : Event → Runner
  | .submit request => (r.submit request).1
  | .execute request cancelAt => (r.begin request cancelAt).1
  | .cancel id => (r.cancel id).getD r
  | .cancelAll => r.cancelAll
  | .closeDown => r.closeDown
  | .tick t => r.setNow t
  | .step i => r.stepJob i
  | .subscribe id => r.withBroker (r.desk.broker.subscribe id).1
  | .unsubscribe s => r.withBroker (r.desk.broker.unsubscribe s)
  | .drain s limit => r.withBroker (r.desk.broker.drain s limit).1

def run (r : Runner) : List Event → Runner
  | [] => r
  | e :: rest => (r.next e).run rest

theorem run_append (r : Runner) (a b : List Event) : r.run (a ++ b) = (r.run a).run b := by
  induction a generalizing r with
  | nil => rfl
  | cons e rest ih => exact ih _

def status? (r : Runner) (id : Text) : Option Status :=
  (r.desk.ledger.store.row? id).map RunRow.standing

def statuses (r : Runner) (id : Text) : List Event → List Status
  | [] => []
  | e :: rest => ((r.next e).status? id).toList ++ (r.next e).statuses id rest

/-- The results that an event reports for a run. -/
def reports (r : Runner) (id : Text) : Event → List EngineResult
  | .step i =>
    match r.jobs[i]? with
    | some j => if j.id = id then j.reports r.desk else []
    | none => []
  | _ => []

/-- The results that are reported for a run, in the order in which its race looks at them. -/
def reported (r : Runner) (id : Text) : List Event → List EngineResult
  | [] => []
  | e :: rest => r.reports id e ++ (r.next e).reported id rest

/-- What is asked of an event: engines come from a list of names, and the clock shows a time that is
allowed. -/
def Event.Proper (P : Instant → Prop) : Event → Prop
  | .submit request | .execute request _ => request.Parsed
  | .tick t => P t
  | _ => True

/-! ### What an event does -/

variable {r r' : Runner} {before after : List Job} {j : Job}

theorem stepJob_going {j' : Job} {desk : Desk}
    (hjobs : r.jobs = before ++ j :: after) (hstep : j.step r.desk = (desk, .going j')) :
    r.stepJob before.length = { r with desk, jobs := before ++ j' :: after } := by
  have hj : r.jobs[before.length]? = some j := by simp [hjobs]
  unfold stepJob
  rw [hj]
  dsimp only
  rw [hstep]
  simp [hjobs]

theorem stepJob_ended {desk : Desk} {o : RunOutcome}
    (hjobs : r.jobs = before ++ j :: after) (hstep : j.step r.desk = (desk, .ended o)) :
    r.stepJob before.length = { r with
      desk, jobs := before ++ after
      outcomes := r.outcomes ++ if j.submitted then [] else [(o.id, o)] } := by
  have hj : r.jobs[before.length]? = some j := by simp [hjobs]
  unfold stepJob
  rw [hj]
  dsimp only
  rw [hstep]
  simp [hjobs, List.eraseIdx_append_of_length_le]

/-- What a step of the job with this index makes of a runner. -/
inductive Steps (r : Runner) (i : Nat) : Runner → Prop
  | nobody (hnone : r.jobs[i]? = none) : Steps r i r
  | going {before after : List Job} {j j' : Job} {desk : Desk} (hj : r.jobs[i]? = some j)
    (hjobs : r.jobs = before ++ j :: after) (hstep : j.step r.desk = (desk, .going j')) :
    Steps r i { r with desk, jobs := before ++ j' :: after }
  | ended {before after : List Job} {j : Job} {desk : Desk} {o : RunOutcome}
    (hj : r.jobs[i]? = some j) (hjobs : r.jobs = before ++ j :: after)
    (hstep : j.step r.desk = (desk, .ended o)) :
    Steps r i { r with
      desk, jobs := before ++ after
      outcomes := r.outcomes ++ if j.submitted then [] else [(o.id, o)] }

theorem stepJob_steps (r : Runner) (i : Nat) : Steps r i (r.stepJob i) := by
  cases hj : r.jobs[i]? with
  | none =>
    have hstay : r.stepJob i = r := by simp [stepJob, hj]
    rw [hstay]
    exact .nobody hj
  | some j =>
    obtain ⟨before, after, hsplit, rfl⟩ := exists_split hj
    cases hstep : j.step r.desk with
    | mk desk progress =>
    cases progress with
    | going j' =>
      rw [stepJob_going hsplit hstep]
      exact .going hj hsplit hstep
    | ended o =>
      rw [stepJob_ended hsplit hstep]
      exact .ended hj hsplit hstep

/-- Tells those jobs to stop that `which` picks. -/
def stopJobs (which : Job → Bool) (jobs : List Job) : List Job :=
  jobs.map fun j => if which j then { j with cancelled := true } else j

theorem mem_stopJobs {which : Job → Bool} {jobs : List Job} {j' : Job}
    (h : j' ∈ stopJobs which jobs) :
    ∃ j ∈ jobs, j' = (if which j then { j with cancelled := true } else j) ∧ j'.id = j.id ∧
      j'.phase = j.phase ∧ j'.submitted = j.submitted := by
  obtain ⟨j, hj, rfl⟩ := List.mem_map.mp h
  refine ⟨j, hj, rfl, ?_⟩
  split <;> exact ⟨rfl, rfl, rfl⟩

theorem ids_stopJobs (which : Job → Bool) (jobs : List Job) :
    (stopJobs which jobs).map Job.id = jobs.map Job.id := by
  unfold stopJobs
  rw [List.map_map]
  refine List.map_congr_left fun j _ => ?_
  show (if which j then { j with cancelled := true } else j).id = j.id
  split <;> rfl

theorem stopJobs_none (jobs : List Job) : stopJobs (fun _ => false) jobs = jobs := by
  simp [stopJobs]

/-- What an event makes of a runner. -/
inductive Effect (r : Runner) (e : Event) (r' : Runner) : Prop
  /-- Jobs are told to stop, the clock is turned, or nothing happens that concerns a job. -/
  | stands (which : Job → Bool) (hjobs : r'.jobs = stopJobs which r.jobs)
    (hledger : r'.desk.ledger = r.desk.ledger) (htracked : r'.desk.tracked = r.desk.tracked)
    (hnow : r'.now = r.now ∨ e = .tick r'.now) (hevent : ∀ i, e ≠ .step i)
    (hcomplaints : r'.desk.bench.complaints = r.desk.bench.complaints)
    (hclosed : ∀ id, (r.desk.broker.topic id).closed = true →
      (r'.desk.broker.topic id).closed = true)
  /-- A run is recorded, and a job for it comes in. -/
  | enters {request : Request} {id : Text} {interrupted : Bool} {job : Job}
    (hcreate : r.desk.ledger.createRun interrupted (request.complete.newRun id r.now) =
      .ok r'.desk.ledger)
    (hjob : job.Enters request id r.now) (hjobs : r'.jobs = r.jobs ++ [job])
    (htracked : r'.desk.tracked = r.desk.tracked ++ [id]) (hbench : r'.desk.bench = r.desk.bench)
    (hevent : ∀ i, e ≠ .step i) (hbroker : r'.desk.broker = r.desk.broker)
    (hproper : ∀ P, e.Proper P → request.Parsed)
  | steps {i : Nat} (he : e = .step i) (h : Steps r i r')

theorem next_effect (r : Runner) (e : Event) : Effect r e (r.next e) := by
  have hstill {e : Event} {r' : Runner} (hjobs : r'.jobs = r.jobs)
      (hdesk : ∃ broker, r'.desk = { r.desk with broker } ∧ ∀ id,
        (r.desk.broker.topic id).closed = true → (broker.topic id).closed = true)
      (hevent : ∀ i, e ≠ .step i) : Effect r e r' := by
    obtain ⟨broker, hdesk, hclosed⟩ := hdesk
    exact .stands (fun _ => false) (hjobs.trans (stopJobs_none _).symm) (congrArg (·.ledger) hdesk)
      (congrArg (·.tracked) hdesk) (.inl (congrArg (·.bench.now) hdesk)) hevent
      (congrArg (·.bench.complaints) hdesk) (hdesk ▸ hclosed)
  have hsame : ∃ broker, r.desk = { r.desk with broker } ∧ ∀ id,
      (r.desk.broker.topic id).closed = true → (broker.topic id).closed = true :=
    ⟨_, rfl, fun _ hc => hc⟩
  cases e with
  | submit request =>
    show Effect r _ (r.submit request).1
    unfold submit
    split
    · exact hstill rfl hsame (by simp)
    · dsimp only
      split
      · exact hstill rfl hsame (by simp)
      · rename_i ledger hcreate
        exact .enters hcreate ⟨rfl, rfl, rfl, rfl⟩ rfl rfl rfl (by simp) rfl fun _ h => h
  | execute request cancelAt =>
    show Effect r _ (r.begin request cancelAt).1
    unfold begin
    dsimp only
    split
    · exact hstill rfl hsame (by simp)
    · rename_i ledger hcreate
      exact .enters hcreate ⟨rfl, rfl, rfl, rfl⟩ rfl rfl rfl (by simp) rfl fun _ h => h
  | cancel id =>
    show Effect r _ ((r.cancel id).getD r)
    unfold cancel
    split
    · exact .stands (·.id == id) rfl rfl rfl (.inl rfl) (by simp) rfl fun _ hc => hc
    · exact hstill rfl hsame (by simp)
  | cancelAll | closeDown =>
    exact .stands (fun j => r.isActive j.id) rfl rfl rfl (.inl rfl) (by simp) rfl fun _ hc => hc
  | tick t =>
    exact .stands (fun _ => false) (stopJobs_none _).symm rfl rfl (.inr rfl) (by simp) rfl
      fun _ hc => hc
  | step i => exact .steps rfl (r.stepJob_steps i)
  | subscribe id =>
    exact hstill rfl ⟨_, rfl, fun _ hc => Broker.closed_subscribe hc id⟩ (by simp)
  | unsubscribe s =>
    exact hstill rfl ⟨_, rfl, fun _ hc => Broker.closed_unsubscribe hc s⟩ (by simp)
  | drain s limit => exact hstill rfl ⟨_, rfl, fun _ hc => hc⟩ (by simp)

/-! ### Records in order -/

/-- A runner that has just been set up, on a store that works. -/
structure Fresh (r : Runner) : Prop where
  willing : r.desk.ledger.Willing
  jobs : r.jobs = []
  tracked : r.desk.tracked = []

/-- A run that no job works on: it was not recorded yet, or it has ended. -/
inductive Resting (c : Premises) (id : Text) (hist : List Status) (seen : List EngineResult)
    (d : Desk) : Prop
  | unrecorded (hrow : d.ledger.store.row? id = none)
    (hresults : d.ledger.store.resultsOf id = c.earlier id) (hhist : hist = []) (hseen : seen = [])
  | archived {engines : List Engine} {row : RunRow} (harchived : d.Archived c engines id row seen)
    (hshown : row.Shown hist)

/-- The records of a runner are in order: every job is kept, and so is every new run that no job
works on. `hist` and `seen` say for each run which statuses it has shown and which results were
reported for it. -/
structure Sound (c : Premises) (r₀ : Runner) (hist : Text → List Status)
    (seen : Text → List EngineResult) (r : Runner) : Prop where
  willing : r.desk.ledger.Willing
  now : c.shows r.desk.now
  complaints : r.desk.bench.complaints = r₀.desk.bench.complaints
  nodup : (r.jobs.map Job.id).Nodup
  old : ∀ id, r.desk.ledger.store.row? id = none → r₀.desk.ledger.store.row? id = none
  new : ∀ j ∈ r.jobs, r₀.desk.ledger.store.row? j.id = none
  jobs : ∀ j ∈ r.jobs, ∃ engines row,
    j.Kept c engines r.desk row (seen j.id) ∧ row.Shown (hist j.id)
  others : ∀ id, r₀.desk.ledger.store.row? id = none → (∀ j ∈ r.jobs, j.id ≠ id) →
    Resting c id (hist id) (seen id) r.desk

def premises (r : Runner) (P : Instant → Prop) : Premises := ⟨P, r.desk.ledger.store.resultsOf⟩

theorem Fresh.sound {r : Runner} (h : r.Fresh) {P : Instant → Prop} (hnow : P r.desk.now) :
    Sound (r.premises P) r (fun _ => []) (fun _ => []) r where
  willing := h.willing
  now := hnow
  complaints := rfl
  nodup := by simp [h.jobs]
  old _ hrow := hrow
  new j hj := by simp [h.jobs] at hj
  jobs j hj := by simp [h.jobs] at hj
  others _ hrow _ := .unrecorded hrow rfl rfl rfl

/-- What a run has shown after one more event. -/
def shown (r : Runner) (hist : Text → List Status) (id : Text) : List Status :=
  hist id ++ (r.status? id).toList

variable {c : Premises} {r₀ : Runner} {hist : Text → List Status}
  {seen : Text → List EngineResult} {id : Text} {request : Request}

theorem shown_of_row {row : RunRow} (h : r.desk.ledger.store.row? id = some row) :
    r.shown hist id = hist id ++ [row.standing] := by
  simp [shown, status?, h]

theorem Resting.spared (h : Resting c id (hist id) (seen id) r.desk)
    (hs : r.desk.Spares id r'.desk) : Resting c id (r'.shown hist id) (seen id) r'.desk := by
  cases h with
  | unrecorded hrow hresults hhist hseen =>
    have hrow' := hs.row.trans hrow
    refine .unrecorded hrow' (hs.results.trans hresults) ?_ hseen
    simp [shown, status?, hrow', hhist]
  | archived harchived hshown =>
    have harchived' := harchived.spared hs
    refine .archived harchived' ?_
    rw [shown_of_row harchived'.recorded]
    exact hshown.stays

namespace Sound
variable (h : Sound c r₀ hist seen r)
include h

theorem quiet (hspares : ∀ id, r.desk.Spares id r'.desk) (hwilling : r'.desk.ledger.Willing)
    (hnow : c.shows r'.desk.now) (hcomplaints : r'.desk.bench.complaints = r.desk.bench.complaints)
    {which : Job → Bool} (hjobs : r'.jobs = stopJobs which r.jobs) :
    Sound c r₀ (r'.shown hist) seen r' := by
  have hids : r'.jobs.map Job.id = r.jobs.map Job.id := by
    rw [hjobs, ids_stopJobs]
  refine ⟨hwilling, hnow, hcomplaints.trans h.complaints, hids ▸ h.nodup, fun id hrow => ?_,
    fun j' hj' => ?_, fun j' hj' => ?_, fun id hnew hnone => ?_⟩
  · exact h.old id ((hspares id).row.symm.trans hrow)
  · rw [hjobs] at hj'
    obtain ⟨j, hj, -, hid, -⟩ := mem_stopJobs hj'
    rw [hid]
    exact h.new j hj
  · rw [hjobs] at hj'
    obtain ⟨j, hj, hsame, hid, -⟩ := mem_stopJobs hj'
    obtain ⟨engines, row, hkept, hshown⟩ := h.jobs j hj
    have hkept' := hkept.spared (hspares j.id)
    rw [hid]
    refine ⟨engines, row, ?_, ?_⟩
    · rw [hsame]
      split
      · exact hkept'.stop
      · exact hkept'
    · rw [shown_of_row hkept'.filing.recorded]
      exact hshown.stays
  · refine (h.others id hnew fun j hj heq => ?_).spared (hspares id)
    have hmem : id ∈ r'.jobs.map Job.id := hids ▸ heq ▸ List.mem_map_of_mem hj
    obtain ⟨k, hk, hkid⟩ := List.mem_map.mp hmem
    exact hnone k hk hkid

theorem recorded (hrow : r.desk.ledger.store.row? id = none) : ∀ j ∈ r.jobs, j.id ≠ id := by
  rintro j hj rfl
  obtain ⟨engines, row, hkept, -⟩ := h.jobs j hj
  rw [hkept.filing.recorded] at hrow
  cases hrow

/-- An event at the desk of one run: the other runs are as they were, and this one is in order. -/
theorem change {seen' : Text → List EngineResult} (hserves : r.desk.Serves id r'.desk)
    (hseen : ∀ other, other ≠ id → seen' other = seen other)
    (hjobs : ∀ j : Job, j.id ≠ id → (j ∈ r'.jobs ↔ j ∈ r.jobs))
    (hnodup : (r'.jobs.map Job.id).Nodup) (hnew : r₀.desk.ledger.store.row? id = none)
    (hrecorded : r'.desk.ledger.store.row? id ≠ none)
    (hone : ∀ j ∈ r'.jobs, j.id = id → ∃ engines row,
      j.Kept c engines r'.desk row (seen' id) ∧ row.Shown (r'.shown hist id))
    (hrest : (∀ j ∈ r'.jobs, j.id ≠ id) → Resting c id (r'.shown hist id) (seen' id) r'.desk) :
    Sound c r₀ (r'.shown hist) seen' r' where
  willing := hserves.willing
  now := hserves.now ▸ h.now
  complaints := hserves.calm.complaints.trans h.complaints
  nodup := hnodup
  old other hnone := by
    have hne : other ≠ id := by
      rintro rfl
      exact hrecorded hnone
    exact h.old other ((hserves.others other hne).row.symm.trans hnone)
  new j hj := by
    by_cases heq : j.id = id
    · rw [heq]
      exact hnew
    · exact h.new j ((hjobs j heq).mp hj)
  jobs j hj := by
    by_cases heq : j.id = id
    · rw [heq]
      exact hone j hj heq
    · obtain ⟨engines, row, hkept, hshown⟩ := h.jobs j ((hjobs j heq).mp hj)
      have hkept' := hkept.spared (hserves.others j.id heq)
      rw [hseen j.id heq, shown_of_row hkept'.filing.recorded]
      exact ⟨engines, row, hkept', hshown.stays⟩
  others other hother habsent := by
    by_cases heq : other = id
    · rw [heq]
      exact hrest (heq ▸ habsent)
    · rw [hseen other heq]
      refine (h.others other hother fun j hj hid => ?_).spared (hserves.others other heq)
      exact habsent j ((hjobs j (hid ▸ heq)).mpr hj) hid

end Sound

theorem nodup_enter {jobs : List Job} (h : (jobs.map Job.id).Nodup) {job : Job}
    (hnew : ∀ j ∈ jobs, j.id ≠ job.id) : ((jobs ++ [job]).map Job.id).Nodup := by
  rw [List.map_append, List.map_singleton, List.nodup_append]
  refine ⟨h, by simp, fun a ha b hb => ?_⟩
  obtain ⟨j, hj, rfl⟩ := List.mem_map.mp ha
  rw [List.mem_singleton.mp hb]
  exact hnew j hj

theorem Sound.admit (h : Sound c r₀ hist seen r) (hparsed : request.Parsed)
    {interrupted : Bool}
    (hcreate : r.desk.ledger.createRun interrupted (request.complete.newRun id r.now) =
      .ok r'.desk.ledger)
    {job : Job} (hjob : job.Enters request id r.now) (hbench : r'.desk.bench = r.desk.bench)
    (hbroker : r'.desk.broker = r.desk.broker)
    (htracked : r'.desk.tracked = r.desk.tracked ++ [id]) (hjobs : r'.jobs = r.jobs ++ [job]) :
    Sound c r₀ (r'.shown hist) seen r' := by
  obtain ⟨hnone, hrewrites⟩ := Ledger.createRun_eq_ok h.willing hcreate
  change r.desk.ledger.store.row? id = none at hnone
  change r.desk.ledger.Rewrites id _ _ at hrewrites
  have hfresh := h.recorded hnone
  -- nothing was known of the new run
  obtain ⟨hresults, hhist, hseen⟩ : r.desk.ledger.store.resultsOf id = c.earlier id ∧
      hist id = [] ∧ seen id = [] := by
    cases h.others id (h.old id hnone) hfresh with
    | unrecorded _ hresults hhist hseen => exact ⟨hresults, hhist, hseen⟩
    | archived harchived =>
      rw [harchived.recorded] at hnone
      cases hnone
  have hserves : r.desk.Serves id r'.desk := by
    refine ⟨hbench ▸ .refl _, hrewrites.willing, fun other hne => ⟨hrewrites.others other hne,
      congrArg (List.filter _) hrewrites.results, by simp [htracked, hne], ?_⟩⟩
    rw [hbroker]
    exact fun hc => hc
  refine h.change hserves (fun _ _ => rfl) (fun j hne => ?_) ?_ (h.old id hnone) ?_
    (fun j hj hid => ?_) fun habsent => absurd hjob.id (habsent job (by simp [hjobs]))
  · have hold : j ≠ job := fun heq => hne (heq ▸ hjob.id)
    simp [hjobs, hold]
  · rw [hjobs]
    exact nodup_enter h.nodup (hjob.id.symm ▸ hfresh)
  · rw [hrewrites.row]
    exact Option.some_ne_none _
  · rw [hjobs, List.mem_append, List.mem_singleton] at hj
    rcases hj with hj | rfl
    · exact absurd hid (hfresh j hj)
    · obtain ⟨engines, hkept⟩ := hjob.kept hparsed h.now hrewrites.row
        ((congrArg (List.filter _) hrewrites.results).trans hresults) (by simp [htracked])
      rw [hseen, shown_of_row hrewrites.row, hhist]
      exact ⟨engines, _, hkept, request.complete.shown_newRun id r.now⟩

/-! ### A job that takes a step -/

theorem reports_step {i : Nat} (hj : r.jobs[i]? = some j) (id : Text) :
    r.reports id (.step i) = if j.id = id then j.reports r.desk else [] := by
  simp [reports, hj]

theorem ids_apart {before after : List Job} {j : Job}
    (h : ((before ++ j :: after).map Job.id).Nodup) : ∀ k ∈ before ++ after, k.id ≠ j.id := by
  rw [List.map_append, List.map_cons, List.perm_middle.nodup_iff, List.nodup_cons,
    ← List.map_append] at h
  exact fun k hk heq => h.1 (heq ▸ List.mem_map_of_mem hk)

theorem Sound.steps (h : Sound c r₀ hist seen r) {i : Nat} (hs : Steps r i r') :
    Sound c r₀ (r'.shown hist) (fun id => seen id ++ r.reports id (.step i)) r' := by
  cases hs with
  | nobody hnone =>
    have hnothing : ∀ id, r.reports id (.step i) = [] := by simp [reports, hnone]
    simp only [hnothing, List.append_nil]
    exact h.quiet (fun id => .refl id _) h.willing h.now rfl (stopJobs_none _).symm
  | @going before after j j' desk hj hjobs hstep =>
    have hmem := List.mem_of_getElem? hj
    have hapart := ids_apart (hjobs ▸ h.nodup)
    obtain ⟨engines, row, hkept, hshown⟩ := h.jobs j hmem
    obtain ⟨hserves, row', hfollows, hid, hkept'⟩ := hkept.step h.willing h.now hstep
    have hrow := hkept'.filing.recorded
    rw [hid] at hrow
    refine h.change hserves (fun id hne => ?_) (fun k hne => ?_) ?_ (h.new j hmem)
      (hrow.symm ▸ Option.some_ne_none _) (fun k hk hkid => ?_)
      fun habsent => absurd hid (habsent j' (by simp))
    · rw [reports_step hj, if_neg hne.symm, List.append_nil]
    · have hold : k ≠ j := fun heq => hne (heq ▸ rfl)
      have hmade : k ≠ j' := fun heq => hne (heq ▸ hid)
      simp [hjobs, hold, hmade]
    · show ((before ++ j' :: after).map Job.id).Nodup
      rw [List.map_append, List.map_cons, hid, ← List.map_cons, ← List.map_append, ← hjobs]
      exact h.nodup
    · rcases mem_middle.mp hk with rfl | hk
      · rw [reports_step hj, if_pos rfl, shown_of_row hrow]
        exact ⟨engines, row', hkept', hshown.next hfollows⟩
      · exact absurd hkid (hapart k hk)
  | @ended before after j desk o hj hjobs hstep =>
    have hmem := List.mem_of_getElem? hj
    have hapart := ids_apart (hjobs ▸ h.nodup)
    obtain ⟨engines, row, hkept, hshown⟩ := h.jobs j hmem
    obtain ⟨hserves, row', hfollows, hend⟩ := hkept.step h.willing h.now hstep
    refine h.change hserves (fun id hne => ?_) (fun k hne => ?_) ?_ (h.new j hmem)
      (hend.recorded.symm ▸ Option.some_ne_none _) (fun k hk hkid => absurd hkid (hapart k hk))
      fun _ => ?_
    · rw [reports_step hj, if_neg hne.symm, List.append_nil]
    · have hold : k ≠ j := fun heq => hne (heq ▸ rfl)
      simp [hjobs, hold]
    · have hnodup := h.nodup
      rw [hjobs, List.map_append, List.map_cons] at hnodup
      show ((before ++ after).map Job.id).Nodup
      rw [List.map_append]
      exact hnodup.sublist (List.Sublist.append_left (List.sublist_cons_self _ _) _)
    · rw [reports_step hj, if_pos rfl]
      refine .archived hend ?_
      rw [shown_of_row hend.recorded]
      exact hshown.next hfollows

/-! ### All events -/

/-- All events but a step of a job report nothing. -/
theorem reports_of_ne {e : Event} (h : ∀ i, e ≠ .step i) (id : Text) : r.reports id e = [] := by
  cases e with
  | step i => exact absurd rfl (h i)
  | _ => rfl

theorem Sound.next (h : Sound c r₀ hist seen r) {e : Event} (he : e.Proper c.shows) :
    Sound c r₀ ((r.next e).shown hist) (fun id => seen id ++ r.reports id e) (r.next e) := by
  have heffect := r.next_effect e
  generalize r.next e = r' at heffect ⊢
  cases heffect with
  | stands which hjobs hledger htracked hnow hevent hcomplaints hclosed =>
    simp only [reports_of_ne hevent, List.append_nil]
    have hspares (id : Text) : r.desk.Spares id r'.desk :=
      ⟨by rw [hledger], by rw [hledger], by rw [htracked], hclosed id⟩
    refine h.quiet hspares (hledger ▸ h.willing) ?_ hcomplaints hjobs
    rcases hnow with hsame | rfl
    · show c.shows r'.now
      rw [hsame]
      exact h.now
    · exact he
  | enters hcreate hjob hjobs htracked hbench hevent hbroker hproper =>
    simp only [reports_of_ne hevent, List.append_nil]
    exact h.admit (hproper _ he) hcreate hjob hbench hbroker htracked hjobs
  | steps he hs =>
    subst he
    exact h.steps hs

/-- **The records stay in order**, whatever happens. -/
theorem Sound.run (h : Sound c r₀ hist seen r) {events : List Event}
    (hproper : ∀ e ∈ events, e.Proper c.shows) :
    Sound c r₀ (fun id => hist id ++ r.statuses id events)
      (fun id => seen id ++ r.reported id events) (r.run events) := by
  induction events generalizing r hist seen with
  | nil =>
    simp only [statuses, reported, List.append_nil]
    exact h
  | cons e rest ih =>
    have hrest := ih (h.next (hproper e (List.mem_cons_self ..)))
      fun e' he' => hproper e' (List.mem_cons_of_mem _ he')
    simp only [shown, List.append_assoc] at hrest
    exact hrest

/-! ### What the runner does by itself -/

/-- What is left of a runner when one of its jobs has come this far. -/
def afterJob (r : Runner) (before after : List Job) (submitted : Bool) (desk : Desk) :
    Progress Job RunOutcome → Runner
  | .going j => { r with desk, jobs := before ++ j :: after }
  | .ended o => { r with
      desk, jobs := before ++ after
      outcomes := r.outcomes ++ if submitted then [] else [(o.id, o)] }

/-- What a job does at an instant is a series of steps. -/
theorem exists_steps_settleJob (fuel : Nat) {r : Runner} (hjobs : r.jobs = before ++ j :: after) :
    ∃ n, r.run (List.replicate n (.step before.length)) =
      r.afterJob before after j.submitted (j.settle fuel r.desk).1 (j.settle fuel r.desk).2 := by
  induction fuel generalizing j r with
  | zero =>
    refine ⟨0, ?_⟩
    show r = { r with jobs := before ++ j :: after }
    rw [← hjobs]
  | succ fuel ih =>
    unfold Job.settle
    cases hstep : j.step r.desk with
    | mk desk progress =>
    cases progress with
    | ended o => exact ⟨1, stepJob_ended hjobs hstep⟩
    | going j' =>
      have hone := stepJob_going hjobs hstep
      dsimp only
      split
      · obtain ⟨n, hn⟩ := @ih j' (r.stepJob before.length) (by rw [hone])
        refine ⟨n + 1, ?_⟩
        show (r.stepJob before.length).run _ = _
        rw [hn, hone, (Job.does_of_step hstep).continues.submitted]
        cases (j'.settle fuel desk).2 <;> rfl
      · exact ⟨1, hone⟩

theorem exists_steps_advanceJobs (rest : List Job) {r : Runner} (hjobs : r.jobs = before ++ rest) :
    ∃ events, (∀ e ∈ events, ∃ i, e = Event.step i) ∧ r.run events = { r with
      desk := (advanceJobs r.desk rest).1
      jobs := before ++ (advanceJobs r.desk rest).2.1
      outcomes := r.outcomes ++ (advanceJobs r.desk rest).2.2.map fun o => (o.id, o) } := by
  induction rest generalizing before r with
  | nil =>
    refine ⟨[], by simp, ?_⟩
    show r = { r with jobs := before ++ [], outcomes := r.outcomes ++ [] }
    rw [← hjobs, List.append_nil]
  | cons j rest ih =>
    obtain ⟨n, hn⟩ := exists_steps_settleJob j.depth hjobs
    have hsteps : ∀ e ∈ List.replicate n (Event.step before.length), ∃ i, e = .step i :=
      fun e he => ⟨_, List.eq_of_mem_replicate he⟩
    unfold advanceJobs Job.advance
    cases hsettle : j.settle j.depth r.desk with
    | mk desk progress =>
    rw [hsettle] at hn
    -- the job makes its steps first, and the others follow from where it leaves the runner
    cases progress with
    | going j' =>
      obtain ⟨events, hevents, hrun⟩ := @ih (before ++ [j'])
        (r.afterJob before rest j.submitted desk (.going j')) (by simp [afterJob])
      refine ⟨List.replicate n (.step before.length) ++ events, ?_, ?_⟩
      · exact fun e he => (List.mem_append.mp he).elim (hsteps e) (hevents e)
      · rw [run_append, hn, hrun]
        simp [afterJob]
    | ended o =>
      obtain ⟨events, hevents, hrun⟩ := @ih before
        (r.afterJob before rest j.submitted desk (.ended o)) (by simp [afterJob])
      refine ⟨List.replicate n (.step before.length) ++ events, ?_, ?_⟩
      · exact fun e he => (List.mem_append.mp he).elim (hsteps e) (hevents e)
      · rw [run_append, hn, hrun]
        cases hsub : j.submitted <;> simp [afterJob]

/-- **What the runner does by itself at an instant is a series of steps of its jobs.** -/
theorem exists_steps_settle (r : Runner) :
    ∃ events, (∀ e ∈ events, ∃ i, e = Event.step i) ∧ r.run events = r.settle :=
  exists_steps_advanceJobs r.jobs (List.nil_append _).symm

end Runner
end Regatta
