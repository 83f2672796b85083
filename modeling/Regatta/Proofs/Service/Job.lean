import Regatta.Proofs.Calls
import Regatta.Proofs.Log.Topics
import Regatta.Proofs.Service.Record

/-! What a job does to the desk and keeps in the store, from its start to its end.

A job works at the desk on its own run only (`Desk.Serves`). At any time the store agrees with the
phase the job is in and with the results that its verification has reported (`Job.Kept`);
`Kept.step` says that every step keeps to that, whatever the tool does and whenever the job is told
to stop, and that the last step leaves a finished record (`Desk.Archived`). -/
namespace Regatta

/-! ### What a step can do -/

namespace Job

/-- What a job does once the gathering of figures, or its verification, has come this far. -/
def Phase.gathering : Progress Circuit.Collection Circuit.Collected → Phase
  | .going c => .collecting c
  | .ended x => .collected x

@[inherit_doc Phase.gathering]
def Phase.proving : Progress Verification Verification.Outcome → Phase
  | .going v => .verifying v
  | .ended o => .verified o

/-- Nothing is in flight, and the end is not recorded yet. -/
def Phase.Idle : Phase → Prop
  | .starting | .collected _ | .verified _ => True
  | .collecting _ | .verifying _ | .leaving _ => False

/-- The code that runs the tool or reads the circuit broke down. -/
def Phase.Broken : Phase → Prop
  | .collected (.breakdown _) | .verified (.breakdown _) => True
  | _ => False

def started (j : Job) (now : Instant) : Job :=
  { j with run := { j.run with status := .running, startedAt := some now } }

def noted (j : Job) (s : Option Stats) : Job :=
  { j with stats := s, run := { j.run with
    inputs := s.map fun (x : Stats) => (x.inputs : Int)
    latches := s.map fun (x : Stats) => (x.latches : Int)
    ands := s.map fun (x : Stats) => (x.ands : Int) } }

/-- **What a step of a job can do at the desk.** The store has its say at the start of a run only:
a job that gives up makes no complaint unless the store does not let the run start. -/
inductive Does (j : Job) (d : Desk) : Desk × Progress Job RunOutcome → Prop
  | givesUp {bench : Bench} {status : Status} {error : Text} {o : RunOutcome}
    (hidle : j.phase.Idle) (hmakes : Bench.Makes [] d.bench bench)
    (hcalm : (j.phase = .starting → ∃ l, d.ledger.updateStatus d.now j.id .running = .ok l) →
      Bench.Calm d.bench bench)
    (hstatus : status = .failed ∨ status = .cancelled) (herror : error ≠ [])
    (hstopped : j.stopped d = true → status = .cancelled ∨ j.phase.Broken) :
    Does j d (j.finish { d with bench } status error, .going { j with phase := .leaving o })
  | starts {before bench : Bench} {ledger : Ledger}
    {p : Progress Circuit.Collection Circuit.Collected} (hphase : j.phase = .starting)
    (hstopped : j.stopped d = false)
    (hupdate : d.ledger.updateStatus d.now j.id .running = .ok ledger)
    (hworks : Bench.Works [] d.bench before)
    (hstart : Circuit.Collection.start before d.collector j.request.dataset = (bench, p)) :
    Does j d ({ d with bench, ledger }, .going { j.started d.now with phase := .gathering p })
  | gathers {c : Circuit.Collection} {bench : Bench}
    {p : Progress Circuit.Collection Circuit.Collected} (hphase : j.phase = .collecting c)
    (hadvance : c.advance d.bench (j.stopped d) = (bench, p)) :
    Does j d ({ d with bench }, .going { j with phase := .gathering p })
  | launches {s : Option Stats} {bench : Bench} {p : Progress Verification Verification.Outcome}
    (hphase : j.phase = .collected (.figures s))
    (hstart : Verification.start d.bench d.options j.verification = (bench, p)) :
    Does j d ({ d with bench }, .going { j.noted s with phase := .proving p })
  | verifies {v : Verification} {bench : Bench} {events : List RaceEvent}
    {p : Progress Verification Verification.Outcome} (hphase : j.phase = .verifying v)
    (hstep : v.step d.bench (j.stopped d) = (bench, events, p)) {kept : Job × Desk}
    (hkept : events.foldl keep (j, { d with bench }) = kept) :
    Does j d (kept.2, .going { kept.1 with phase := .proving p })
  | answers {r : EngineResult} (hphase : j.phase = .verified (.answer r none)) :
    Does j d (((j.answered r).finish d .completed "").note .info "run finished",
      .going { j.answered r with phase := .leaving { id := j.id, stats := j.stats, result := r } })
  | leaves {o : RunOutcome} (hphase : j.phase = .leaving o) : Does j d (j.leave d o, .ended o)

variable {j : Job} {d : Desk}

theorem breakDown_does (hidle : j.phase.Idle) (hbroken : j.phase.Broken) (reason : Text) :
    j.Does d ((j.breakDown d reason).1, .going (j.breakDown d reason).2) := by
  refine .givesUp hidle ⟨rfl, rfl, rfl⟩ (fun _ => Bench.calm_note _ _ (by decide +kernel)) (.inl rfl) ?_
    fun _ => .inr hbroken
  simp only [RunError.message, ne_eq, List.append_eq_nil_iff, not_and, and_imp]
  exact fun hnil => absurd hnil (by decide)

theorem collect_eq (j : Job) (d : Desk) (bench : Bench)
    (p : Progress Circuit.Collection Circuit.Collected) :
    j.collect d (bench, p) = ({ d with bench }, { j with phase := .gathering p }) := by
  cases p <;> rfl

variable {v : Verification} {bench : Bench} {p : Progress Verification Verification.Outcome}

theorem collected_eq (j : Job) (d : Desk) (s : Option Stats)
    (h : Verification.start d.bench d.options j.verification = (bench, p)) :
    j.collected d (.figures s) = ({ d with bench }, { j.noted s with phase := .proving p }) := by
  show (j.noted s).startVerification d = _
  unfold startVerification
  rw [show (j.noted s).verification = j.verification from rfl, h]
  cases p <;> rfl

theorem verify_eq (j : Job) (d : Desk) {events : List RaceEvent}
    (h : v.step d.bench (j.stopped d) = (bench, events, p)) :
    j.verify d v = ((events.foldl keep (j, { d with bench })).2,
      { (events.foldl keep (j, { d with bench })).1 with phase := .proving p }) := by
  unfold verify
  rw [h]
  cases p <;> rfl

theorem begin_does (hphase : j.phase = .starting) :
    j.Does d ((j.begin d).1, .going (j.begin d).2) := by
  have hidle : j.phase.Idle := hphase ▸ trivial
  have hcount : Bench.Works [] d.bench (d.bench.count .runsInFlight) := Bench.works_count _ _ _
  unfold begin
  dsimp only
  split
  · exact .givesUp hidle hcount.makes (fun _ => hcount.calm) (.inr rfl) (by decide)
      fun _ => .inl rfl
  · rename_i hgoes
    have hgoes : j.stopped d = false := Bool.eq_false_iff.mpr hgoes
    split
    · rename_i e hrefused
      refine .givesUp hidle ⟨rfl, rfl, rfl⟩ (fun hstarts => ?_) (.inl rfl)
        (List.append_ne_nil_of_left_ne_nil (by decide) _) fun hstopped => ?_
      · obtain ⟨ledger, hupdate⟩ := hstarts hphase
        cases hupdate.symm.trans hrefused
      · cases hstopped.symm.trans hgoes
    · rename_i ledger hupdate
      have hworks : Bench.Works [] d.bench ((d.bench.count .runsInFlight).note .info "run started") :=
        hcount.trans (Bench.works_note _ _ (by decide +kernel))
      generalize hstart : Circuit.Collection.start _ _ _ = x
      obtain ⟨bench, p⟩ := x
      rw [collect_eq]
      exact .starts hphase hgoes hupdate hworks hstart

theorem does (j : Job) (d : Desk) : j.Does d (j.step d) := by
  unfold step
  cases hphase : j.phase with
  | starting => exact begin_does hphase
  | collecting c =>
    dsimp only
    cases hadvance : c.advance d.bench (j.stopped d) with
    | mk bench p =>
    rw [collect_eq]
    exact .gathers hphase hadvance
  | collected x =>
    cases x with
    | breakdown reason => exact breakDown_does (hphase ▸ trivial) (hphase ▸ trivial) reason
    | figures s =>
      cases hstart : Verification.start d.bench d.options j.verification with
      | mk bench p =>
      dsimp only
      rw [j.collected_eq d s hstart]
      exact .launches hphase hstart
  | verifying v =>
    cases hstep : v.step d.bench (j.stopped d) with
    | mk bench rest =>
    obtain ⟨events, p⟩ := rest
    dsimp only
    rw [j.verify_eq d hstep]
    exact .verifies hphase hstep rfl
  | verified o =>
    have hidle : j.phase.Idle := hphase ▸ trivial
    cases o with
    | breakdown reason => exact breakDown_does hidle (hphase ▸ trivial) reason
    | answer r fault =>
      cases fault with
      | none => exact .answers hphase
      | some f =>
        unfold conclude
        dsimp only
        split
        · exact .givesUp hidle (.refl _) (fun _ => .refl _) (.inr rfl) (by decide) fun _ => .inl rfl
        · rename_i hgoes
          exact .givesUp hidle (.refl _) (fun _ => .refl _) (.inl rfl) f.message_ne_nil
            fun hstopped => absurd hstopped hgoes
  | leaving o => exact .leaves hphase

theorem does_of_step {x : Desk × Progress Job RunOutcome} (h : j.step d = x) : j.Does d x :=
  h ▸ j.does d

/-- A job that has gone on: it works for the same run, and knows as before whether it is to stop. -/
structure Continues (j j' : Job) : Prop where
  id : j'.id = j.id
  request : j'.request = j.request
  submitted : j'.submitted = j.submitted
  cancelled : j'.cancelled = j.cancelled
  cancelAt : j'.cancelAt = j.cancelAt

theorem keepAll_continues (events : List RaceEvent) (s : Job × Desk) :
    s.1.Continues (events.foldl keep s).1 := by
  induction events generalizing s with
  | nil => exact ⟨rfl, rfl, rfl, rfl, rfl⟩
  | cons e rest ih =>
    obtain ⟨hid, hrequest, hsubmitted, hcancelled, hat⟩ := ih (keep s e)
    cases e <;> exact ⟨hid, hrequest, hsubmitted, hcancelled, hat⟩

theorem Does.continues {d' : Desk} {j' : Job} (h : j.Does d (d', .going j')) : j.Continues j' := by
  cases h with
  | verifies hphase hstep hkept =>
    subst hkept
    obtain ⟨hid, hrequest, hsubmitted, hcancelled, hat⟩ := keepAll_continues _ (j, { d with bench := _ })
    exact ⟨hid, hrequest, hsubmitted, hcancelled, hat⟩
  | _ => exact ⟨rfl, rfl, rfl, rfl, rfl⟩

/-- The status that a run shows while its job is in this phase. -/
def Phase.Fits : Phase → Status → Prop
  | .starting, s => s = .pending
  | .leaving _, s => s.terminal = true
  | _, s => s = .running

theorem Phase.Fits.allows {phase : Phase} {s : Status} (h : phase.Fits s) (hidle : phase.Idle)
    {target : Status} (ht : target = .failed ∨ target = .cancelled) : s.allows target = true := by
  have hs : s = .pending ∨ s = .running := by
    cases phase with
    | starting => exact .inl h
    | leaving o => exact hidle.elim
    | _ => exact .inr h
  rcases hs with rfl | rfl <;> rcases ht with rfl | rfl <;> decide

end Job

/-! ### What a job leaves alone -/

namespace Desk

/-- All that is known of one run is as it was. -/
structure Spares (id : Text) (d d' : Desk) : Prop where
  row : d'.ledger.store.row? id = d.ledger.store.row? id
  results : d'.ledger.store.resultsOf id = d.ledger.store.resultsOf id
  tracked : id ∈ d'.tracked ↔ id ∈ d.tracked
  closed : (d.broker.topic id).closed = true → (d'.broker.topic id).closed = true

theorem Spares.refl (id : Text) (d : Desk) : Spares id d d := ⟨rfl, rfl, Iff.rfl, fun h => h⟩

theorem Spares.trans {id : Text} {a b c : Desk} (h : Spares id a b) (h' : Spares id b c) :
    Spares id a c :=
  ⟨h'.row.trans h.row, h'.results.trans h.results, h'.tracked.trans h.tracked,
    fun hc => h'.closed (h.closed hc)⟩

/-- The work on one run at the desk: the store goes on working, nothing is complained about, and
the other runs are left alone. -/
structure Serves (id : Text) (d d' : Desk) : Prop where
  calm : Bench.Calm d.bench d'.bench
  willing : d'.ledger.Willing
  others : ∀ other, other ≠ id → Spares other d d'

theorem Serves.trans {id : Text} {a b c : Desk} (h : Serves id a b) (h' : Serves id b c) :
    Serves id a c :=
  ⟨h.calm.trans h'.calm, h'.willing,
    fun other hne => (h.others other hne).trans (h'.others other hne)⟩

theorem Serves.now {id : Text} {d d' : Desk} (h : Serves id d d') : d'.now = d.now := h.calm.now

theorem serves_bench {d : Desk} (hd : d.ledger.Willing) (id : Text) {bench : Bench}
    (h : Bench.Calm d.bench bench) : Serves id d { d with bench } :=
  ⟨h, hd, fun _ _ => ⟨rfl, rfl, Iff.rfl, fun hc => hc⟩⟩

theorem serves_rewrites {d : Desk} {id : Text} {row : RunRow} {ledger : Ledger}
    (h : d.ledger.Rewrites id row ledger) : Serves id d { d with ledger } :=
  ⟨.refl _, h.willing, fun other hne => ⟨h.others other hne,
    congrArg (List.filter _) h.results, Iff.rfl, fun hc => hc⟩⟩

end Desk

/-! ### What is kept of a run under way -/

namespace Job

/-- What the store and the job agree on: the engines asked for, the record, and the results that
were reported so far, numbered as they came. -/
structure Filing (c : Premises) (engines : List Engine) (d : Desk) (row : RunRow)
    (seen : List EngineResult) (j : Job) : Prop where
  parsed : ∃ names, Engine.parseList names = .ok engines
  asked : j.request.engines = some engines
  recorded : d.ledger.store.row? j.id = some row
  legible : row.Legible c.shows engines
  filed : Filed c j.id (d.ledger.store.resultsOf j.id) seen
  counted : j.results = .ofNat seen.length
  tracked : j.id ∈ d.tracked
  started : row.startedAt.isSome = j.run.startedAt.isSome
  times : ∀ t, j.run.startedAt = some t → c.shows t

/-- What the phase of a job says about its record and its results. -/
def Phased (engines : List Engine) (row : RunRow) (seen : List EngineResult) (j : Job) : Prop :=
  match j.phase with
  | .starting => row.standing = .pending ∧ seen = []
  | .collecting _ | .collected _ => row.standing = .running ∧ seen = []
  | .verifying v => row.standing = .running ∧ v.request.engines = engines ∧ v.Stands seen
  | .verified o => row.standing = .running ∧ o.Follows engines seen
  | .leaving _ => row.Ended ∧ row.ExplainedBy engines seen

/-- A job under way, with what is kept of it. -/
structure Kept (c : Premises) (engines : List Engine) (d : Desk) (row : RunRow)
    (seen : List EngineResult) (j : Job) : Prop where
  filing : j.Filing c engines d row seen
  phased : j.Phased engines row seen

variable {c : Premises} {engines : List Engine} {d d' : Desk} {row : RunRow}
  {seen : List EngineResult} {j : Job}

/-- What others do at the desk does not matter to a job. -/
theorem Filing.spared (h : j.Filing c engines d row seen) (hs : d.Spares j.id d') :
    j.Filing c engines d' row seen where
  parsed := h.parsed
  asked := h.asked
  recorded := hs.row.trans h.recorded
  legible := h.legible
  filed := hs.results ▸ h.filed
  counted := h.counted
  tracked := hs.tracked.mpr h.tracked
  started := h.started
  times := h.times

theorem Kept.spared (h : j.Kept c engines d row seen) (hs : d.Spares j.id d') :
    j.Kept c engines d' row seen :=
  ⟨h.filing.spared hs, h.phased⟩

/-- What is on file does not depend on what else the job knows. -/
theorem Filing.same {j' : Job} (h : j.Filing c engines d row seen) (hid : j'.id = j.id)
    (hrequest : j'.request = j.request) (hresults : j'.results = j.results)
    (hstarted : j'.run.startedAt = j.run.startedAt) : j'.Filing c engines d row seen where
  parsed := h.parsed
  asked := hrequest ▸ h.asked
  recorded := hid ▸ h.recorded
  legible := h.legible
  filed := hid ▸ h.filed
  counted := hresults ▸ h.counted
  tracked := hid ▸ h.tracked
  started := hstarted ▸ h.started
  times := hstarted ▸ h.times

theorem Filing.refiled (h : j.Filing c engines d row seen) {store : Store}
    (hresults : store.results = d.ledger.store.results) :
    Filed c j.id (store.resultsOf j.id) seen := by
  unfold Store.resultsOf
  rw [hresults]
  exact h.filed

theorem Kept.stop (h : j.Kept c engines d row seen) :
    Kept c engines d row seen { j with cancelled := true } :=
  ⟨h.filing.same rfl rfl rfl rfl, h.phased⟩

theorem Filing.bench (h : j.Filing c engines d row seen) (bench : Bench) :
    j.Filing c engines { d with bench } row seen :=
  h.spared ⟨rfl, rfl, Iff.rfl, fun hc => hc⟩

theorem Phased.fits (h : j.Phased engines row seen) : j.phase.Fits row.standing := by
  unfold Phased at h
  split at h <;> rename_i hphase <;> rw [hphase]
  · exact h.1
  · exact h.1
  · exact h.1
  · exact h.1
  · exact h.1
  · exact h.1.terminal

theorem Filing.all_runnable (h : j.Filing c engines d row seen) :
    ∀ e ∈ engines, e ∈ Engine.all := by
  obtain ⟨names, hnames⟩ := h.parsed
  exact (Engine.parseList_ok hnames).2

/-! ### Recording the end -/

/-- The job goes on, its record with it. -/
structure Proceeds (c : Premises) (engines : List Engine) (row : RunRow)
    (seen : List EngineResult) (d : Desk) (j : Job) (s : Desk × Job) : Prop where
  serves : d.Serves j.id s.1
  id : s.2.id = j.id
  kept : ∃ row', (row' = row ∨ row.Follows row') ∧ s.2.Kept c engines s.1 row' seen

variable {bench : Bench} {error : Text} {s : Desk × Job} {status : Status}

theorem Proceeds.after (hd : d.ledger.Willing)
    (hcalm : Bench.Calm d.bench bench) (h : Proceeds c engines row seen { d with bench } j s) :
    Proceeds c engines row seen d j s :=
  ⟨(Desk.serves_bench hd j.id hcalm).trans h.serves, h.id, h.kept⟩

theorem Proceeds.before (h : Proceeds c engines row seen d j s)
    (hcalm : Bench.Calm s.1.bench bench) :
    Proceeds c engines row seen d j ({ s.1 with bench }, s.2) := by
  obtain ⟨row', hfollows, hkept⟩ := h.kept
  exact ⟨h.serves.trans (Desk.serves_bench h.serves.willing j.id hcalm), h.id, row', hfollows,
    hkept.spared ⟨rfl, rfl, Iff.rfl, fun hc => hc⟩⟩

theorem finish_ok (hd : d.ledger.Willing) (hrow : d.ledger.store.row? j.id = some row)
    (hallows : row.standing.allows status = true) (error : Text) :
    d.Serves j.id (j.finish d status error) ∧
      (j.finish d status error).ledger.store.row? j.id =
        some (Store.overwrite (j.closing d.now status error) row) ∧
      (j.finish d status error).ledger.store.results = d.ledger.store.results ∧
      (j.finish d status error).tracked = d.tracked := by
  have hid := j.closing_id d.now status error
  have hclosing : d.ledger.store.row? (j.closing d.now status error).id = some row := by
    rw [hid]
    exact hrow
  obtain ⟨ledger, hupdate, hrewrites⟩ := Ledger.updateRun_ok hd hclosing
    (by rw [closing_status]; exact hallows)
  rw [hid] at hrewrites
  have hfinish : j.finish d status error = ({ d with ledger } : Desk).count
      (.run status.text (j.closing d.now status error).verdict.text) := by
    unfold finish Desk.record
    dsimp only
    rw [hupdate]
  rw [hfinish]
  exact ⟨(Desk.serves_rewrites hrewrites).trans
    (Desk.serves_bench hrewrites.willing j.id (Bench.calm_count _ _ _)), hrewrites.row,
    hrewrites.results, rfl⟩

theorem Filing.finish (h : j.Filing c engines d row seen) (hd : d.ledger.Willing)
    (hnow : c.shows d.now) (hallows : row.standing.allows status = true)
    (hstatus : status.terminal = true)
    (hengine : status = .completed → j.run.engine = .none ∨ j.run.engine ∈ engines)
    (hended : (Store.overwrite (j.closing d.now status error) row).Ended)
    (hexplained : (Store.overwrite (j.closing d.now status error) row).ExplainedBy engines seen)
    (o : RunOutcome) :
    Proceeds c engines row seen d j
      (j.finish d status error, { j with phase := .leaving o }) := by
  obtain ⟨hserves, hrow, hresults, htracked⟩ := finish_ok hd h.recorded hallows error
  have hrunning : status ≠ .running := by
    rintro rfl
    exact absurd hstatus (by decide)
  refine ⟨hserves, rfl, _, .inr (j.follows_closing d.now hallows hrunning h.started), ?_,
    hended, hexplained⟩
  refine ⟨h.parsed, h.asked, hrow, j.legible_closing d.now h.legible hnow h.times hengine, ?_,
    h.counted, ?_, ?_, h.times⟩
  · exact h.refiled hresults
  · rw [htracked]
    exact h.tracked
  · rw [started_closing, Option.isSome_map]

/-! ### Keeping what is reported -/

/-- The results among what a step of the job reports. -/
def reports (j : Job) (d : Desk) : List EngineResult :=
  match j.phase with
  | .verifying v => RaceEvent.results (v.step d.bench (j.stopped d)).2.1
  | _ => []

theorem Filing.keepLine (h : j.Filing c engines d row seen) (hd : d.ledger.Willing)
    (source line : Text) : d.Serves j.id (j.keepLine d source line).2 ∧
      (j.keepLine d source line).1.Filing c engines (j.keepLine d source line).2 row seen := by
  obtain ⟨ledger, hinsert, hgains⟩ :=
    Ledger.insertLine_ok hd d.now j.id j.lines.toInt (source ++ ": " ++ line)
  have hkeep : (j.keepLine d source line).2 = { d with
      bench := d.bench.note .debug "tool output", ledger
      broker := d.broker.publish j.id (source ++ ": " ++ line) } := by
    unfold Job.keepLine Desk.record
    dsimp only
    rw [show (d.note .debug "tool output").ledger.insertLine (d.note .debug "tool output").now j.id
      j.lines.toInt (source ++ ": " ++ line) = .ok ledger from hinsert]
    rfl
  have hresults : ledger.store.results = d.ledger.store.results := by
    rw [hgains.results, List.append_nil]
  rw [hkeep]
  refine ⟨⟨Bench.calm_note _ _ (by decide +kernel), hgains.willing, fun other hne => ⟨hgains.runs other,
    congrArg (List.filter _) hresults, Iff.rfl, fun hc => ?_⟩⟩, h.parsed, h.asked,
    (hgains.runs j.id).trans h.recorded, h.legible, ?_, h.counted, h.tracked, h.started, h.times⟩
  · rw [Broker.topic_publish_other _ hne]
    exact hc
  · exact h.refiled hresults

theorem Filing.keepResult (h : j.Filing c engines d row seen) (hd : d.ledger.Willing)
    (hnow : c.shows d.now) (r : EngineResult) : d.Serves j.id (j.keepResult d r).2 ∧
      (j.keepResult d r).1.Filing c engines (j.keepResult d r).2 row (seen ++ [r]) := by
  obtain ⟨ledger, hinsert, hgains⟩ := Ledger.insertResult_ok hd d.now j.id j.results.toInt r
  have hkeep : (j.keepResult d r).2 = { d with ledger } := by
    unfold Job.keepResult Desk.record
    dsimp only
    rw [hinsert]
  have hof : ∀ id, ledger.store.resultsOf id = d.ledger.store.resultsOf id ++
      [Ledger.resultRow d.now j.id j.results.toInt r].filter (·.run == id) := by
    intro id
    unfold Store.resultsOf
    rw [hgains.results, List.filter_append]
  rw [hkeep]
  refine ⟨⟨.refl _, hgains.willing, fun other hne => ⟨hgains.runs other, ?_, Iff.rfl,
    fun hc => hc⟩⟩, h.parsed, h.asked, (hgains.runs j.id).trans h.recorded, h.legible, ?_, ?_,
    h.tracked, h.started, h.times⟩
  · rw [hof, List.filter_cons_of_neg (by simpa [Ledger.resultRow] using hne.symm), List.filter_nil,
      List.append_nil]
  · show Filed c j.id (Store.resultsOf ledger.store j.id) (seen ++ [r])
    rw [hof, List.filter_cons_of_pos (by simp [Ledger.resultRow]), List.filter_nil, h.counted]
    exact h.filed.concat hnow r
  · show j.results + 1 = .ofNat (seen ++ [r]).length
    rw [h.counted, List.length_append, List.length_singleton, Int32.ofNat_add]
    rfl

/-- Everything that is reported is kept, in order. -/
theorem Filing.keepAll (events : List RaceEvent) (h : j.Filing c engines d row seen)
    (hd : d.ledger.Willing) (hnow : c.shows d.now) : d.Serves j.id (events.foldl keep (j, d)).2 ∧
      (events.foldl keep (j, d)).1.id = j.id ∧
      (events.foldl keep (j, d)).1.Filing c engines (events.foldl keep (j, d)).2 row
        (seen ++ RaceEvent.results events) := by
  induction events generalizing j d seen with
  | nil =>
    rw [RaceEvent.results_nil, List.append_nil]
    exact ⟨Desk.serves_bench hd j.id (.refl _), rfl, h⟩
  | cons e rest ih =>
    -- either way the job that is left has the same id, and the clock shows the same time
    have hone : d.Serves j.id (keep (j, d) e).2 ∧ (keep (j, d) e).1.id = j.id ∧
        (keep (j, d) e).1.Filing c engines (keep (j, d) e).2 row
          (seen ++ RaceEvent.results [e]) := by
      cases e with
      | line source text =>
        obtain ⟨hserves, hfiling⟩ := h.keepLine hd source text
        exact ⟨hserves, rfl, (List.append_nil seen).symm ▸ hfiling⟩
      | result r =>
        obtain ⟨hserves, hfiling⟩ := h.keepResult hd hnow r
        exact ⟨hserves, rfl, hfiling⟩
    obtain ⟨hserves, hid, hfiling⟩ := hone
    obtain ⟨hserves', hid', hfiling'⟩ := ih hfiling hserves.willing (hserves.now ▸ hnow)
    rw [hid] at hserves' hid'
    rw [List.append_assoc, ← RaceEvent.results_append, List.singleton_append] at hfiling'
    exact ⟨hserves.trans hserves', hid', hfiling'⟩

/-! ### One step -/

theorem reports_of_idle (h : j.phase.Idle) : j.reports d = [] := by
  unfold reports
  split
  · rename_i hphase
    rw [hphase] at h
    exact h.elim
  · rfl

theorem Filing.giveUp (h : j.Filing c engines d row seen) (hd : d.ledger.Willing)
    (hnow : c.shows d.now) (hallows : row.standing.allows status = true)
    (hstatus : status = .failed ∨ status = .cancelled) (herror : error ≠ []) (o : RunOutcome) :
    Proceeds c engines row seen d j
      (j.finish d status error, { j with phase := .leaving o }) := by
  refine h.finish hd hnow hallows ?_ ?_ (j.ended_unanswered d.now row hstatus herror)
    (j.explained_unanswered d.now row hstatus error engines seen) o
  · rcases hstatus with rfl | rfl <;> decide
  · rintro rfl
    exact absurd hstatus (by decide)

theorem Filing.begun (h : j.Filing c engines d row []) (hnow : c.shows d.now) {ledger : Ledger}
    (hrewrites : d.ledger.Rewrites j.id (Store.move d.now .running row) ledger) :
    (j.started d.now).Filing c engines { d with ledger } (Store.move d.now .running row) [] := by
  refine ⟨h.parsed, h.asked, hrewrites.row, ?_, h.refiled hrewrites.results, h.counted, h.tracked,
    rfl, ?_⟩
  · refine ⟨h.legible.listed, h.legible.engine, h.legible.created, fun s hs => ?_,
      h.legible.finished⟩
    cases hs
    exact ⟨d.now, hnow, rfl⟩
  · intro t ht
    cases ht
    exact hnow

theorem Filing.gathering (h : j.Filing c engines d row []) (hrow : row.standing = .running)
    (p : Progress Circuit.Collection Circuit.Collected) :
    Kept c engines d row [] { j with phase := .gathering p } := by
  refine ⟨h.same rfl rfl rfl rfl, ?_⟩
  cases p <;> exact ⟨hrow, rfl⟩

theorem Filing.proving (h : j.Filing c engines d row seen) (hrow : row.standing = .running)
    {p : Progress Verification Verification.Outcome} {q : Verification.Request}
    (hp : p.Holds (fun v => v.request = q ∧ v.Stands seen) (·.Follows q.engines seen))
    (hengines : q.engines = engines) : Kept c engines d row seen { j with phase := .proving p } := by
  refine ⟨h.same rfl rfl rfl rfl, ?_⟩
  cases p with
  | going v => exact ⟨hrow, hp.1 ▸ hengines, hp.2⟩
  | ended o => exact ⟨hrow, hengines ▸ hp⟩

theorem Filing.answers (h : j.Filing c engines d row seen) (hd : d.ledger.Willing)
    (hnow : c.shows d.now) (hrow : row.standing = .running) {r : EngineResult}
    (ho : Verification.Outcome.Follows engines seen (.answer r none)) (o : RunOutcome) :
    Proceeds c engines row seen d j (((j.answered r).finish d .completed "").note .info "run finished",
      { j.answered r with phase := .leaving o }) := by
  have hengine : r.engine = .none ∨ r.engine ∈ engines := by
    rcases ho with ⟨rfl, -⟩ | ho
    · exact .inl rfl
    · rcases ho.cases with ⟨-, he, -⟩ | ⟨rfl, -⟩
      · exact .inr he
      · exact .inl rfl
  have hallows : row.standing.allows .completed = true := by
    rw [hrow]
    rfl
  have hanswered : (j.answered r).Filing c engines d row seen := h.same rfl rfl rfl rfl
  have hfinish := hanswered.finish hd hnow hallows (by decide) (fun _ => hengine)
    (j.ended_answered d.now row (ho.presentable h.all_runnable)) (j.explained_answered d.now row ho) o
  have hcalm (b : Bench) : Bench.Calm b (b.note .info "run finished") := b.calm_note _ (by decide +kernel)
  obtain ⟨hserves, hid, hkept⟩ := hfinish.before (hcalm _)
  exact ⟨hserves, hid, hkept⟩

end Job

/-! ### The end -/

structure Desk.Archived (c : Premises) (engines : List Engine) (id : Text) (row : RunRow)
    (seen : List EngineResult) (d : Desk) : Prop where
  parsed : ∃ names, Engine.parseList names = .ok engines
  recorded : d.ledger.store.row? id = some row
  legible : row.Legible c.shows engines
  filed : Filed c id (d.ledger.store.resultsOf id) seen
  untracked : id ∉ d.tracked
  closed : (d.broker.topic id).closed = true
  ended : row.Ended
  explained : row.ExplainedBy engines seen

theorem Desk.Archived.spared {c : Premises} {engines : List Engine} {id : Text} {row : RunRow}
    {seen : List EngineResult} {d d' : Desk} (h : d.Archived c engines id row seen)
    (hs : d.Spares id d') : d'.Archived c engines id row seen where
  parsed := h.parsed
  recorded := hs.row.trans h.recorded
  legible := h.legible
  filed := hs.results ▸ h.filed
  untracked := fun hmem => h.untracked (hs.tracked.mp hmem)
  closed := hs.closed h.closed
  ended := h.ended
  explained := h.explained

namespace Job

variable {c : Premises} {engines : List Engine} {d d' : Desk} {row : RunRow}
  {seen : List EngineResult} {j : Job}

theorem Filing.leave (h : j.Filing c engines d row seen) (hd : d.ledger.Willing)
    (hended : row.Ended) (hexplained : row.ExplainedBy engines seen) (o : RunOutcome) :
    d.Serves j.id (j.leave d o) ∧ (j.leave d o).Archived c engines j.id row seen := by
  obtain ⟨bench, hcalm, hleave⟩ : ∃ bench, Bench.Calm d.bench bench ∧ j.leave d o =
      ({ d with bench, broker := d.broker.close j.id } : Desk).untrack j.id := by
    unfold Job.leave
    dsimp only
    split
    · refine ⟨_, (Bench.calm_count d.bench .runsInFlight (-1)).trans ?_, rfl⟩
      exact Bench.calm_note _ _ (by decide +kernel)
    · exact ⟨_, Bench.calm_count d.bench .runsInFlight (-1), rfl⟩
  rw [hleave]
  refine ⟨⟨hcalm, hd, fun other hne => ⟨rfl, rfl, ?_, fun hc => ?_⟩⟩, h.parsed, h.recorded,
    h.legible, h.filed, ?_, d.broker.closed_close j.id, hended, hexplained⟩
  · simp [Desk.untrack, hne]
  · show ((d.broker.close j.id).topic other).closed = true
    rw [Broker.topic_close_other _ hne]
    exact hc
  · simp [Desk.untrack]

theorem Kept.ended (h : j.Kept c engines d row seen) (hterminal : row.standing.terminal = true) :
    row.Ended ∧ row.ExplainedBy engines seen := by
  have hphased := h.phased
  have hpending : row.standing ≠ .pending := by
    intro heq
    rw [heq] at hterminal
    exact absurd hterminal (by decide)
  have hrunning : row.standing ≠ .running := by
    intro heq
    rw [heq] at hterminal
    exact absurd hterminal (by decide)
  unfold Phased at hphased
  split at hphased
  · exact absurd hphased.1 hpending
  · exact absurd hphased.1 hrunning
  · exact absurd hphased.1 hrunning
  · exact absurd hphased.1 hrunning
  · exact absurd hphased.1 hrunning
  · exact hphased

theorem Kept.proceeds {j' : Job} (h : j.Kept c engines d row seen) (hd : d.ledger.Willing)
    (hnow : c.shows d.now) (hdoes : j.Does d (d', .going j')) :
    Proceeds c engines row (seen ++ j.reports d) d j (d', j') := by
  have hfiling := h.filing
  have hfits := h.phased.fits
  have hphased := h.phased
  have hstart (hphase : j.phase = .starting) : row.standing.allows .running = true := by
    rw [hphase] at hfits
    rw [show row.standing = .pending from hfits]
    rfl
  unfold Phased at hphased
  cases hdoes with
  | @givesUp bench _ _ _ hidle hmakes hcalm hstatus herror =>
    have hcalm := hcalm fun hphase => by
      obtain ⟨ledger, hupdate, -⟩ := Ledger.updateStatus_ok hd hfiling.recorded d.now (hstart hphase)
      exact ⟨ledger, hupdate⟩
    have hthen : c.shows bench.now := hcalm.now ▸ hnow
    rw [reports_of_idle hidle, List.append_nil]
    exact .after hd hcalm ((hfiling.bench bench).giveUp hd hthen (hfits.allows hidle hstatus)
      hstatus herror _)
  | @starts before _ _ _ hphase hstopped hupdate hworks hcollect =>
    obtain ⟨ledger, hok, hrewrites⟩ := Ledger.updateStatus_ok hd hfiling.recorded d.now (hstart hphase)
    cases hok.symm.trans hupdate
    rw [hphase] at hphased
    obtain ⟨-, rfl⟩ := hphased
    rw [reports_of_idle (hphase ▸ trivial)]
    have hcalm := Circuit.Collection.calm_start before d.collector j.request.dataset
    rw [hcollect] at hcalm
    have hrunning : row.Follows (Store.move d.now .running row) :=
      ⟨.inr (hstart hphase), iff_of_true rfl (.inr rfl)⟩
    exact ⟨(Desk.serves_bench hd j.id (hworks.calm.trans hcalm)).trans
      (Desk.serves_rewrites hrewrites), rfl, _, .inr hrunning,
      ((hfiling.begun hnow hrewrites).bench _).gathering rfl _⟩
  | @gathers q _ _ hphase hadvance =>
    rw [hphase] at hphased
    obtain ⟨hrow, rfl⟩ := hphased
    have hcalm := q.calm_advance d.bench (j.stopped d)
    rw [hadvance] at hcalm
    unfold reports
    rw [hphase]
    exact ⟨Desk.serves_bench hd j.id hcalm, rfl, row, .inl rfl, (hfiling.bench _).gathering hrow _⟩
  | @launches s bench _ hphase hverify =>
    rw [hphase] at hphased
    obtain ⟨hrow, rfl⟩ := hphased
    have hcalm := Verification.calm_start d.bench d.options j.verification
    rw [hverify] at hcalm
    have hengines : j.verification.engines = engines := by
      unfold verification
      rw [hfiling.asked]
      rfl
    have hnoted : (j.noted s).Filing c engines { d with bench } row [] :=
      (hfiling.bench bench).same rfl rfl rfl rfl
    rw [reports_of_idle (hphase ▸ trivial)]
    exact ⟨Desk.serves_bench hd j.id hcalm, rfl, row, .inl rfl,
      hnoted.proving hrow (Verification.start_stands hverify) hengines⟩
  | @verifies v bench events p hphase hstep kept hkept =>
    rw [hphase] at hphased
    obtain ⟨hrow, hengines, hstands⟩ := hphased
    have hcalm := v.calm_step d.bench (j.stopped d)
    rw [hstep] at hcalm
    have hthen : c.shows bench.now := hcalm.now ▸ hnow
    obtain ⟨hserves, hid, hkeeps⟩ := (hfiling.bench bench).keepAll events hd hthen
    rw [hkept] at hserves hid hkeeps
    unfold reports
    rw [hphase]
    dsimp only
    rw [hstep]
    exact ⟨(Desk.serves_bench hd j.id hcalm).trans hserves, hid, row, .inl rfl,
      hkeeps.proving hrow (Verification.step_stands hstands hstep) hengines⟩
  | answers hphase =>
    rw [hphase] at hphased
    rw [reports_of_idle (hphase ▸ trivial), List.append_nil]
    exact hfiling.answers hd hnow hphased.1 hphased.2 _

/-- **A step of a job keeps to its record.** -/
theorem Kept.step (h : j.Kept c engines d row seen) (hd : d.ledger.Willing) (hnow : c.shows d.now)
    {d' : Desk} {progress : Progress Job RunOutcome} (hstep : j.step d = (d', progress)) :
    d.Serves j.id d' ∧ ∃ row', (row' = row ∨ row.Follows row') ∧
      progress.Holds
        (fun j' => j'.id = j.id ∧ j'.Kept c engines d' row' (seen ++ j.reports d))
        (fun _ => d'.Archived c engines j.id row' (seen ++ j.reports d)) := by
  have hdoes := does_of_step hstep
  cases progress with
  | going j' =>
    obtain ⟨hserves, hid, row', hfollows, hkept⟩ := h.proceeds hd hnow hdoes
    exact ⟨hserves, row', hfollows, hid, hkept⟩
  | ended o =>
    cases hdoes with
    | leaves hphase =>
      have hphased := h.phased
      unfold Phased at hphased
      rw [hphase] at hphased
      obtain ⟨hserves, harchived⟩ := h.filing.leave hd hphased.1 hphased.2 o
      refine ⟨hserves, row, .inl rfl, ?_⟩
      unfold reports
      rw [hphase, List.append_nil]
      exact harchived

end Job
end Regatta
