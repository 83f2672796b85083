import Regatta.Proofs.Service.Cancellation
import Regatta.Proofs.Service.Custody

/-! What a shutdown leaves behind, whatever comes in while it goes on.

Submissions, cancellations and the steps of jobs are moves in any order, and so are those of a
shutdown. At all times everyone under way is looked after (`Kept`), and if the store does as it is
told it shows how far each run has come (`Filed`). Once the runner is closed there is always
something that brings the shutdown nearer to its end (`exists_relief`), so it returns; and
`shutdown_conduct` says what has become of every submission by then. -/
namespace Regatta.Reception

open Runner (Orderly Tallied stopJobs)

variable {s s' : Reception} {m : Move} {before after l : List Submission} {x : Submission}
  {id : Text} {d d' : Desk}

/-! ### What is recorded -/

/-- The store shows the run with a status that has `P`. -/
def Shows (d : Desk) (id : Text) (P : Status → Prop) : Prop :=
  ∃ row, d.ledger.store.row? id = some row ∧ P row.standing

theorem Shows.of_row {P : Status → Prop} (h : Shows d id P)
    (hrow : d'.ledger.store.row? id = d.ledger.store.row? id) : Shows d' id P := by
  obtain ⟨row, hsome, hstatus⟩ := h
  exact ⟨row, hrow.trans hsome, hstatus⟩

theorem Shows.of_ledger {P : Status → Prop} (h : Shows d id P) (hledger : d'.ledger = d.ledger) :
    Shows d' id P :=
  h.of_row (by rw [hledger])

theorem Shows.create {P : Status → Prop} (h : Shows d id P) (hd : d.ledger.Willing)
    {interrupted : Bool} {run : Run} {ledger : Ledger}
    (hcreate : d.ledger.createRun interrupted run = .ok ledger) :
    Shows { d with ledger } id P := by
  obtain ⟨hnone, hrewrites⟩ := Ledger.createRun_eq_ok hd hcreate
  refine h.of_row (hrewrites.others id ?_)
  rintro rfl
  obtain ⟨row, hsome, -⟩ := h
  rw [hnone] at hsome
  cases hsome

/-- The store does as it is told: it shows every run that it has taken, as pending until a job works
on it, and with an end once its job is gone. -/
structure Filed (s : Reception) : Prop where
  orderly : Orderly s.runner.desk s.runner.jobs
  pending : ∀ x ∈ s.submissions, x.run.status = .pending
  recorded : ∀ x ∈ s.submissions, x.stage = .recorded → Shows s.runner.desk x.id (· = .pending)
  given : ∀ id, s.Given id →
    (∃ j ∈ s.runner.jobs, j.id = id) ∨ Shows s.runner.desk id (·.terminal = true)

namespace Filed
variable (h : s.Filed)
include h

/-- One submission goes on, is given to a job or is answered. -/
theorem of_swap (hat : s.submissions = before ++ x :: after)
    (hnext : s'.submissions = before ++ (l ++ after))
    (horderly : Orderly s'.runner.desk s'.runner.jobs)
    (hshows : ∀ {id} {P : Status → Prop}, Shows s.runner.desk id P → Shows s'.runner.desk id P)
    (hown : ∀ y ∈ l, y.run = x.run ∧
      (y.stage = .recorded → Shows s'.runner.desk x.id (· = .pending)))
    (hjobs : s.runner.jobs ⊆ s'.runner.jobs)
    (hlaunched : ∀ id, Launched l id → ∃ j ∈ s'.runner.jobs, j.id = id)
    (hanswers : ∀ run, .accepted run ∈ s'.answers →
      .accepted run ∈ s.answers ∨ x.counts = false ∧ run = x.run) : s'.Filed := by
  have hothers : ∀ y ∈ before ++ after, y ∈ s.submissions :=
    fun y hy => hat ▸ mem_middle.mpr (.inr hy)
  refine ⟨horderly, fun y hy => ?_, fun y hy hrecorded => ?_, fun id hid => ?_⟩
  · rcases mem_swap.mp (hnext ▸ hy) with hy | hy
    · exact (hown y hy).1 ▸ h.pending x (hat ▸ mem_middle.mpr (.inl rfl))
    · exact h.pending y (hothers y hy)
  · rcases mem_swap.mp (hnext ▸ hy) with hy | hy
    · obtain ⟨hrun, hshown⟩ := hown y hy
      have hid : y.id = x.id := congrArg Run.id hrun
      exact hid ▸ hshown hrecorded
    · exact hshows (h.recorded y (hothers y hy) hrecorded)
  · rcases hid.of_swap hat hnext hanswers with hold | hnew
    · exact (h.given id hold).imp (fun ⟨j, hj, heq⟩ => ⟨j, hjobs hj, heq⟩) hshows
    · exact .inl (hlaunched id hnew)

theorem record {ledger : Ledger} (hat : s.submissions = before ++ x :: after)
    (hcreate : s.runner.desk.ledger.createRun false x.run = .ok ledger) :
    Filed { s with
      runner := { s.runner with desk := { s.runner.desk with ledger } }
      submissions := before ++ { x with stage := .recorded } :: after } := by
  obtain ⟨horderly, -, hrewrites⟩ := h.orderly.create hcreate
  have hpending := h.pending x (hat ▸ mem_middle.mpr (.inl rfl))
  refine h.of_swap (l := [_]) hat rfl horderly (·.create h.orderly.willing hcreate) ?_
    (List.Subset.refl _) (by simp [Launched, Submission.counts]) (fun _ => .inl)
  rw [List.forall_mem_singleton]
  exact ⟨rfl, fun _ => ⟨_, hrewrites.row, hpending⟩⟩

theorem launch {job : Job} (hat : s.submissions = before ++ x :: after)
    (hstage : x.stage = .recorded) (hid : job.id = x.id) (hphase : job.phase = .starting) :
    Filed { s with
      runner := { s.runner with jobs := s.runner.jobs ++ [job] }
      submissions := before ++ { x with stage := .launched } :: after } := by
  obtain ⟨row, hrow, hstatus⟩ := h.recorded x (hat ▸ mem_middle.mpr (.inl rfl)) hstage
  have hattested : job.Attested s.runner.desk := ⟨row, hid ▸ hrow, by rw [hphase]; exact hstatus⟩
  refine h.of_swap (l := [_]) hat rfl (h.orderly.enter hattested) (fun hshows => hshows) (by simp)
    (List.subset_append_left ..) (fun id hlaunched => ?_) (fun _ => .inl)
  obtain ⟨y, hy, -, rfl⟩ := hlaunched
  cases List.mem_singleton.mp hy
  exact ⟨job, by simp, hid⟩

theorem execute {interrupted : Bool} {run : Run} {job : Job} {ledger : Ledger}
    (hpending : run.status = .pending)
    (hcreate : s.runner.desk.ledger.createRun interrupted run = .ok ledger) (hjob : job.id = run.id)
    (hphase : job.phase = .starting) (n : Nat) :
    Filed { s with runner := { s.runner with
      desk := { s.runner.desk with ledger }.track run.id, jobs := s.runner.jobs ++ [job]
      issued := n } } := by
  have hwilling := h.orderly.willing
  obtain ⟨horderly, -, hrewrites⟩ := h.orderly.create hcreate
  have hentered := horderly.enter (Runner.attested_entering hrewrites.row hpending hjob hphase)
  refine ⟨hentered.ledger rfl, h.pending, fun y hy hrecorded => ?_, fun id hid => ?_⟩
  · exact ((h.recorded y hy hrecorded).create hwilling hcreate).of_ledger rfl
  · refine (h.given id hid).imp ?_ fun hshows => (hshows.create hwilling hcreate).of_ledger rfl
    rintro ⟨j, hj, heq⟩
    exact ⟨j, List.mem_append_left _ hj, heq⟩

theorem steps (hd : s.Distinct) {i : Nat} {r : Runner}
    (hs : Runner.Steps s.runner i r) (n : Nat) : Filed { s with runner := r, departed := n } := by
  have hnodup := List.nodup_append.mp hd.nodup
  obtain ⟨horderly, hgone⟩ := h.orderly.steps hs hnodup.2.1
  refine ⟨horderly, h.pending, fun x hx hstage => ?_, fun id hid => ?_⟩
  · -- a submission that waits for its job has none yet
    have hbooked := mem_booked.mpr ⟨x, hx, by simp [Submission.counts, hstage], rfl⟩
    refine (h.recorded x hx hstage).of_row (hs.aside fun j hj heq => ?_).row
    exact hd.apart hbooked j (List.mem_of_getElem? hj) heq
  · by_cases hjob : ∃ j ∈ s.runner.jobs, j.id = id
    · obtain ⟨j, hj, rfl⟩ := hjob
      by_cases hstays : ∃ k ∈ r.jobs, k.id = j.id
      · exact .inl hstays
      · exact .inr (hgone j hj fun k hk heq => hstays ⟨k, hk, heq⟩)
    · refine .inr (((h.given id hid).resolve_left hjob).of_row (hs.aside fun j hj heq => ?_).row)
      exact hjob ⟨j, List.mem_of_getElem? hj, heq⟩

theorem effect (hd : s.Distinct) (he : Effect s m s')
    (hm : ∀ ledger, m ≠ .meddle ledger) : s'.Filed := by
  cases he with
  | @stands _ which r returned hjobs htracked hids hissued hclosed hreturned hledger =>
    have hledger : r.desk.ledger = s.runner.desk.ledger :=
      hledger.resolve_right fun ⟨ledger, heq⟩ => hm ledger heq
    have hsubmissions : ∀ y ∈ s.submissions.map (·.tell which), ∃ x ∈ s.submissions,
        y.stage = x.stage ∧ y.run = x.run := by
      intro y hy
      obtain ⟨x, hx, rfl⟩ := List.mem_map.mp hy
      refine ⟨x, hx, tell_stage which x, ?_⟩
      unfold Submission.tell
      split <;> rfl
    refine ⟨?_, fun y hy => ?_, fun y hy hstage => ?_, fun id hid => ?_⟩
    · show Orderly r.desk r.jobs
      rw [hjobs]
      exact (h.orderly.stop _).ledger hledger
    · obtain ⟨x, hx, -, hrun⟩ := hsubmissions y hy
      exact hrun ▸ h.pending x hx
    · obtain ⟨x, hx, hsame, hrun⟩ := hsubmissions y hy
      have hid : y.id = x.id := congrArg Run.id hrun
      exact hid ▸ (h.recorded x hx (hsame ▸ hstage)).of_ledger hledger
    · have hold : s.Given id := hid.imp_left launched_tell.mp
      refine (h.given id hold).imp ?_ (·.of_ledger hledger)
      rintro ⟨j, hj, heq⟩
      show ∃ k ∈ r.jobs, k.id = id
      rw [← List.mem_map, hjobs, Runner.ids_stopJobs]
      exact List.mem_map.mpr ⟨j, hj, heq⟩
  | turnedAway =>
    refine ⟨h.orderly, h.pending, h.recorded, fun id hid => h.given id ?_⟩
    exact hid.imp_right fun ⟨run, hrun, heq⟩ => ⟨run, by simpa using hrun, heq⟩
  | @admits request hopen run asked hid hpending =>
    refine ⟨h.orderly.ledger rfl, fun y hy => ?_, fun y hy hstage => ?_, fun id hgiven => ?_⟩
    · rcases List.mem_append.mp hy with hy | hy
      · exact h.pending y hy
      · rw [List.mem_singleton.mp hy]
        exact hpending
    · rcases List.mem_append.mp hy with hy | hy
      · exact (h.recorded y hy hstage).of_ledger rfl
      · rw [List.mem_singleton.mp hy] at hstage
        cases hstage
    · exact (h.given id (hgiven.imp_left (·.of_append rfl))).imp_right (·.of_ledger rfl)
  | refuses hat | withdraws hat =>
    exact h.of_swap (l := [_]) hat rfl (h.orderly.ledger rfl) (·.of_ledger rfl) (by simp)
      (List.Subset.refl _) (by simp [Launched, Submission.counts]) (fun _ => .inl)
  | records hat hstage hcreate => exact h.record hat hcreate
  | launches hat hstage hid hphase => exact h.launch hat hstage hid hphase
  | dismisses hat hstage | accepts hat hstage =>
    refine h.of_swap (l := []) hat rfl h.orderly (fun hshows => hshows) (by simp) (List.Subset.refl _)
      (by simp [Launched]) fun run hrun => ?_
    simpa [Submission.counts, hstage] using hrun
  | executes hid hpending hcreate hjob hphase =>
    exact h.execute hpending hcreate hjob hphase _
  | fails | departs => exact ⟨h.orderly, h.pending, h.recorded, h.given⟩
  | steps hsteps => exact h.steps hd hsteps _

end Filed

/-! ### Whole histories -/

def callsIn (s : Reception) (id : Text) : Move → Nat
  | .step i => s.runner.callsOf id i
  | _ => 0

def returnsIn (s : Reception) (id : Text) : Move → Nat
  | .step i => s.runner.returnsOf id i
  | _ => 0

def made (s : Reception) (id : Text) : List Move → Nat
  | [] => 0
  | m :: rest => s.callsIn id m + (s.next m).made id rest

def back (s : Reception) (id : Text) : List Move → Nat
  | [] => 0
  | m :: rest => s.returnsIn id m + (s.next m).back id rest

/-- Nothing is under way yet, and ids are never given out twice. -/
structure Opening (s : Reception) : Prop where
  ids : Function.Injective s.runner.newId
  jobs : s.runner.jobs = []
  tracked : s.runner.desk.tracked = []
  submissions : s.submissions = []
  answers : s.answers = []
  waiting : s.waiting = 0
  departed : s.departed = 0
  returned : s.returned = false

/-- Everyone under way is looked after, and a shutdown is over only when nobody is. -/
structure Kept (made back : Text → Nat) (s : Reception) : Prop where
  ids : Function.Injective s.runner.newId
  distinct : s.Distinct
  tracking : s.Tracking
  counting : s.Counting
  told : s.Told
  tallied : Tallied made back s.runner.jobs
  lively : s.runner.Lively
  finished : s.returned = true → s.runner.closed = true ∧ s.waiting = 0

variable {made back : Text → Nat}

theorem Opening.kept (h : s.Opening) : s.Kept (fun _ => 0) (fun _ => 0) := by
  have hids : s.ids = [] := by simp [Reception.ids, h.submissions, h.jobs, booked]
  refine ⟨h.ids, ⟨?_, ?_, ?_, ?_⟩, ?_, ?_, ⟨?_, ?_, ?_⟩, ⟨?_, fun _ _ => rfl⟩, ?_, ?_⟩
  · simp [hids]
  · simp [hids]
  · simp [Given, Launched, h.submissions, h.answers]
  · simp [Denied, h.answers]
  · simp [Tracking, Holder, h.tracked, h.submissions, h.jobs]
  · simp [Counting, h.waiting, h.departed, h.submissions, h.jobs, booked]
  · simp [h.submissions]
  · simp [h.submissions]
  · simp [h.jobs]
  · simp [h.jobs]
  · simp [Runner.Lively, h.jobs]
  · simp [h.returned]

theorem callsIn_of_ne (h : ∀ i, m ≠ .step i) (id : Text) :
    s.callsIn id m = 0 ∧ s.returnsIn id m = 0 := by
  cases m with
  | step i => exact absurd rfl (h i)
  | _ => exact ⟨rfl, rfl⟩

theorem Effect.tallied (h : s.Kept made back) (he : Effect s m s') :
    Tallied (fun id => made id + s.callsIn id m) (fun id => back id + s.returnsIn id m)
      s'.runner.jobs := by
  have hquiet : (∀ i, m ≠ .step i) → Tallied made back s'.runner.jobs →
      Tallied (fun id => made id + s.callsIn id m) (fun id => back id + s.returnsIn id m)
        s'.runner.jobs := by
    intro hmove htallied
    simp only [(callsIn_of_ne hmove _).1, (callsIn_of_ne hmove _).2, Nat.add_zero]
    exact htallied
  have hnodup := List.nodup_append.mp h.distinct.nodup
  cases he with
  | @stands _ which r returned hjobs htracked hids hissued hclosed hreturned hledger hmove =>
    refine hquiet hmove ?_
    show Tallied made back r.jobs
    rw [hjobs]
    exact h.tallied.stop _
  | turnedAway | admits => exact hquiet (by simp) h.tallied
  | @launches _ before after x job hat hstage hid hphase hsubmitted hcancelled hmove =>
    refine hquiet hmove (h.tallied.enter hphase fun j hj heq => ?_)
    have hbooked : x.id ∈ booked s.submissions :=
      mem_booked.mpr ⟨x, by simp [hat], by simp [Submission.counts, hstage], rfl⟩
    exact h.distinct.apart hbooked j hj (heq.trans hid)
  | executes hid hpending hcreate hjob hphase hsubmitted hmove =>
    refine hquiet hmove (h.tallied.enter hphase fun j hj heq => ?_)
    refine not_issued h.ids (hid ▸ hjob ▸ heq ▸ h.distinct.issued j.id ?_)
    exact List.mem_append_right _ (List.mem_map_of_mem hj)
  | steps hsteps => exact h.tallied.steps hsteps hnodup.2.1
  | refuses _ _ hmove | records _ _ _ hmove | withdraws _ _ hmove | dismisses _ _ hmove
  | accepts _ _ hmove | fails hmove | departs _ hmove => exact hquiet hmove h.tallied

theorem Effect.lively (h : s.runner.Lively) (he : Effect s m s') : s'.runner.Lively := by
  cases he with
  | stands which hjobs => exact h.stop hjobs
  | launches hat hstage hid hphase => exact h.enter hphase rfl
  | executes hid hpending hcreate hjob hphase => exact h.enter hphase rfl
  | steps hsteps => exact h.steps hsteps
  | _ => exact h

/-- A closed runner stays closed, and nobody is counted in any more. -/
theorem Effect.closed (hc : s.runner.closed = true) (he : Effect s m s') :
    s'.runner.closed = true ∧ s'.waiting ≤ s.waiting := by
  cases he with
  | stands which hjobs htracked hids hissued hclosed =>
    exact ⟨hclosed.elim (·.trans hc) (·.1), Nat.le_refl _⟩
  | admits hopen =>
    rw [hopen] at hc
    cases hc
  | dismisses | departs => exact ⟨hc, Nat.sub_le ..⟩
  | steps hsteps => exact ⟨(steps_ids hsteps).2.2.trans hc, Nat.le_refl _⟩
  | _ => exact ⟨hc, Nat.le_refl _⟩

theorem Effect.newId (he : Effect s m s') : s'.runner.newId = s.runner.newId := by
  cases he with
  | stands which hjobs htracked hids => exact hids
  | steps hsteps => exact (steps_ids hsteps).1
  | _ => rfl

theorem Effect.finished (h : s.returned = true → s.runner.closed = true ∧ s.waiting = 0)
    (he : Effect s m s') (hreturned : s'.returned = true) :
    s'.runner.closed = true ∧ s'.waiting = 0 := by
  have hbefore : s.runner.closed = true ∧ s.waiting = 0 := by
    cases he with
    | stands which hjobs htracked hids hissued hclosed hback =>
      exact hback.elim (fun hsame => h (hsame ▸ hreturned)) (fun hdone => hdone)
    | _ => exact h hreturned
  obtain ⟨hclosed, hless⟩ := he.closed hbefore.1
  exact ⟨hclosed, Nat.le_zero.mp (hbefore.2 ▸ hless)⟩

theorem Kept.effect (h : s.Kept made back) (he : Effect s m s') :
    s'.Kept (fun id => made id + s.callsIn id m) (fun id => back id + s.returnsIn id m) where
  ids := he.newId ▸ h.ids
  distinct := h.distinct.effect h.ids he
  tracking := h.tracking.effect h.distinct he
  counting := h.counting.effect he
  told := h.told.effect h.tracking he
  tallied := he.tallied h
  lively := he.lively h.lively
  finished := he.finished h.finished

theorem Kept.run (h : s.Kept made back) (moves : List Move) :
    (s.run moves).Kept (fun id => made id + s.made id moves) (fun id => back id + s.back id moves) := by
  induction moves generalizing s made back with
  | nil => exact h
  | cons m rest ih =>
    have hrest := ih (h.effect (s.next_effect m))
    simp only [Nat.add_assoc] at hrest
    exact hrest

theorem Filed.run (h : s.Filed) (hk : s.Kept made back) {moves : List Move}
    (hmoves : ∀ m ∈ moves, ∀ ledger, m ≠ .meddle ledger) : (s.run moves).Filed := by
  induction moves generalizing s made back with
  | nil => exact h
  | cons m rest ih =>
    have heffect := s.next_effect m
    exact ih (h.effect hk.distinct heffect (hmoves m (List.mem_cons_self ..))) (hk.effect heffect)
      fun m' hm' => hmoves m' (List.mem_cons_of_mem _ hm')

theorem closed_run (h : s.runner.closed = true) (moves : List Move) :
    (s.run moves).runner.closed = true := by
  induction moves generalizing s with
  | nil => exact h
  | cons m rest ih => exact ih ((s.next_effect m).closed h).1

/-- Once the runner is closed and nobody is counted, nobody else is given to a job. -/
theorem Effect.given (he : Effect s m s') (hc : s.runner.closed = true)
    (hnobody : booked s.submissions = []) : booked s'.submissions = [] ∧
      ∀ id, s'.Given id → s.Given id := by
  have habsent : ∀ {before after : List Submission} {x : Submission},
      s.submissions = before ++ x :: after → x.counts ≠ true := by
    intro before after x hat hx
    have hmem := mem_booked.mpr ⟨x, hat ▸ mem_middle.mpr (.inl rfl), hx, rfl⟩
    rw [hnobody] at hmem
    cases hmem
  cases he with
  | @stands _ which r returned =>
    exact ⟨(booked_tell which _).trans hnobody, fun id => Or.imp_left launched_tell.mp⟩
  | turnedAway =>
    exact ⟨hnobody, fun id => Or.imp_right fun ⟨run, hrun, heq⟩ => ⟨run, by simpa using hrun, heq⟩⟩
  | admits hopen =>
    rw [hopen] at hc
    cases hc
  | refuses hat hstage | records hat hstage | withdraws hat hstage | launches hat hstage
  | dismisses hat hstage => exact absurd (by simp [Submission.counts, hstage]) (habsent hat)
  | @accepts _ before after x hat hstage =>
    have hx : x.counts = false := by simp [Submission.counts, hstage]
    refine ⟨?_, fun id hid => (hid.of_swap (l := []) hat rfl ?_).resolve_right (by simp [Launched])⟩
    · rw [hat, booked_remove hx] at hnobody
      exact hnobody
    · exact fun run hrun => by simpa [hx] using hrun
  | _ => exact ⟨hnobody, fun id hid => hid⟩

theorem given_run (hc : s.runner.closed = true) (hnobody : booked s.submissions = [])
    (moves : List Move) : ∀ id, (s.run moves).Given id → s.Given id := by
  induction moves generalizing s with
  | nil => exact fun id hid => hid
  | cons m rest ih =>
    have heffect := s.next_effect m
    obtain ⟨hnobody', hgiven⟩ := heffect.given hc hnobody
    exact fun id hid => hgiven id (ih (heffect.closed hc).1 hnobody' id hid)

/-! ### Everyone gets through -/

/-- The answer is to this submission. -/
def Answers (x : Submission) : Submission.Answer → Prop
  | .closed => False
  | .refused id _ => id = x.id
  | .accepted run => run = x.run

/-- A submission is answered once it makes its own moves, whatever the store says. -/
theorem run_remainder (hat : s.submissions = before ++ x :: after) :
    ∃ a, Answers x a ∧ (s.run (remainder before.length)).answers = s.answers ++ [a] ∧
      (s.run (remainder before.length)).submissions = before ++ after ∧
      (s.run (remainder before.length)).waiting ≤ s.waiting ∧
      (s.run (remainder before.length)).runner.jobs.countP Job.submitted ≤
        s.runner.jobs.countP Job.submitted + 1 := by
  obtain ⟨run, request, cancelled, stage⟩ := x
  cases stage with
  | admitted =>
    cases hcreate : s.runner.desk.ledger.createRun false run <;>
      simp [remainder, Reception.run, next, record, create, withdraw, launch, answer, hat, hcreate,
        Answers, Submission.id, Job.new, List.eraseIdx_append_of_length_le]
  | _ =>
    simp [remainder, Reception.run, next, record, withdraw, launch, answer, hat, Answers,
      Submission.id, Job.new, List.eraseIdx_append_of_length_le]

/-- What still has to be done before a shutdown is over. -/
def burden (s : Reception) : Nat :=
  s.waiting + 2 * (booked s.submissions).length + s.runner.jobs.countP Job.submitted

/-- Steps of a job and the passing of time are moves. -/
theorem exists_moves {i : Nat} {events : List Runner.Event}
    (h : ∀ e ∈ events, e = .step i ∨ ∃ t, e = .tick t) (s : Reception) :
    ∃ moves, (s.run moves).runner = s.runner.run events ∧
      (s.run moves).submissions = s.submissions ∧ (s.run moves).waiting = s.waiting := by
  induction events generalizing s with
  | nil => exact ⟨[], rfl, rfl, rfl⟩
  | cons e rest ih =>
    have hrest := ih fun e' he' => h e' (List.mem_cons_of_mem _ he')
    rcases h e (List.mem_cons_self ..) with rfl | ⟨t, rfl⟩
    · obtain ⟨moves, hrun⟩ := hrest (s.next (.step i))
      exact ⟨.step i :: moves, hrun⟩
    · obtain ⟨moves, hrun⟩ := hrest (s.next (.tick t))
      exact ⟨.tick t :: moves, hrun⟩

namespace Kept
variable (h : s.Kept made back)
include h

/-- As long as somebody is counted who has been told to stop, something can be done. -/
theorem exists_relief (hc : s.runner.closed = true)
    (hwaiting : s.waiting ≠ 0) : ∃ moves, (s.run moves).burden < s.burden := by
  have hcounting := h.counting
  unfold Counting at hcounting
  unfold burden
  by_cases hdeparted : s.departed = 0
  · by_cases hbooked : booked s.submissions = []
    · -- only jobs are left, and each of them comes to its end
      have hsome : 0 < s.runner.jobs.countP Job.submitted := by
        rw [hbooked, List.length_nil] at hcounting
        omega
      obtain ⟨j, hj, hsubmitted⟩ := List.countP_pos_iff.mp hsome
      have hstopped : j.stopped s.runner.desk = true := by
        simp [Job.stopped, h.told.jobs hc j hj hsubmitted]
      obtain ⟨before, after, hjobs⟩ := List.append_of_mem hj
      obtain ⟨events, hevents, -, hend⟩ := Runner.exists_departure
        (Job.ends_of_stopped hstopped (h.lively j hj)) rfl hjobs
      obtain ⟨moves, hrunner, hsubmissions, hsame⟩ := exists_moves hevents s
      refine ⟨moves, ?_⟩
      rw [hrunner, hsubmissions, hsame, hend, hjobs, List.countP_append, List.countP_append,
        List.countP_cons, if_pos hsubmitted]
      omega
    · obtain ⟨id, hid⟩ := List.exists_mem_of_ne_nil _ hbooked
      obtain ⟨x, hx, hcounts, -⟩ := mem_booked.mp hid
      obtain ⟨before, after, hat⟩ := List.append_of_mem hx
      obtain ⟨a, -, -, hsubmissions, hless, hjobs⟩ := run_remainder hat
      refine ⟨remainder before.length, ?_⟩
      rw [hsubmissions, hat, length_booked_middle hcounts]
      omega
  · refine ⟨[.depart], ?_⟩
    have hdepart : s.run [.depart] =
        { s with waiting := s.waiting - 1, departed := s.departed - 1 } := if_neg hdeparted
    rw [hdepart]
    dsimp only
    omega

/-- A shutdown comes to its end. -/
theorem exists_return (hc : s.runner.closed = true) : ∃ moves, (s.run moves).returned = true := by
  induction hburden : s.burden using Nat.strong_induction_on generalizing s made back with
  | h n ih =>
  subst hburden
  by_cases hwaiting : s.waiting = 0
  · refine ⟨[.await], ?_⟩
    show s.await.returned = true
    simp [await, hc, hwaiting]
  · obtain ⟨moves, hless⟩ := h.exists_relief hc hwaiting
    obtain ⟨more, hreturned⟩ := ih _ hless (h.run moves) (closed_run hc moves) rfl
    exact ⟨moves ++ more, by rw [run_append]; exact hreturned⟩

theorem nobody (hreturned : s.returned = true) :
    booked s.submissions = [] ∧ ∀ j ∈ s.runner.jobs, j.submitted = false := by
  have hcounting := h.counting
  unfold Counting at hcounting
  rw [(h.finished hreturned).2] at hcounting
  refine ⟨List.eq_nil_of_length_eq_zero (by omega), fun j hj => ?_⟩
  have hnone : s.runner.jobs.countP Job.submitted = 0 := by omega
  exact Bool.eq_false_iff.mpr (List.countP_eq_zero.mp hnone j hj)

theorem tracked_executed (hreturned : s.returned = true)
    (hid : id ∈ s.runner.desk.tracked) : ∃ j ∈ s.runner.jobs, j.id = id ∧ j.submitted = false := by
  obtain ⟨hbooked, hexecuted⟩ := h.nobody hreturned
  have hmem := h.tracking.mem_ids hid
  rw [Reception.ids, hbooked, List.nil_append] at hmem
  obtain ⟨j, hj, heq⟩ := List.mem_map.mp hmem
  exact ⟨j, hj, heq, hexecuted j hj⟩

theorem given_absent (hreturned : s.returned = true) (hgiven : s.Given id) :
    ∀ j ∈ s.runner.jobs, j.id ≠ id := by
  intro j hj heq
  have hsubmitted := (h.distinct.given id hgiven).2.2 j hj heq
  rw [(h.nobody hreturned).2 j hj] at hsubmitted
  cases hsubmitted

end Kept

/-! ### The shutdown -/

/-- What can be relied on after these moves. -/
structure Conduct (s : Reception) (moves : List Move) : Prop where
  /-- A submission that nothing comes between is the runner's own, and so is its answer. -/
  alone : ∀ request, ∃ a : Submission.Answer,
    a.result = ((s.run moves).runner.submit request).2 ∧
      (s.run (moves ++ submission (s.run moves).submissions.length request)).runner =
        ((s.run moves).runner.submit request).1 ∧
      (s.run (moves ++ submission (s.run moves).submissions.length request)).answers =
        (s.run moves).answers ++ [a]
  /-- Who is turned away leaves nothing behind: neither in the store nor among those who can be
  cancelled. -/
  turnedAway : ∀ m, ((s.run moves).next m).answers = (s.run moves).answers ++ [.closed] →
    ((s.run moves).next m).runner = (s.run moves).runner
  /-- Whose run the store does not take cannot be cancelled any more. -/
  refused : ∀ id e, .refused id e ∈ (s.run moves).answers → id ∉ (s.run moves).runner.desk.tracked
  /-- Who was admitted gets an answer by the next moves of its own. -/
  answered : ∀ i x, (s.run moves).submissions[i]? = some x → ∃ a, Answers x a ∧
    (s.run (moves ++ remainder i)).answers = (s.run moves).answers ++ [a]
  /-- Once the runner is closed it stays closed, nobody is admitted, and everybody who was admitted
  has been told to stop. -/
  shut : (s.run moves).runner.closed = true →
    (∀ m, ((s.run moves).next m).runner.closed = true) ∧
    (∀ request, (s.run moves).next (.enroll request) =
      { s.run moves with answers := (s.run moves).answers ++ [.closed] }) ∧
    (∀ x ∈ (s.run moves).submissions, x.counts = true → x.cancelled = true) ∧
    ∀ j ∈ (s.run moves).runner.jobs, j.submitted = true → j.cancelled = true
  /-- A shutdown returns. -/
  returns : (s.run moves).runner.closed = true →
    ∃ more, (s.run (moves ++ more)).returned = true
  /-- When it has returned only executed runs can still be cancelled or have calls in flight. -/
  idle : (s.run moves).returned = true →
    (∀ id ∈ (s.run moves).runner.desk.tracked,
      ∃ j ∈ (s.run moves).runner.jobs, j.id = id ∧ j.submitted = false) ∧
    ∀ id, (∀ j ∈ (s.run moves).runner.jobs, j.id = id → j.submitted = true) →
      s.made id moves = s.back id moves
  /-- When it has returned, every run that a submission was or will be answered with can no longer be
  cancelled and has no call in flight; and it has ended, if the store does as it is told. -/
  ended : (s.run moves).returned = true → ∀ more run,
    .accepted run ∈ (s.run (moves ++ more)).answers →
      run.id ∉ (s.run moves).runner.desk.tracked ∧ s.made run.id moves = s.back run.id moves ∧
      (s.runner.desk.ledger.Willing → (∀ m ∈ moves, ∀ ledger, m ≠ .meddle ledger) →
        Shows (s.run moves).runner.desk run.id (·.terminal = true))

theorem Effect.turnedAway_runner (he : Effect s m s')
    (hanswers : s'.answers = s.answers ++ [.closed]) : s'.runner = s.runner := by
  have hgrows : s.answers ≠ s.answers ++ [.closed] := by simp
  cases he with
  | turnedAway => rfl
  | dismisses | accepts => cases List.append_cancel_left hanswers
  | _ => exact absurd hanswers hgrows

theorem Opening.filed (h : s.Opening) (hwilling : s.runner.desk.ledger.Willing) : s.Filed where
  orderly := ⟨hwilling, by simp [h.jobs]⟩
  pending := by simp [h.submissions]
  recorded := by simp [h.submissions]
  given := by simp [Given, Launched, h.submissions, h.answers]

/-- **Submissions and a shutdown in any order.** -/
theorem shutdown_conduct (h : s.Opening) (moves : List Move) : s.Conduct moves := by
  have hkept := h.kept.run moves
  simp only [Nat.zero_add] at hkept
  have hnew : (s.run moves).runner.newId (s.run moves).runner.issued ∉
      (s.run moves).runner.desk.tracked := fun hid =>
    not_issued hkept.ids (hkept.distinct.issued _ (hkept.tracking.mem_ids hid))
  refine ⟨fun request => ?_, fun m => ?_, fun id e hrefused hid => ?_, fun i x hx => ?_, fun hc => ?_,
    fun hc => ?_, fun hreturned => ?_, fun hreturned more run hrun => ?_⟩
  · rw [run_append]
    obtain ⟨hrunner, -, a, ha, hanswers⟩ := run_submission _ request hnew
    exact ⟨a, ha, hrunner, hanswers⟩
  · exact ((s.run moves).next_effect m).turnedAway_runner
  · exact (hkept.distinct.denied id ⟨e, hrefused⟩).2 (hkept.tracking.mem_ids hid)
  · obtain ⟨before, after, hat, rfl⟩ := exists_split hx
    obtain ⟨a, ha, hanswers, -⟩ := run_remainder hat
    rw [run_append]
    exact ⟨a, ha, hanswers⟩
  · exact ⟨fun m => (((s.run moves).next_effect m).closed hc).1, fun request => if_pos hc,
      hkept.told.submissions hc, hkept.told.jobs hc⟩
  · obtain ⟨more, hreturned⟩ := hkept.exists_return hc
    exact ⟨more, by rw [run_append]; exact hreturned⟩
  · refine ⟨fun id => hkept.tracked_executed hreturned, fun id hid => ?_⟩
    refine hkept.tallied.quiet id fun j hj heq => ?_
    have hsubmitted := hid j hj heq
    rw [(hkept.nobody hreturned).2 j hj] at hsubmitted
    cases hsubmitted
  · -- who is answered later was given to a job before the shutdown returned
    rw [run_append] at hrun
    have hgiven : (s.run moves).Given run.id := given_run (hkept.finished hreturned).1
      (hkept.nobody hreturned).1 more run.id (.inr ⟨run, hrun, rfl⟩)
    have habsent := hkept.given_absent hreturned hgiven
    refine ⟨fun hid => ?_, hkept.tallied.quiet run.id habsent, fun hwilling hmoves => ?_⟩
    · obtain ⟨j, hj, heq, -⟩ := hkept.tracked_executed hreturned hid
      exact habsent j hj heq
    · refine (((h.filed hwilling).run h.kept hmoves).given run.id hgiven).resolve_left ?_
      rintro ⟨j, hj, heq⟩
      exact habsent j hj heq

/-- A reception on a runner that has nothing to do, whose ids are longer and longer. -/
def opened (r : Runner) : Reception where
  runner := { r with newId := fun n => List.replicate (n + 1) 97 }

theorem opening_opened {r : Runner} (hjobs : r.jobs = []) (htracked : r.desk.tracked = []) :
    (opened r).Opening where
  ids n k heq := by
    have hlength := congrArg List.length heq
    simpa [opened] using hlength
  jobs := hjobs
  tracked := htracked
  submissions := rfl
  answers := rfl
  waiting := rfl
  departed := rfl
  returned := rfl

/-- Two submissions overlap with a shutdown. The first is launched when the runner is closed already,
and answered when the shutdown has returned; the store does not take the second. -/
def overlap : List Move :=
  [.enroll Runner.patientRequest, .record 0 none, .enroll Runner.patientRequest, .close, .launch 0,
    .record 1 (some (.refused "disk full")), .enroll Runner.patientRequest, .step 0, .withdraw 1,
    .step 0, .answer 1, .depart, .await]

theorem shutdown_conduct_overlap :
    (opened Runner.asking).Opening ∧ ((opened Runner.asking).run overlap).returned = true ∧
      .refused "aa" (.refused "disk full") ∈ ((opened Runner.asking).run overlap).answers ∧
      ("aa" : Text) ∉ ((opened Runner.asking).run overlap).runner.desk.tracked ∧
      ∃ run, .accepted run ∈ ((opened Runner.asking).run (overlap ++ [.answer 0])).answers ∧
        Shows ((opened Runner.asking).run overlap).runner.desk run.id (·.terminal = true) := by
  have hopening := opening_opened (r := Runner.asking) rfl rfl
  have hconduct := shutdown_conduct hopening overlap
  have hreturned : ((opened Runner.asking).run overlap).returned = true := by decide +kernel
  have hrefused : .refused "aa" (.refused "disk full") ∈
      ((opened Runner.asking).run overlap).answers := .tail _ (.head _)
  refine ⟨hopening, hreturned, hrefused, hconduct.refused _ _ hrefused,
    Runner.patientRequest.complete.newRun "a" 0, .tail _ (.tail _ (.head _)), ?_⟩
  refine (hconduct.ended hreturned [.answer 0] _ (.tail _ (.tail _ (.head _)))).2.2 ⟨rfl, rfl⟩ ?_
  simp [overlap]

def plain : List Move :=
  [.enroll Runner.patientRequest, .record 0 none, .launch 0, .answer 0, .close, .step 0, .step 0,
    .depart, .await]

/-- Where the store does not take the end of a run, a submitted run is still pending when the
shutdown has returned. -/
theorem pending_after_shutdown :
    (opened Runner.refused).Opening ∧ ((opened Runner.refused).run plain).returned = true ∧
      ∃ run, .accepted run ∈ ((opened Runner.refused).run plain).answers ∧
        ((opened Runner.refused).run plain).runner.status? run.id = some .pending ∧
        Status.pending.terminal = false :=
  ⟨opening_opened rfl rfl, by decide +kernel, Runner.patientRequest.complete.newRun "a" 0,
    .head _, by decide +kernel, by decide⟩

end Regatta.Reception
