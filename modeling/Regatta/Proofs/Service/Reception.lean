import Regatta.Proofs.Service.Traffic

/-! Submissions that come in side by side, and a shutdown among them.

A submission is not over in an instant. It is admitted, which is when it is looked at whether the
runner is closed, when it comes to be counted and when it can first be cancelled; its run is recorded
in the store, or refused; a job is launched for it; and it is answered. A shutdown closes the runner,
tells all who can be cancelled to stop, and waits until nobody is counted any more. Between any two of
these steps anything else may happen.

Here they are taken one by one (`next`). A submission during which nothing else happens is the
runner's own (`run_submission`). -/
namespace Regatta

/-- How far a submission has come. -/
inductive Submission.Stage where
  | admitted
  /-- The store did not take its run. -/
  | refused (e : StoreError)
  /-- It can no longer be cancelled, and is still counted. -/
  | withdrawn (e : StoreError)
  | recorded
  | launched

structure Submission where
  run : Run
  request : Request
  cancelled : Bool
  stage : Submission.Stage

inductive Submission.Answer where
  | closed
  | refused (id : Text) (e : StoreError)
  | accepted (run : Run)

def Submission.Answer.result : Answer → Except Runner.SubmitError Run
  | .closed => .error .closed
  | .refused _ e => .error (.create e)
  | .accepted run => .ok run

structure Reception where
  runner : Runner
  submissions : List Submission := []
  /-- How many were counted in and not counted out. -/
  waiting : Nat := 0
  /-- How many of them have ended in the background. -/
  departed : Nat := 0
  answers : List Submission.Answer := []
  /-- Whether a shutdown is over. -/
  returned : Bool := false

namespace Submission

def id (x : Submission) : Text := x.run.id

/-- Whether the submission itself is counted, and not a job in its place. -/
def counts (x : Submission) : Bool :=
  match x.stage with
  | .launched => false
  | _ => true

/-- Whether it can be cancelled in its own right. -/
def holds (x : Submission) : Bool :=
  match x.stage with
  | .launched | .withdrawn _ => false
  | _ => true

def tell (which : Text → Bool) (x : Submission) : Submission :=
  if which x.id then { x with cancelled := true } else x

end Submission

theorem Desk.untrack_track {d : Desk} {id : Text} (h : id ∉ d.tracked) :
    (d.track id).untrack id = d := by
  have hothers : d.tracked.filter (· != id) = d.tracked := by
    refine List.filter_eq_self.mpr fun other hother => ?_
    have hne : other ≠ id := fun heq => h (heq ▸ hother)
    simpa using hne
  simp [Desk.track, Desk.untrack, hothers]

namespace Reception

inductive Move where
  | enroll (request : Request)
  /-- The store is asked to take the run, which it may refuse for a reason of its own. -/
  | record (i : Nat) (failure : Option StoreError)
  | withdraw (i : Nat)
  | launch (i : Nat)
  | answer (i : Nat)
  | execute (request : Request) (cancelAt : Option Instant)
  | step (i : Nat)
  | depart
  | cancel (id : Text)
  | cancelAll
  | close
  /-- The shutdown sees that nobody is counted. -/
  | await
  | tick (t : Instant)
  | listen (broker : Broker)
  /-- Others do something to the store. -/
  | meddle (ledger : Ledger)

/-- One who can be cancelled is told to stop. -/
def stop (s : Reception) (which : Text → Bool) : Reception :=
  { s with
    runner := s.runner.stop fun j => which j.id
    submissions := s.submissions.map (·.tell which) }

def enroll (s : Reception) (request : Request) : Reception :=
  if s.runner.closed then { s with answers := s.answers ++ [.closed] }
  else
    let r := s.runner
    let request := request.complete
    let run := request.newRun (r.newId r.issued) r.now
    { s with
      runner := { r with desk := r.desk.track run.id, issued := r.issued + 1 }
      submissions := s.submissions ++ [⟨run, request, false, .admitted⟩]
      waiting := s.waiting + 1 }

/-- Asks the store to take a run, unless that fails for another reason. -/
def create (l : Ledger) (failure : Option StoreError) (run : Run) : Except StoreError Ledger :=
  match failure with
  | some e => .error e
  | none => l.createRun false run

def record (s : Reception) (i : Nat) (failure : Option StoreError) : Reception :=
  match s.submissions[i]? with
  | some ⟨run, request, cancelled, .admitted⟩ =>
    match create s.runner.desk.ledger failure run with
    | .error e => { s with submissions := s.submissions.set i ⟨run, request, cancelled, .refused e⟩ }
    | .ok ledger =>
      { s with
        runner := { s.runner with desk := { s.runner.desk with ledger } }
        submissions := s.submissions.set i ⟨run, request, cancelled, .recorded⟩ }
  | _ => s

def withdraw (s : Reception) (i : Nat) : Reception :=
  match s.submissions[i]? with
  | some ⟨run, request, _, .refused e⟩ =>
    { s with
      runner := { s.runner with desk := s.runner.desk.untrack run.id }
      submissions := s.submissions.set i ⟨run, request, true, .withdrawn e⟩ }
  | _ => s

def launch (s : Reception) (i : Nat) : Reception :=
  match s.submissions[i]? with
  | some ⟨run, request, cancelled, .recorded⟩ =>
    let job := { Job.new run request true none with cancelled }
    { s with
      runner := { s.runner with jobs := s.runner.jobs ++ [job] }
      submissions := s.submissions.set i ⟨run, request, cancelled, .launched⟩ }
  | _ => s

def answer (s : Reception) (i : Nat) : Reception :=
  match s.submissions[i]? with
  | some ⟨run, _, _, .withdrawn e⟩ =>
    { s with
      submissions := s.submissions.eraseIdx i
      waiting := s.waiting - 1
      answers := s.answers ++ [.refused run.id e] }
  | some ⟨run, _, _, .launched⟩ =>
    { s with
      submissions := s.submissions.eraseIdx i
      answers := s.answers ++ [.accepted run] }
  | _ => s

/-- How many submitted runs end in a step of the job with this index. -/
def endings (r : Runner) (i : Nat) : Nat :=
  match r.jobs[i]? with
  | some j => if j.submitted then (j.step r.desk).2.ends else 0
  | none => 0

def depart (s : Reception) : Reception :=
  if s.departed = 0 then s else { s with waiting := s.waiting - 1, departed := s.departed - 1 }

def close (s : Reception) : Reception :=
  let s := s.stop s.runner.isActive
  { s with runner := { s.runner with closed := true } }

def await (s : Reception) : Reception :=
  if s.runner.closed && s.waiting == 0 then { s with returned := true } else s

def next (s : Reception) : Move → Reception
  | .enroll request => s.enroll request
  | .record i failure => s.record i failure
  | .withdraw i => s.withdraw i
  | .launch i => s.launch i
  | .answer i => s.answer i
  | .execute request cancelAt => { s with runner := (s.runner.begin request cancelAt).1 }
  | .step i =>
    { s with runner := s.runner.stepJob i, departed := s.departed + endings s.runner i }
  | .depart => s.depart
  | .cancel id => if s.runner.isActive id then s.stop (· == id) else s
  | .cancelAll => s.stop s.runner.isActive
  | .close => s.close
  | .await => s.await
  | .tick t => { s with runner := s.runner.setNow t }
  | .listen broker => { s with runner := s.runner.withBroker broker }
  | .meddle ledger =>
    { s with runner := { s.runner with desk := { s.runner.desk with ledger } } }

def run (s : Reception) : List Move → Reception
  | [] => s
  | m :: rest => (s.next m).run rest

theorem run_append (s : Reception) (a b : List Move) : s.run (a ++ b) = (s.run a).run b := by
  induction a generalizing s with
  | nil => rfl
  | cons m rest ih => exact ih _

/-! ### A submission that nothing comes between -/

def remainder (i : Nat) : List Move := [.record i none, .withdraw i, .launch i, .answer i]

def submission (n : Nat) (request : Request) : List Move := .enroll request :: remainder n

/-- **A submission that nothing comes between is the runner's own**, and so is its answer. -/
theorem run_submission (s : Reception) (request : Request)
    (hnew : s.runner.newId s.runner.issued ∉ s.runner.desk.tracked) :
    (s.run (submission s.submissions.length request)).runner = (s.runner.submit request).1 ∧
      (s.run (submission s.submissions.length request)).submissions = s.submissions ∧
      ∃ a : Submission.Answer, a.result = (s.runner.submit request).2 ∧
        (s.run (submission s.submissions.length request)).answers = s.answers ++ [a] := by
  cases hclosed : s.runner.closed with
  | true =>
    have hrun : s.run (submission s.submissions.length request) =
        { s with answers := s.answers ++ [.closed] } := by
      simp [submission, remainder, run, next, enroll, hclosed, record, withdraw, launch, answer]
    rw [hrun]
    simp [Runner.submit, hclosed, Submission.Answer.result]
  | false =>
    have hid : ∀ id now, (request.complete.newRun id now).id = id := fun _ _ => rfl
    have hledger : ∀ id, (s.runner.desk.track id).ledger = s.runner.desk.ledger := fun _ => rfl
    cases hcreate : s.runner.desk.ledger.createRun false
      (request.complete.newRun (s.runner.newId s.runner.issued) s.runner.now) with
    | error e =>
      simp [submission, remainder, run, next, enroll, hclosed, record, create, hcreate, withdraw,
        launch, answer, Runner.submit, hid, hledger, Desk.untrack_track hnew, Submission.Answer.result,
        List.eraseIdx_append_of_length_le]
    | ok ledger =>
      simp [submission, remainder, run, next, enroll, hclosed, record, create, hcreate, withdraw,
        launch, answer, Runner.submit, Desk.track, Submission.Answer.result,
        List.eraseIdx_append_of_length_le]
      rfl

/-! ### What a move can do -/

/-- What a move makes of a reception. -/
inductive Effect (s : Reception) : Move → Reception → Prop
  /-- Some are told to stop, time passes, the runner is closed, a shutdown is over, others use the
  store, or nothing happens. -/
  | stands {m : Move} (which : Text → Bool) {r : Runner} {returned : Bool}
    (hjobs : r.jobs = Runner.stopJobs (fun j => which j.id) s.runner.jobs)
    (htracked : r.desk.tracked = s.runner.desk.tracked) (hids : r.newId = s.runner.newId)
    (hissued : r.issued = s.runner.issued)
    (hclosed : r.closed = s.runner.closed ∨ (r.closed = true ∧ which = s.runner.isActive))
    (hreturned : returned = s.returned ∨ (s.runner.closed = true ∧ s.waiting = 0))
    (hledger : r.desk.ledger = s.runner.desk.ledger ∨ ∃ ledger, m = .meddle ledger)
    (hmove : ∀ i, m ≠ .step i) :
    Effect s m { s with
      runner := r, submissions := s.submissions.map (·.tell which), returned }
  | turnedAway {request : Request} (hclosed : s.runner.closed = true) :
    Effect s (.enroll request) { s with answers := s.answers ++ [.closed] }
  | admits {request : Request} (hopen : s.runner.closed = false) {run : Run} {asked : Request}
    (hid : run.id = s.runner.newId s.runner.issued) (hpending : run.status = .pending) :
    Effect s (.enroll request) { s with
      runner := { s.runner with desk := s.runner.desk.track run.id, issued := s.runner.issued + 1 }
      submissions := s.submissions ++ [⟨run, asked, false, .admitted⟩]
      waiting := s.waiting + 1 }
  | refuses {m : Move} {before after : List Submission} {x : Submission} {e : StoreError}
    (hat : s.submissions = before ++ x :: after) (hstage : x.stage = .admitted)
    (hmove : ∀ i, m ≠ .step i) :
    Effect s m { s with submissions := before ++ { x with stage := .refused e } :: after }
  | records {m : Move} {before after : List Submission} {x : Submission} {ledger : Ledger}
    (hat : s.submissions = before ++ x :: after) (hstage : x.stage = .admitted)
    (hcreate : s.runner.desk.ledger.createRun false x.run = .ok ledger)
    (hmove : ∀ i, m ≠ .step i) :
    Effect s m { s with
      runner := { s.runner with desk := { s.runner.desk with ledger } }
      submissions := before ++ { x with stage := .recorded } :: after }
  | withdraws {m : Move} {before after : List Submission} {x : Submission} {e : StoreError}
    (hat : s.submissions = before ++ x :: after) (hstage : x.stage = .refused e)
    (hmove : ∀ i, m ≠ .step i) :
    Effect s m { s with
      runner := { s.runner with desk := s.runner.desk.untrack x.id }
      submissions := before ++ { x with cancelled := true, stage := .withdrawn e } :: after }
  | launches {m : Move} {before after : List Submission} {x : Submission} {job : Job}
    (hat : s.submissions = before ++ x :: after) (hstage : x.stage = .recorded)
    (hid : job.id = x.id) (hphase : job.phase = .starting) (hsubmitted : job.submitted = true)
    (hcancelled : job.cancelled = x.cancelled) (hmove : ∀ i, m ≠ .step i) :
    Effect s m { s with
      runner := { s.runner with jobs := s.runner.jobs ++ [job] }
      submissions := before ++ { x with stage := .launched } :: after }
  | dismisses {m : Move} {before after : List Submission} {x : Submission} {e : StoreError}
    (hat : s.submissions = before ++ x :: after) (hstage : x.stage = .withdrawn e)
    (hmove : ∀ i, m ≠ .step i) :
    Effect s m { s with
      submissions := before ++ after
      waiting := s.waiting - 1
      answers := s.answers ++ [.refused x.id e] }
  | accepts {m : Move} {before after : List Submission} {x : Submission}
    (hat : s.submissions = before ++ x :: after) (hstage : x.stage = .launched)
    (hmove : ∀ i, m ≠ .step i) :
    Effect s m { s with
      submissions := before ++ after, answers := s.answers ++ [.accepted x.run] }
  | executes {m : Move} {interrupted : Bool} {run : Run} {job : Job} {ledger : Ledger}
    (hid : run.id = s.runner.newId s.runner.issued) (hpending : run.status = .pending)
    (hcreate : s.runner.desk.ledger.createRun interrupted run = .ok ledger)
    (hjob : job.id = run.id) (hphase : job.phase = .starting) (hsubmitted : job.submitted = false)
    (hmove : ∀ i, m ≠ .step i) :
    Effect s m { s with runner := { s.runner with
      desk := { s.runner.desk with ledger }.track run.id, jobs := s.runner.jobs ++ [job]
      issued := s.runner.issued + 1 } }
  | fails {m : Move} {outcomes : List (Text × RunOutcome)} (hmove : ∀ i, m ≠ .step i) :
    Effect s m { s with runner := { s.runner with outcomes, issued := s.runner.issued + 1 } }
  | steps {i : Nat} {r : Runner} (h : Runner.Steps s.runner i r) :
    Effect s (.step i) { s with runner := r, departed := s.departed + endings s.runner i }
  | departs {m : Move} (hsome : s.departed ≠ 0) (hmove : ∀ i, m ≠ .step i) :
    Effect s m { s with waiting := s.waiting - 1, departed := s.departed - 1 }

theorem tell_none (x : Submission) : x.tell (fun _ => false) = x := by
  simp [Submission.tell]

theorem Effect.quiet {s : Reception} {m : Move} {r : Runner} {returned : Bool}
    (hjobs : r.jobs = s.runner.jobs) (htracked : r.desk.tracked = s.runner.desk.tracked)
    (hids : r.newId = s.runner.newId) (hissued : r.issued = s.runner.issued)
    (hclosed : r.closed = s.runner.closed)
    (hreturned : returned = s.returned ∨ (s.runner.closed = true ∧ s.waiting = 0))
    (hledger : r.desk.ledger = s.runner.desk.ledger ∨ ∃ ledger, m = .meddle ledger)
    (hmove : ∀ i, m ≠ .step i) : Effect s m { s with runner := r, returned } := by
  have hsame : s.submissions.map (·.tell fun _ => false) = s.submissions := by
    simp [tell_none]
  have heffect := Effect.stands (s := s) (m := m) (fun _ => false)
    (hjobs.trans (Runner.stopJobs_none _).symm) htracked hids hissued (.inl hclosed) hreturned
    hledger hmove
  rw [hsame] at heffect
  exact heffect

theorem Effect.idle (s : Reception) {m : Move} (hmove : ∀ i, m ≠ .step i) : Effect s m s :=
  Effect.quiet rfl rfl rfl rfl rfl (.inl rfl) (.inl rfl) hmove

theorem Effect.congr {s s' t : Reception} {m : Move} (he : Effect s m t) (h : s' = t) : Effect s m s' :=
  h ▸ he

theorem record_effect (s : Reception) (i : Nat) (failure : Option StoreError) :
    Effect s (.record i failure) (s.record i failure) := by
  unfold record
  split
  · rename_i hx
    obtain ⟨before, after, hat, rfl⟩ := exists_split hx
    split
    · exact (Effect.refuses hat rfl (by simp)).congr (by simp [hat]; rfl)
    · rename_i ledger hcreate
      refine (Effect.records hat rfl ?_ (by simp)).congr (by simp [hat]; rfl)
      cases failure with
      | some e => cases hcreate
      | none => exact hcreate
  · exact .idle s (by simp)

theorem withdraw_effect (s : Reception) (i : Nat) : Effect s (.withdraw i) (s.withdraw i) := by
  unfold withdraw
  split
  · rename_i hx
    obtain ⟨before, after, hat, rfl⟩ := exists_split hx
    exact (Effect.withdraws hat rfl (by simp)).congr (by simp [hat]; rfl)
  · exact .idle s (by simp)

theorem launch_effect (s : Reception) (i : Nat) : Effect s (.launch i) (s.launch i) := by
  unfold launch
  split
  · rename_i run request cancelled hx
    obtain ⟨before, after, hat, rfl⟩ := exists_split hx
    have hid : { Job.new run request true none with cancelled }.id = run.id := rfl
    exact (Effect.launches hat rfl hid rfl rfl rfl (by simp)).congr (by simp [hat])
  · exact .idle s (by simp)

theorem answer_effect (s : Reception) (i : Nat) : Effect s (.answer i) (s.answer i) := by
  unfold answer
  split
  · rename_i hx
    obtain ⟨before, after, hat, rfl⟩ := exists_split hx
    exact (Effect.dismisses hat rfl (by simp)).congr
      (by simp [hat, List.eraseIdx_append_of_length_le]; rfl)
  · rename_i hx
    obtain ⟨before, after, hat, rfl⟩ := exists_split hx
    exact (Effect.accepts hat rfl (by simp)).congr
      (by simp [hat, List.eraseIdx_append_of_length_le])
  · exact .idle s (by simp)

theorem next_effect (s : Reception) (m : Move) : Effect s m (s.next m) := by
  cases m with
  | enroll request =>
    show Effect s _ (s.enroll request)
    unfold enroll
    split
    · rename_i hclosed
      exact .turnedAway hclosed
    · rename_i hopen
      exact .admits (Bool.eq_false_iff.mpr hopen) rfl rfl
  | record i failure => exact s.record_effect i failure
  | withdraw i => exact s.withdraw_effect i
  | launch i => exact s.launch_effect i
  | answer i => exact s.answer_effect i
  | execute request cancelAt =>
    show Effect s _ { s with runner := (s.runner.begin request cancelAt).1 }
    unfold Runner.begin
    dsimp only
    split
    · exact .fails (by simp)
    · rename_i ledger hcreate
      exact .executes rfl rfl hcreate rfl rfl rfl (by simp)
  | step i => exact .steps (s.runner.stepJob_steps i)
  | depart =>
    show Effect s _ s.depart
    unfold depart
    split
    · exact .idle s (by simp)
    · rename_i hsome
      exact .departs hsome (by simp)
  | cancel id =>
    show Effect s _ (if s.runner.isActive id then s.stop (· == id) else s)
    split
    · exact .stands (· == id) rfl rfl rfl rfl (.inl rfl) (.inl rfl) (.inl rfl) (by simp)
    · exact .idle s (by simp)
  | cancelAll =>
    exact .stands s.runner.isActive rfl rfl rfl rfl (.inl rfl) (.inl rfl) (.inl rfl) (by simp)
  | close =>
    exact .stands s.runner.isActive rfl rfl rfl rfl (.inr ⟨rfl, rfl⟩) (.inl rfl) (.inl rfl)
      (by simp)
  | await =>
    show Effect s _ s.await
    unfold await
    split
    · rename_i hdone
      rw [Bool.and_eq_true, beq_iff_eq] at hdone
      exact .quiet rfl rfl rfl rfl rfl (.inr hdone) (.inl rfl) (by simp)
    · exact .idle s (by simp)
  | tick t | listen broker => exact .quiet rfl rfl rfl rfl rfl (.inl rfl) (.inl rfl) (by simp)
  | meddle ledger => exact .quiet rfl rfl rfl rfl rfl (.inl rfl) (.inr ⟨ledger, rfl⟩) (by simp)

end Reception
end Regatta
