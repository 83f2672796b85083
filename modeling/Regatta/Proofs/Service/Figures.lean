import Regatta.Proofs.Decimal.Nearest
import Regatta.Proofs.Service.Life
import Regatta.Proofs.Service.Traffic

/-! The figures over all runs agree with each other.

They are counted apart: the statuses, the verdicts, the engines that won, and the times of runs that an
engine won. That they agree rests on what a record can be (`RunRow.Accountable`): only a completed run
has a verdict, and an engine and an elapsed time belong to a conclusive one. Every step of a job keeps
the records that way, whether or not the store does as it is told, since what a job records in the
end follows from the results of the engines that were asked for (`Job.Founded`). -/
namespace Regatta

/-! ### Counts -/

namespace RunStats

/-- What counts come to together. -/
def overall : List (Text × Nat) → Nat
  | [] => 0
  | c :: rest => c.2 + overall rest

theorem overall_perm {a b : List (Text × Nat)} (h : a.Perm b) : overall a = overall b := by
  induction h with
  | nil => rfl
  | cons c _ ih => rw [overall, overall, ih]
  | swap c c' rest =>
    simp only [overall]
    omega
  | trans _ _ ih ih' => exact ih.trans ih'

/-- Each text is counted once, as often as it occurs. -/
theorem overall_distinct (ts : List Text) :
    overall (ts.eraseDups.map fun t => (t, ts.count t)) = ts.length := by
  cases ts with
  | nil => rfl
  | cons t rest =>
    have hrest := overall_distinct (rest.filter fun u => !u == t)
    have hsplit : rest.count t + (rest.filter fun u => !u == t).length = rest.length := by
      rw [List.length_eq_countP_add_countP (· == t) (l := rest), ← List.countP_eq_length_filter]
      exact congrArg (rest.count t + ·) (List.countP_congr fun u _ => by simp)
    -- the other texts occur in the rest as often as in all
    have hcounts : ∀ u ∈ (rest.filter fun u => !u == t).eraseDups,
        (u, (t :: rest).count u) = (u, (rest.filter fun u => !u == t).count u) := by
      intro u hu
      have hother := (List.mem_filter.mp (List.mem_eraseDups.mp hu)).2
      have hne : t ≠ u := by
        rintro rfl
        simp at hother
      rw [List.count_filter (p := fun u => !u == t) hother, List.count_cons_of_ne hne]
    rw [List.eraseDups_cons, List.map_cons, overall, List.map_congr_left hcounts, hrest,
      List.count_cons_self, List.length_cons, ← hsplit]
    omega
termination_by ts.length
decreasing_by exact Nat.lt_succ_of_le (List.length_filter_le _ _)

theorem overall_tally (ts : List Text) : overall (tally ts) = ts.length := by
  rw [← overall_distinct ts]
  exact overall_perm ((List.mergeSort_perm _ _).map _)

end RunStats

/-! ### Records -/

/-- Only a completed run shows an answer, and an engine and an elapsed time with a conclusive one. -/
structure RunRow.Accountable (row : RunRow) : Prop where
  unanswered : row.standing ≠ .completed →
    row.verdict = [] ∧ row.engine = [] ∧ row.elapsedMillis = none
  verdict : row.standing = .completed →
    row.answer ∈ [Verdict.sat, Verdict.unsat, Verdict.unknown, Verdict.fail]
  engine : row.standing = .completed → (row.engine ≠ [] ↔ row.answer.conclusive = true)
  elapsed : row.standing = .completed →
    (row.elapsedMillis.isSome = true ↔ row.answer.conclusive = true)

namespace RunRow

variable {row : RunRow}

theorem Ended.accountable (h : row.Ended) : row.Accountable :=
  ⟨h.unanswered, h.verdict, h.engine, h.elapsed⟩

theorem accountable_unanswered (hother : row.standing ≠ .completed)
    (h : row.verdict = [] ∧ row.engine = [] ∧ row.elapsedMillis = none) : row.Accountable :=
  ⟨fun _ => h, fun hs => absurd hs hother, fun hs => absurd hs hother, fun hs => absurd hs hother⟩

namespace Accountable

theorem verdict_iff (h : row.Accountable) : row.verdict ≠ [] ↔ row.standing = .completed := by
  constructor
  · intro hverdict
    by_contra hother
    exact hverdict (h.unanswered hother).1
  · intro hcompleted hnone
    have hanswer := h.verdict hcompleted
    unfold RunRow.answer at hanswer
    rw [hnone] at hanswer
    exact absurd hanswer (by decide)

theorem completed_of_conclusive (h : row.Accountable) (hanswer : row.answer.conclusive = true) :
    row.standing = .completed := by
  refine h.verdict_iff.mp fun hnone => ?_
  unfold RunRow.answer at hanswer
  rw [hnone] at hanswer
  exact absurd hanswer (by decide)

theorem engine_iff (h : row.Accountable) : row.engine ≠ [] ↔ row.answer.conclusive = true := by
  by_cases hs : row.standing = .completed
  · exact h.engine hs
  · exact iff_of_false (fun hne => hne (h.unanswered hs).2.1)
      fun hanswer => hs (h.completed_of_conclusive hanswer)

theorem elapsed_of_conclusive (h : row.Accountable) (hanswer : row.answer.conclusive = true) :
    row.elapsedMillis.isSome = true :=
  (h.elapsed (h.completed_of_conclusive hanswer)).mpr hanswer

end Accountable
end RunRow

/-! ### Figures of accountable records -/

namespace RunStats

/-- The double is the sum of these times divided by their number, and zero where there are none. -/
structure Averages (times : List Int) (x : Double) : Prop where
  none : times = [] → x = .zero
  quotient : times ≠ [] → x = (Double.ofInt (times.foldl (· + ·) 0)).div (.ofInt times.length)
  nearest : times ≠ [] → times.length < 2 ^ 53 → ∀ sum : Nat, sum < 2 ^ 53 →
    times.foldl (· + ·) 0 = (sum : Int) → Double.Nearest (sum / times.length) x

theorem averages_mean (times : List Int) : Averages times (mean times) := by
  cases times with
  | nil => exact ⟨fun _ => rfl, fun h => absurd rfl h, fun h => absurd rfl h⟩
  | cons t rest =>
    refine ⟨fun h => (by cases h), fun _ => rfl, fun _ hcount sum hless hsum => ?_⟩
    show Double.Nearest _ ((Double.ofInt (List.foldl ..)).div _)
    rw [hsum]
    exact Double.nearest_div (Double.amounts_ofInt hless) (Double.amounts_ofInt hcount)
      (Nat.cast_ne_zero.mpr (by simp))

/-- The figures over these records agree with them and with each other. -/
structure Agrees (rows : List RunRow) (stats : RunStats) : Prop where
  total : stats.total = rows.length
  statuses : overall stats.byStatus = stats.total
  verdicts : overall stats.byVerdict = rows.countP (·.standing = .completed)
  wins : overall stats.winsByEngine =
    rows.countP (·.answer = .sat) + rows.countP (·.answer = .unsat)
  /-- The times of exactly the runs with a conclusive verdict are averaged. -/
  average : ∃ times : List Int, Averages times stats.averageMillis ∧
    times.map some = (rows.filter (·.answer.conclusive)).map (·.elapsedMillis)

theorem countP_conclusive (rows : List RunRow) : rows.countP (·.answer.conclusive) =
    rows.countP (·.answer = .sat) + rows.countP (·.answer = .unsat) := by
  induction rows with
  | nil => rfl
  | cons row rest ih =>
    have hone : (if row.answer.conclusive = true then 1 else 0) =
        (if decide (row.answer = .sat) = true then 1 else 0) +
          if decide (row.answer = .unsat) = true then 1 else 0 := by
      by_cases hsat : row.answer = .sat
      · rw [hsat]
        decide
      · simp [Verdict.conclusive, hsat]
    rw [List.countP_cons, List.countP_cons, List.countP_cons, ih, hone]
    omega

/-- The counts of a column are over the records that have something there. -/
theorem overall_column (rows : List RunRow) (column : RunRow → Text) :
    overall (tally ((rows.map column).filter (!·.isEmpty))) = rows.countP (column · ≠ []) := by
  rw [overall_tally, List.filter_map, List.length_map, ← List.countP_eq_length_filter]
  exact List.countP_congr fun row _ => by simp

theorem agrees_ofRows {rows : List RunRow} (h : ∀ row ∈ rows, row.Accountable) :
    Agrees rows (ofRows rows) where
  total := rfl
  statuses := by
    show overall (tally _) = rows.length
    rw [overall_tally, List.length_map]
  verdicts := by
    refine (overall_column rows (·.verdict)).trans (List.countP_congr fun row hrow => ?_)
    simpa using (h row hrow).verdict_iff
  wins := by
    rw [← countP_conclusive]
    refine (overall_column rows (·.engine)).trans (List.countP_congr fun row hrow => ?_)
    simpa using (h row hrow).engine_iff
  average := by
    have hsame : rows.filter (!·.engine.isEmpty) = rows.filter (·.answer.conclusive) := by
      refine List.filter_congr fun row hrow => ?_
      rw [Bool.eq_iff_iff, ← (h row hrow).engine_iff]
      simp
    refine ⟨_, averages_mean _, ?_⟩
    rw [hsame]
    have helapsed : ∀ row ∈ rows.filter (·.answer.conclusive), row.elapsedMillis.isSome = true := by
      intro row hrow
      obtain ⟨hmem, hanswer⟩ := List.mem_filter.mp hrow
      exact (h row hmem).elapsed_of_conclusive hanswer
    generalize rows.filter (·.answer.conclusive) = chosen at helapsed
    induction chosen with
    | nil => rfl
    | cons row rest ih =>
      obtain ⟨t, ht⟩ := Option.isSome_iff_exists.mp (helapsed row (List.mem_cons_self ..))
      rw [List.filterMap_cons, ht, List.map_cons, List.map_cons, ht,
        ih fun x hx => helapsed x (List.mem_cons_of_mem _ hx)]

end RunStats

/-! ### The store -/

/-- No two rows are of the same run, and each is accountable. -/
structure Store.InOrder (s : Store) : Prop where
  keyed : s.Keyed
  rows : ∀ row ∈ s.runs, row.Accountable

theorem Store.answer_move (now : Instant) (target : Status) (row : RunRow) :
    (move now target row).verdict = row.verdict ∧ (move now target row).engine = row.engine ∧
      (move now target row).elapsedMillis = row.elapsedMillis := by
  unfold move
  dsimp only
  split
  · exact ⟨rfl, rfl, rfl⟩
  · split <;> exact ⟨rfl, rfl, rfl⟩

namespace Store.InOrder

variable {s s' : Store}

theorem of_runs (h : s.InOrder) (hruns : s'.runs = s.runs) : s'.InOrder := by
  refine ⟨?_, hruns ▸ h.rows⟩
  unfold Keyed
  rw [hruns]
  exact h.keyed

theorem createRun (h : s.InOrder) {run : Run} (hrun : (encode run).Accountable)
    (hok : s.createRun run = .ok s') : s'.InOrder := by
  refine ⟨(createRun_change hok).keyed h.keyed, ?_⟩
  obtain ⟨-, rfl⟩ := createRun_eq_ok hok
  intro row hrow
  rcases List.mem_append.mp hrow with hold | hnew
  · exact h.rows row hold
  · rw [List.mem_singleton.mp hnew]
    exact hrun

theorem updateRun (h : s.InOrder) {run : Run} (hrun : ∀ row, (overwrite run row).Accountable)
    (hok : s.updateRun run = .ok s') : s'.InOrder := by
  have hdoes := (Operation.updateRun run).does hok
  refine ⟨(hdoes.change rfl).keyed h.keyed, ?_⟩
  cases hdoes with
  | reads => exact h.rows
  | revises =>
    intro row hrow
    obtain ⟨old, hold, rfl⟩ := List.mem_map.mp hrow
    split
    · exact hrun old
    · exact h.rows old hold

theorem start (h : s.InOrder) {now : Instant} {id : Text}
    (hok : s.updateStatus now id .running = .ok s') : s'.InOrder := by
  have hdoes := (Operation.updateStatus now id .running).does hok
  refine ⟨(hdoes.change rfl).keyed h.keyed, ?_⟩
  cases hdoes with
  | reads => exact h.rows
  | @moves _ _ _ found hfound hallows =>
    have hpending : found.standing ≠ .completed := by
      rcases (Status.allows_cases hallows).1 with heq | heq <;> rw [heq] <;> decide
    intro row hrow
    obtain ⟨old, hold, rfl⟩ := List.mem_map.mp hrow
    split
    · rename_i hid
      have hrow : s.row? id = some old := by
        rw [← beq_iff_eq.mp hid]
        exact h.keyed.row?_eq hold
      have hsame : found = old := Option.some.inj (hfound.symm.trans hrow)
      rw [hsame] at hpending
      obtain ⟨hverdict, hengine, helapsed⟩ := answer_move now .running old
      refine RunRow.accountable_unanswered ?_ ?_
      · rw [standing_move]
        decide
      · rw [hverdict, hengine, helapsed]
        exact (h.rows old hold).unanswered hpending
    · exact h.rows old hold

end Store.InOrder

/-! ### Jobs -/

namespace Job

/-- What a job has come to follows from results of the engines that were asked for. -/
def Phase.Founded (engines : List Engine) : Phase → Prop
  | .verifying v => v.request.engines = engines ∧ ∃ seen, v.Stands seen
  | .verified o => ∃ seen, o.Follows engines seen
  | _ => True

structure Founded (j : Job) : Prop where
  runnable : ∀ e ∈ j.request.engines.getD [], e ∈ Engine.all
  phase : j.phase.Founded (j.request.engines.getD [])

variable {j : Job} {d d' : Desk}

theorem finish_inOrder (h : d.ledger.store.InOrder) {status : Status} {error : Text}
    (hrun : ∀ row, (Store.overwrite (j.closing d.now status error) row).Accountable) :
    (j.finish d status error).ledger.store.InOrder := by
  show (d.record "failed to record finished run"
    (d.ledger.updateRun (j.closing d.now status error))).ledger.store.InOrder
  unfold Desk.record
  split
  · rename_i ledger hok
    exact h.updateRun hrun (Ledger.change_eq_ok hok).1
  · exact h

theorem founded_proving {p : Progress Verification Verification.Outcome}
    {q : Verification.Request} {seen : List EngineResult}
    (h : p.Holds (fun v => v.request = q ∧ v.Stands seen) (·.Follows q.engines seen)) :
    (Phase.proving p).Founded q.engines := by
  cases p with
  | going v => exact ⟨congrArg (·.engines) h.1, seen, h.2⟩
  | ended o => exact ⟨seen, h⟩

/-- **A step of a job keeps the records in order**, whether or not the store does as it is told. -/
theorem Founded.step (hj : j.Founded) (h : d.ledger.store.InOrder)
    {progress : Progress Job RunOutcome} (hstep : j.step d = (d', progress)) :
    d'.ledger.store.InOrder ∧ progress.Holds Founded fun _ => True := by
  have hfounded := hj.phase
  have hrunnable := hj.runnable
  cases does_of_step hstep with
  | @givesUp bench status _ _ _ _ _ hstatus =>
    have hother : status ≠ .completed := by
      rcases hstatus with rfl | rfl <;> decide
    refine ⟨finish_inOrder (d := { d with bench }) h fun row => RunRow.accountable_unanswered ?_ ?_,
      hrunnable, trivial⟩
    · rw [standing_closing]
      exact hother
    · rw [closing_of_ne j _ hother]
      exact ⟨rfl, rfl, rfl⟩
  | @starts _ _ _ p _ _ hupdate =>
    refine ⟨h.start (Ledger.change_eq_ok hupdate).1, hrunnable, ?_⟩
    cases p <;> trivial
  | @gathers _ _ p =>
    refine ⟨h, hrunnable, ?_⟩
    cases p <;> trivial
  | launches _ hstart => exact ⟨h, hrunnable, founded_proving (Verification.start_stands hstart)⟩
  | @verifies v bench events p hphase hverify kept hkept =>
    rw [hphase] at hfounded
    obtain ⟨hengines, seen, hstands⟩ := hfounded
    have hruns := keepAll_runs events (j, { d with bench })
    have hrequest := (keepAll_continues events (j, { d with bench })).request
    have hnext := founded_proving (Verification.step_stands hstands hverify)
    rw [hkept] at hruns hrequest
    rw [hengines] at hnext
    refine ⟨h.of_runs hruns, ?_, ?_⟩
    · exact hrequest ▸ hrunnable
    · exact hrequest ▸ hnext
  | @answers r hphase =>
    rw [hphase] at hfounded
    obtain ⟨seen, hfollows⟩ := hfounded
    exact ⟨finish_inOrder h fun row =>
      (j.ended_answered d.now row (hfollows.presentable hrunnable)).accountable, hrunnable, trivial⟩
  | @leaves o =>
    rw [(j.leave_spec d o).2.1]
    exact ⟨h, trivial⟩

theorem Enters.founded {request : Request} (hparsed : request.Parsed) {id : Text} {now : Instant}
    (hj : j.Enters request id now) : j.Founded := by
  obtain ⟨names, engines, hnames, hengines⟩ := hparsed
  have hcomplete : request.complete.engines = some engines := by
    unfold Request.complete
    split <;> exact hengines
  refine ⟨?_, hj.phase ▸ trivial⟩
  rw [hj.request, hcomplete]
  exact (Engine.parseList_ok hnames).2

end Job

/-! ### The runner -/

theorem Request.accountable_newRun (q : Request) (id : Text) (now : Instant) :
    (Store.encode (q.newRun id now)).Accountable :=
  RunRow.accountable_unanswered (show Status.pending ≠ .completed by decide) ⟨rfl, rfl, rfl⟩

namespace Runner

/-- The records are in order, and so are the jobs that will add to them. -/
structure InOrder (r : Runner) : Prop where
  store : r.desk.ledger.store.InOrder
  jobs : ∀ j ∈ r.jobs, j.Founded

variable {r r' : Runner}

theorem InOrder.steps (h : r.InOrder) {i : Nat} (hs : Steps r i r') : r'.InOrder := by
  cases hs with
  | nobody => exact h
  | @going before after j j' desk hj hjobs hstep =>
    obtain ⟨hstore, hfounded⟩ := (h.jobs j (by simp [hjobs])).step h.store hstep
    refine ⟨hstore, fun k hk => ?_⟩
    rcases mem_middle.mp hk with rfl | hk
    · exact hfounded
    · exact h.jobs k (hjobs ▸ mem_middle.mpr (.inr hk))
  | @ended before after j desk o hj hjobs hstep =>
    obtain ⟨hstore, -⟩ := (h.jobs j (by simp [hjobs])).step h.store hstep
    exact ⟨hstore, fun k hk => h.jobs k (hjobs ▸ mem_middle.mpr (.inr hk))⟩

theorem InOrder.next (h : r.InOrder) {e : Event} (he : e.Proper fun _ => True) :
    (r.next e).InOrder := by
  cases r.next_effect e with
  | stands which hjobs hledger =>
    refine ⟨hledger ▸ h.store, fun j' hj' => ?_⟩
    rw [hjobs] at hj'
    obtain ⟨j, hj, rfl, -⟩ := mem_stopJobs hj'
    split
    · exact ⟨(h.jobs j hj).runnable, (h.jobs j hj).phase⟩
    · exact h.jobs j hj
  | @enters request id _ _ hcreate hjob hjobs _ _ _ _ hproper =>
    refine ⟨h.store.createRun (Request.accountable_newRun _ id r.now)
      (Ledger.store_createRun hcreate), fun j hj => ?_⟩
    rw [hjobs, List.mem_append, List.mem_singleton] at hj
    rcases hj with hj | rfl
    · exact h.jobs j hj
    · exact hjob.founded (hproper _ he)
  | steps _ hs => exact h.steps hs

inductive Incident where
  | event (e : Event)
  /-- From now on these operations of the store refuse to work, with the reasons they give. -/
  | refuse (operations : List (Text × Text))

/-- The engines of a request come from a list of names. -/
def Incident.Proper : Incident → Prop
  | .event e => e.Proper fun _ => True
  | .refuse _ => True

def meet (r : Runner) : Incident → Runner
  | .event e => r.next e
  | .refuse operations =>
    { r with desk := { r.desk with ledger := { r.desk.ledger with refusals := operations } } }

def meetAll (r : Runner) (incidents : List Incident) : Runner := incidents.foldl meet r

theorem InOrder.meet (h : r.InOrder) {i : Incident} (hi : i.Proper) : (r.meet i).InOrder := by
  cases i with
  | event e => exact h.next hi
  | refuse operations => exact ⟨h.store, h.jobs⟩

theorem InOrder.meetAll (h : r.InOrder) {incidents : List Incident}
    (hproper : ∀ i ∈ incidents, i.Proper) : (r.meetAll incidents).InOrder := by
  induction incidents generalizing r with
  | nil => exact h
  | cons i rest ih =>
    exact ih (h.meet (hproper i (List.mem_cons_self ..))) fun x hx =>
      hproper x (List.mem_cons_of_mem _ hx)

theorem Steps.isOpen {i : Nat} (h : Steps r i r') :
    r'.desk.ledger.store.isOpen = r.desk.ledger.store.isOpen := by
  cases h with
  | nobody => rfl
  | going hj hjobs hstep =>
    obtain ⟨calls, hcarries, -⟩ := Job.step_spec hstep
    exact hcarries.attends.isOpen
  | ended hj hjobs hstep => exact congrArg (·.store.isOpen) (Job.step_spec hstep).2.2.1

theorem next_isOpen (r : Runner) (e : Event) :
    (r.next e).desk.ledger.store.isOpen = r.desk.ledger.store.isOpen := by
  cases r.next_effect e with
  | stands which hjobs hledger => rw [hledger]
  | enters hcreate =>
    exact (Store.createRun_change (Ledger.store_createRun hcreate)).isOpen
  | steps _ hs => exact hs.isOpen

theorem meetAll_isOpen (r : Runner) (incidents : List Incident) :
    (r.meetAll incidents).desk.ledger.store.isOpen = r.desk.ledger.store.isOpen := by
  induction incidents generalizing r with
  | nil => rfl
  | cons i rest ih =>
    refine (ih (r.meet i)).trans ?_
    cases i with
    | event e => exact r.next_isOpen e
    | refuse operations => rfl

/-- **The figures over all runs agree**, whatever a runner that has started with an empty store is
asked to do, whatever the tool does, and whatever the store refuses. -/
theorem stats_agree (r₀ : Runner) (hjobs : r₀.jobs = [])
    (hopen : r₀.desk.ledger.store.isOpen = true) (hruns : r₀.desk.ledger.store.runs = [])
    (incidents : List Incident) (hproper : ∀ i ∈ incidents, i.Proper) :
    ∃ stats, (r₀.meetAll incidents).desk.ledger.store.stats = .ok stats ∧
      stats.Agrees (r₀.meetAll incidents).desk.ledger.store.runs := by
  have hstart : r₀.InOrder := by
    refine ⟨⟨?_, ?_⟩, ?_⟩
    · unfold Store.Keyed
      rw [hruns]
      exact List.nodup_nil
    · simp [hruns]
    · simp [hjobs]
  refine ⟨_, ?_, RunStats.agrees_ofRows (hstart.meetAll hproper).store.rows⟩
  unfold Store.stats
  rw [Store.need_of_open ((r₀.meetAll_isOpen incidents).trans hopen)]
  rfl

/-- One run ends with a counterexample and another is cancelled, and the store keeps no lines. The
time of the first is the average. -/
theorem stats_agree_duo :
    let incidents := .refuse [("InsertLogLine", "disk full")] :: duoEvents.map Incident.event
    (∀ i ∈ incidents, i.Proper) ∧
    (∃ stats, (duoRunner.meetAll incidents).desk.ledger.store.stats = .ok stats ∧
      stats.Agrees (duoRunner.meetAll incidents).desk.ledger.store.runs ∧
      stats.averageMillis.Amounts 30) ∧
    (duoRunner.meetAll incidents).desk.ledger.store.runs.map (·.answer) = [.sat, .absent] := by
  intro incidents
  have hproper : ∀ i ∈ incidents, i.Proper := by
    simp [incidents, duoEvents, Incident.Proper, Event.Proper, duoRequest_parsed]
  have hwon : ((duoRunner.meetAll incidents).desk.ledger.store.runs.filter
      (·.answer.conclusive)).map (·.elapsedMillis) = [some 30] := by
    decide +kernel
  obtain ⟨stats, hstats, hagrees⟩ := stats_agree duoRunner rfl rfl rfl incidents hproper
  refine ⟨hproper, ⟨stats, hstats, hagrees, ?_⟩, by decide +kernel⟩
  obtain ⟨times, haverages, htimes⟩ := hagrees.average
  obtain rfl : times = [30] := List.map_injective_iff.mpr (Option.some_injective _) (htimes.trans hwon)
  have hnearest := haverages.nearest (by simp) (by simp) 30 (by norm_num) rfl
  have hthirty : ((30 : Nat) : ℚ) / ([30] : List Int).length = 30 := by norm_num
  rw [hthirty] at hnearest
  exact hnearest.exact (g := 0) (z := 30) (by decide) (by decide) (by norm_num) (by norm_num)

end Runner
end Regatta
