import Regatta.Proofs.Service.Runner
import Regatta.Proofs.Service.Steps

/-! The jobs of a runner side by side: whose run is touched by a step, which calls are in flight, and
what status each run shows.

All of this holds for any requests. The calls that were made for a run are those that have come back
and those that its job has in flight (`Tallied`), whatever the store does; where the store does as it
is told, every job's run is recorded with a status that fits (`Orderly`). -/
namespace Regatta

theorem Bench.Makes.length {calls : List Invocation} {b b' : Bench} (h : Makes calls b b') :
    b'.calls.length = calls.length + b.calls.length := by
  rw [h.calls, List.length_append, List.length_reverse, List.length_map]

namespace Runner

/-! ### A step of one job -/

/-- What happens at the desk of another run. -/
structure Aside (id : Text) (r r' : Runner) : Prop where
  row : r'.desk.ledger.store.row? id = r.desk.ledger.store.row? id
  tracked : id ∈ r'.desk.tracked ↔ id ∈ r.desk.tracked
  jobs : ∀ j : Job, j.id = id → (j ∈ r'.jobs ↔ j ∈ r.jobs)

variable {r r' : Runner} {i : Nat}

namespace Steps
variable (h : Steps r i r')
include h

theorem now : r'.now = r.now := by
  cases h with
  | nobody => rfl
  | going hj hjobs hstep =>
    obtain ⟨calls, hcarries, -⟩ := Job.step_spec hstep
    exact hcarries.attends.makes.now
  | ended hj hjobs hstep => exact (Job.step_spec hstep).2.1.now

theorem willing (hr : r.desk.ledger.Willing) : r'.desk.ledger.Willing := by
  cases h with
  | nobody => exact hr
  | going hj hjobs hstep =>
    obtain ⟨calls, hcarries, -⟩ := Job.step_spec hstep
    exact hcarries.attends.willing hr
  | ended hj hjobs hstep =>
    show (_ : Desk).ledger.Willing
    rw [(Job.step_spec hstep).2.2.1]
    exact hr

/-- The ids of the jobs after a step are those before it, less that of a job that ends. -/
theorem ids : (r'.jobs.map Job.id).Sublist (r.jobs.map Job.id) := by
  cases h with
  | nobody => exact List.Sublist.refl _
  | going hj hjobs hstep =>
    obtain ⟨calls, hcarries, -⟩ := Job.step_spec hstep
    rw [hjobs, List.map_append, List.map_append, List.map_cons, List.map_cons, hcarries.continues.id]
  | ended hj hjobs =>
    rw [hjobs, List.map_append, List.map_append, List.map_cons]
    exact (List.sublist_cons_self _ _).append_left _

/-- The runs that jobs work on stay tracked. -/
theorem tracked (hnodup : (r.jobs.map Job.id).Nodup)
    (htracked : ∀ j ∈ r.jobs, j.id ∈ r.desk.tracked) : ∀ j ∈ r'.jobs, j.id ∈ r'.desk.tracked := by
  cases h with
  | nobody => exact htracked
  | @going before after j j' desk hj hjobs hstep =>
    obtain ⟨calls, hcarries, -⟩ := Job.step_spec hstep
    intro k hk
    show k.id ∈ desk.tracked
    rw [hcarries.attends.tracked]
    rcases mem_middle.mp hk with rfl | hk
    · rw [hcarries.continues.id]
      exact htracked j (by simp [hjobs])
    · exact htracked k (hjobs ▸ mem_middle.mpr (.inr hk))
  | @ended before after j desk o hj hjobs hstep =>
    obtain ⟨-, -, -, hdropped⟩ := Job.step_spec hstep
    intro k hk
    show k.id ∈ desk.tracked
    have hne := ids_apart (hjobs ▸ hnodup) k hk
    rw [hdropped, List.mem_filter]
    exact ⟨htracked k (hjobs ▸ mem_middle.mpr (.inr hk)), by simp [hne]⟩

theorem aside {id : Text} (hother : ∀ j, r.jobs[i]? = some j → j.id ≠ id) : Aside id r r' := by
  cases h with
  | nobody => exact ⟨rfl, Iff.rfl, fun _ _ => Iff.rfl⟩
  | @going before after j j' desk hj hjobs hstep =>
    have hne : j.id ≠ id := hother j hj
    obtain ⟨calls, hcarries, -⟩ := Job.step_spec hstep
    refine ⟨hcarries.attends.others id hne.symm, ?_, fun k hk => ?_⟩
    · show id ∈ desk.tracked ↔ _
      rw [hcarries.attends.tracked]
    · have hold : k ≠ j := fun heq => hne (heq ▸ hk)
      have hmade : k ≠ j' := fun heq => hne (hcarries.continues.id.symm.trans (heq ▸ hk))
      rw [hjobs, mem_middle, mem_middle, or_iff_right hold, or_iff_right hmade]
  | @ended before after j desk o hj hjobs hstep =>
    have hne : j.id ≠ id := hother j hj
    obtain ⟨-, -, hledger, htracked⟩ := Job.step_spec hstep
    refine ⟨?_, ?_, fun k hk => ?_⟩
    · show desk.ledger.store.row? id = _
      rw [hledger]
    · show id ∈ desk.tracked ↔ _
      rw [htracked, List.mem_filter]
      simp [hne.symm]
    · have hold : k ≠ j := fun heq => hne (heq ▸ hk)
      rw [hjobs, mem_middle, or_iff_right hold]

end Steps

/-! ### Calls -/

def callsOf (r : Runner) (id : Text) (i : Nat) : Nat :=
  match r.jobs[i]? with
  | some j =>
    if j.id = id then (j.step r.desk).1.bench.calls.length - r.desk.bench.calls.length else 0
  | none => 0

def returnsOf (r : Runner) (id : Text) (i : Nat) : Nat :=
  match r.jobs[i]? with
  | some j => if j.id = id then j.returns r.desk else 0
  | none => 0

structure Tallied (made back : Text → Nat) (jobs : List Job) : Prop where
  busy : ∀ j ∈ jobs, made j.id = back j.id + j.phase.inFlight
  quiet : ∀ id, (∀ j ∈ jobs, j.id ≠ id) → made id = back id

variable {made back : Text → Nat} {jobs : List Job}

variable {id : Text} {which : Job → Bool}

theorem callsOf_other (h : ∀ j, r.jobs[i]? = some j → j.id ≠ id) :
    r.callsOf id i = 0 ∧ r.returnsOf id i = 0 := by
  unfold callsOf returnsOf
  cases hj : r.jobs[i]? with
  | none => exact ⟨rfl, rfl⟩
  | some j =>
    have hne := h j hj
    simp [hne]

/-- The account of one run after a step of the job with this index. -/
def Balanced (made back : Text → Nat) (r : Runner) (i : Nat) (r' : Runner) (id : Text) : Prop :=
  (∀ k ∈ r'.jobs, k.id = id →
      made id + r.callsOf id i = back id + r.returnsOf id i + k.phase.inFlight) ∧
    ((∀ k ∈ r'.jobs, k.id ≠ id) → made id + r.callsOf id i = back id + r.returnsOf id i)

namespace Tallied
variable (h : Tallied made back r.jobs)
include h

theorem aside (hs : Steps r i r')
    (hother : ∀ j, r.jobs[i]? = some j → j.id ≠ id) : Balanced made back r i r' id := by
  obtain ⟨hcalls, hreturns⟩ := callsOf_other hother
  have haside := hs.aside hother
  unfold Balanced
  rw [hcalls, hreturns]
  refine ⟨fun k hk hid => ?_, fun habsent => ?_⟩
  · have hbusy := h.busy k ((haside.jobs k hid).mp hk)
    rw [hid] at hbusy
    exact hbusy
  · exact h.quiet id fun k hk hid => habsent k ((haside.jobs k hid).mpr hk) hid

/-- The run whose job steps gets the calls that are made and those that come back. -/
theorem own (hs : Steps r i r')
    (hnodup : (r.jobs.map Job.id).Nodup) {j : Job} (hj : r.jobs[i]? = some j) :
    Balanced made back r i r' j.id := by
  have hbusy := h.busy j (List.mem_of_getElem? hj)
  cases hs with
  | nobody hnone =>
    rw [hnone] at hj
    cases hj
  | @going before after j₀ j' desk hsame hjobs hstep =>
    cases hj.symm.trans hsame
    obtain ⟨calls, hcarries, hbalanced⟩ := Job.step_spec hstep
    have hlength : desk.bench.calls.length = calls.length + r.desk.bench.calls.length :=
      hcarries.attends.makes.length
    have hcalls : r.callsOf j.id i = calls.length := by
      simp [callsOf, hj, hstep, hlength]
    have hreturns : r.returnsOf j.id i = j.returns r.desk := by
      simp [returnsOf, hj]
    refine ⟨fun k hk hid => ?_, fun habsent => ?_⟩
    · rcases mem_middle.mp hk with rfl | hk
      · rw [hcalls, hreturns]
        omega
      · exact absurd hid (ids_apart (hjobs ▸ hnodup) k hk)
    · exact absurd hcarries.continues.id (habsent j' (by simp))
  | @ended before after j₀ desk o hsame hjobs hstep =>
    cases hj.symm.trans hsame
    obtain ⟨⟨out, hphase⟩, hmakes, -, -⟩ := Job.step_spec hstep
    have hlength : desk.bench.calls.length = 0 + r.desk.bench.calls.length := hmakes.length
    have hcalls : r.callsOf j.id i = 0 := by
      simp [callsOf, hj, hstep, hlength]
    have hreturns : r.returnsOf j.id i = 0 := by
      simp [returnsOf, hj, Job.returns, hphase]
    rw [hphase] at hbusy
    refine ⟨fun k hk hid => absurd hid (ids_apart (hjobs ▸ hnodup) k hk), fun _ => ?_⟩
    rw [hcalls, hreturns]
    exact hbusy

/-- The account of calls stays balanced in a step. -/
theorem steps (hs : Steps r i r') (hnodup : (r.jobs.map Job.id).Nodup) :
    Tallied (fun id => made id + r.callsOf id i) (fun id => back id + r.returnsOf id i)
      r'.jobs := by
  have hbalanced : ∀ id, Balanced made back r i r' id := by
    intro id
    by_cases hown : ∃ j, r.jobs[i]? = some j ∧ j.id = id
    · obtain ⟨j, hj, rfl⟩ := hown
      exact h.own hs hnodup hj
    · exact h.aside hs fun j hj hid => hown ⟨j, hj, hid⟩
  exact ⟨fun k hk => (hbalanced k.id).1 k hk rfl, fun id => (hbalanced id).2⟩

end Tallied

theorem absent_stopJobs :
    (∀ j ∈ stopJobs which jobs, j.id ≠ id) ↔ ∀ j ∈ jobs, j.id ≠ id := by
  have hids := ids_stopJobs which jobs
  have hmem : ∀ l : List Job, (∀ j ∈ l, j.id ≠ id) ↔ id ∉ l.map Job.id := by
    intro l
    simp [List.mem_map]
  rw [hmem, hmem, hids]

theorem Tallied.stop (h : Tallied made back jobs) (which : Job → Bool) :
    Tallied made back (stopJobs which jobs) where
  busy j' hj' := by
    obtain ⟨j, hj, -, hid, hphase, -⟩ := mem_stopJobs hj'
    rw [hid, hphase]
    exact h.busy j hj
  quiet id habsent := h.quiet id (absent_stopJobs.mp habsent)

theorem Tallied.enter (h : Tallied made back jobs) {job : Job} (hphase : job.phase = .starting)
    (hnew : ∀ j ∈ jobs, j.id ≠ job.id) : Tallied made back (jobs ++ [job]) where
  busy j hj := by
    rcases List.mem_append.mp hj with hj | hj
    · exact h.busy j hj
    · rw [List.mem_singleton.mp hj, hphase]
      exact h.quiet job.id hnew
  quiet id habsent := h.quiet id fun j hj => habsent j (List.mem_append_left _ hj)

/-! ### Statuses -/

/-- The store does as it is told, and every job's run is recorded as its phase says. -/
structure Orderly (d : Desk) (jobs : List Job) : Prop where
  willing : d.ledger.Willing
  attested : ∀ j ∈ jobs, j.Attested d

variable {d d' : Desk}

namespace Orderly
variable (h : Orderly d jobs)
include h

theorem ledger (hledger : d'.ledger = d.ledger) : Orderly d' jobs := by
  refine ⟨hledger ▸ h.willing, fun j hj => ?_⟩
  obtain ⟨row, hrow, hfits⟩ := h.attested j hj
  exact ⟨row, hledger ▸ hrow, hfits⟩

theorem stop (which : Job → Bool) : Orderly d (stopJobs which jobs) := by
  refine ⟨h.willing, fun j' hj' => ?_⟩
  obtain ⟨j, hj, -, hid, hphase, -⟩ := mem_stopJobs hj'
  obtain ⟨row, hrow, hfits⟩ := h.attested j hj
  exact ⟨row, hid ▸ hrow, hphase ▸ hfits⟩

/-- A run that a job works on is recorded already. -/
theorem apart {id : Text} (hnone : d.ledger.store.row? id = none) : ∀ j ∈ jobs, j.id ≠ id := by
  rintro j hj rfl
  obtain ⟨row, hrow, -⟩ := h.attested j hj
  rw [hrow] at hnone
  cases hnone

theorem create {interrupted : Bool} {run : Run} {ledger : Ledger}
    (hcreate : d.ledger.createRun interrupted run = .ok ledger) :
    Orderly { d with ledger } jobs ∧ (∀ j ∈ jobs, j.id ≠ run.id) ∧
      d.ledger.Rewrites run.id (Store.encode run) ledger := by
  obtain ⟨hnone, hrewrites⟩ := Ledger.createRun_eq_ok h.willing hcreate
  have hnew := h.apart hnone
  refine ⟨⟨hrewrites.willing, fun j hj => ?_⟩, hnew, hrewrites⟩
  obtain ⟨row, hrow, hfits⟩ := h.attested j hj
  exact ⟨row, (hrewrites.others j.id (hnew j hj)).trans hrow, hfits⟩

theorem enter {job : Job} (hjob : job.Attested d) : Orderly d (jobs ++ [job]) := by
  refine ⟨h.willing, fun j hj => ?_⟩
  rcases List.mem_append.mp hj with hj | hj
  · exact h.attested j hj
  · rw [List.mem_singleton.mp hj]
    exact hjob

end Orderly

theorem attested_entering {d : Desk} {run : Run} {job : Job}
    (hrow : d.ledger.store.row? run.id = some (Store.encode run)) (hpending : run.status = .pending)
    (hid : job.id = run.id) (hphase : job.phase = .starting) : job.Attested d := by
  refine ⟨Store.encode run, hid ▸ hrow, ?_⟩
  rw [hphase]
  exact hpending

/-- The statuses go on to fit in a step, and a run whose job is gone shows an end. -/
theorem Orderly.steps (h : Orderly r.desk r.jobs) (hs : Steps r i r')
    (hnodup : (r.jobs.map Job.id).Nodup) :
    Orderly r'.desk r'.jobs ∧ ∀ j ∈ r.jobs, (∀ k ∈ r'.jobs, k.id ≠ j.id) →
      ∃ row, r'.desk.ledger.store.row? j.id = some row ∧ row.standing.terminal = true := by
  have hwilling := hs.willing h.willing
  have hothers : ∀ k ∈ r.jobs, (∀ j, r.jobs[i]? = some j → j.id ≠ k.id) → k.Attested r'.desk := by
    intro k hk hother
    obtain ⟨row, hrow, hfits⟩ := h.attested k hk
    exact ⟨row, (hs.aside hother).row.trans hrow, hfits⟩
  cases hs with
  | nobody => exact ⟨h, fun j hj habsent => absurd rfl (habsent j hj)⟩
  | @going before after j j' desk hj hjobs hstep =>
    have hapart := ids_apart (hjobs ▸ hnodup)
    refine ⟨⟨hwilling, fun k hk => ?_⟩, fun k hk habsent => ?_⟩
    · rcases mem_middle.mp hk with rfl | hk
      · exact (h.attested j (by simp [hjobs])).step h.willing hstep
      · refine hothers k (hjobs ▸ mem_middle.mpr (.inr hk)) fun x hx => ?_
        cases hj.symm.trans hx
        exact (hapart k hk).symm
    · obtain ⟨calls, hcarries, -⟩ := Job.step_spec hstep
      rcases mem_middle.mp (hjobs ▸ hk) with rfl | hk
      · exact absurd hcarries.continues.id (habsent j' (by simp))
      · exact absurd rfl (habsent k (mem_middle.mpr (.inr hk)))
  | @ended before after j desk o hj hjobs hstep =>
    have hapart := ids_apart (hjobs ▸ hnodup)
    refine ⟨⟨hwilling, fun k hk => ?_⟩, fun k hk habsent => ?_⟩
    · refine hothers k (hjobs ▸ mem_middle.mpr (.inr hk)) fun x hx => ?_
      cases hj.symm.trans hx
      exact (hapart k hk).symm
    · rcases mem_middle.mp (hjobs ▸ hk) with rfl | hk
      · exact (h.attested k (by simp [hjobs])).step h.willing hstep
      · exact absurd rfl (habsent k hk)

end Runner
end Regatta
