import Regatta.Proofs.Crew
import Regatta.Proofs.Service.Departure

/-! The time that the engines of a run have.

A run is taken in with a budget of time, and passes it on: to its verification, from there to the
race, and from the race to every engine. Nobody on the way changes it, so at whatever desk the job
takes its steps, and whenever it is told to stop, each engine at work for it has exactly that budget,
counted from its start (`Becomes.allotted`). -/
namespace Regatta

/-- The engine has this much time, counted from its start. -/
structure Worker.Allotted (budget : Duration) (w : Worker) : Prop where
  time : w.budget = budget
  deadline : w.deadline = some (w.started + budget)

variable {budget : Duration}

namespace Worker

theorem allotted_start (hpos : 0 < budget) (b : Bench) (id circuit : Text) (e : Engine) :
    (start b id circuit budget e).2.Allotted budget :=
  ⟨rfl, if_neg (Int.not_le.mpr hpos)⟩

theorem Allotted.respond {w w' : Worker} (h : w.Allotted budget) {now : Instant} {stop : Bool}
    (hgoing : (w.respond now stop).2 = .going w') : w'.Allotted budget := by
  rw [(respond_going hgoing).2]
  exact ⟨h.time, h.deadline⟩

end Worker

namespace Race

/-- Every engine at work has this much time. -/
def Allots (budget : Duration) (r : Race) : Prop := ∀ w ∈ r.running, w.Allotted budget

theorem allots_start (hpos : 0 < budget) (b : Bench) (id circuit : Text) (engines : List Engine) :
    (start b id circuit budget engines).2.Holds (Allots budget) fun _ => True := by
  unfold start
  split
  · trivial
  · exact forall_startWorkers (fun b' _ _ e => Worker.allotted_start hpos b' id circuit e) engines

variable {r r' : Race}

theorem Allots.step (h : r.Allots budget) (b : Bench) (stop : Bool) :
    (r.step b stop).2.2.Allots budget := by
  intro w' hw'
  rw [running_step] at hw'
  obtain ⟨w, hw, hgoing⟩ := mem_staying.mp hw'
  exact (h w hw).respond hgoing

theorem Allots.advance (h : r.Allots budget) {b b' : Bench} {stop : Bool} {events : List RaceEvent}
    (hadvance : r.advance b stop = (b', events, .going r')) : r'.Allots budget := by
  rw [(advance_going hadvance).1]
  unfold proceed
  dsimp only
  split
  · exact (h.step b stop).step _ stop
  · exact h.step b stop

end Race

namespace Verification

def workers (v : Verification) : List Worker :=
  match v.phase with
  | .racing race => race.running
  | _ => []

structure Allots (budget : Duration) (v : Verification) : Prop where
  request : v.request.budget = budget
  workers : ∀ w ∈ v.workers, w.Allotted budget

variable {v : Verification}

theorem allots_of_idle (hrequest : v.request.budget = budget) (hidle : v.workers = []) :
    v.Allots budget :=
  ⟨hrequest, fun _ hw => absurd (hidle ▸ hw) List.not_mem_nil⟩

theorem allots_startRace (hpos : 0 < budget) (b : Bench) {r : Request} (hr : r.budget = budget)
    (circuit : Text) (transformBudget : Duration) (scratch : Option Text) :
    Allots budget ⟨r, transformBudget, scratch, (startRace b r circuit).2⟩ := by
  subst hr
  have hstart := Race.allots_start hpos b r.id circuit r.engines
  unfold startRace
  split
  · rename_i heq
    rw [heq] at hstart
    exact ⟨rfl, hstart⟩
  · exact allots_of_idle rfl rfl

theorem allots_resume (hv : v.request.budget = budget) (hpos : 0 < budget) (b : Bench)
    (source : Text) (stages : List Stage) : (v.resume b source stages).2.Allots budget := by
  cases stages with
  | nil => exact allots_startRace hpos b hv source _ _
  | cons s rest => exact allots_of_idle hv rfl

theorem allots_start (b : Bench) (o : Options) (r : Request) (hpos : 0 < r.budget) :
    (start b o r).2.Holds (Allots r.budget) fun _ => True := by
  have hbegins := begins b o r
  generalize start b o r = x at hbegins ⊢
  cases hbegins with
  | refused => trivial
  | resumes _ hrequest => exact allots_resume (congrArg Request.budget hrequest) hpos _ _ _

theorem Allots.step (h : v.Allots budget) (hpos : 0 < budget) (b : Bench) (stop : Bool) :
    (v.step b stop).2.2.Holds (Allots budget) fun _ => True := by
  have hworkers := h.workers
  unfold Verification.workers at hworkers
  have hdoes := v.does b stop
  generalize v.step b stop = x at hdoes ⊢
  cases hdoes with
  | @races _ _ _ p hphase hadvance =>
    rw [hphase] at hworkers
    cases p with
    | going race => exact ⟨h.request, Race.Allots.advance hworkers hadvance⟩
    | ended result => exact allots_of_idle h.request rfl
  | closes | fails => trivial
  | waits => exact allots_of_idle h.request rfl
  | resumes => exact allots_resume h.request hpos _ _ _

end Verification

namespace Job

def workers (j : Job) : List Worker :=
  match j.phase with
  | .verifying v => v.workers
  | _ => []

/-- What a job may have become, at whatever desk it took its steps. -/
inductive Becomes (j : Job) : Job → Prop
  | refl : Becomes j j
  | step {k k' : Job} {d d' : Desk} (h : Becomes j k) (hstep : k.step d = (d', .going k')) :
    Becomes j k'
  | told {k : Job} (h : Becomes j k) : Becomes j { k with cancelled := true }

structure Allots (budget : Duration) (j : Job) : Prop where
  request : j.request.budget = budget
  phase : ∀ v, j.phase = .verifying v → v.Allots budget

variable {j j' k : Job} {d d' : Desk}

theorem Allots.workers (h : j.Allots budget) : ∀ w ∈ j.workers, w.Allotted budget := by
  unfold Job.workers
  split
  · rename_i v hphase
    exact (h.phase v hphase).workers
  · exact fun w hw => absurd hw List.not_mem_nil

theorem Allots.step (h : j.Allots budget) (hpos : 0 < budget)
    (hstep : j.step d = (d', .going j')) : j'.Allots budget := by
  have hdoes := does_of_step hstep
  refine ⟨(congrArg Request.budget hdoes.continues.request).trans h.request, fun v hv => ?_⟩
  cases hdoes with
  | givesUp | answers => cases hv
  | @starts _ _ _ p | @gathers _ _ p => cases p <;> cases hv
  | @launches _ _ p _ hstart =>
    have hbudget : j.verification.budget = budget := h.request
    have hallots := Verification.allots_start d.bench d.options j.verification (hbudget ▸ hpos)
    rw [hstart, hbudget] at hallots
    cases p with
    | going v' =>
      cases hv
      exact hallots
    | ended o => cases hv
  | @verifies v _ _ p hphase hverify =>
    have hallots := (h.phase v hphase).step hpos d.bench (j.stopped d)
    rw [hverify] at hallots
    cases p with
    | going v' =>
      cases hv
      exact hallots
    | ended o => cases hv

theorem Becomes.allots (h : j.Becomes k) (hpos : 0 < budget) (hj : j.Allots budget) :
    k.Allots budget := by
  induction h with
  | refl => exact hj
  | step _ hstep ih => exact ih.step hpos hstep
  | told _ ih => exact ⟨ih.request, ih.phase⟩

/-- **Every engine that works for a job, from its beginning on, has the time of the request.** -/
theorem Becomes.allotted (h : j.Becomes k) (hstarting : j.phase = .starting)
    (hpos : 0 < j.request.budget) : ∀ w ∈ k.workers, w.Allotted j.request.budget := by
  refine (h.allots hpos ⟨rfl, fun v hv => ?_⟩).workers
  cases hstarting.symm.trans hv

end Job
end Regatta
