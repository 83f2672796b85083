import Regatta.Proofs.Ending
import Regatta.Proofs.Service.Traffic

/-! A run that is told to stop comes to an end, whatever the tool does.

Its job steps until it waits for calls that were told to stop, lets time pass until all of them have
come back, and goes on from there without waiting again (`ends_of_stopped`). What a runner needs for
that is that a call which was told to stop has an end (`Lively`), and it has that at all times. -/
namespace Regatta

namespace Job

/-- Every call in flight ends once it is told to stop. -/
def Phase.Sound : Phase → Prop
  | .collecting c => c.activity.Sound
  | .verifying v => v.Vital Activity.Sound
  | _ => True

variable {j j' : Job} {d d' : Desk}

theorem sound_collection (b : Bench) (c : Circuit.Collector) (circuit : Text) :
    (Circuit.Collection.start b c circuit).2.Holds (fun c => c.activity.Sound) (fun _ => True) := by
  unfold Circuit.Collection.start
  dsimp only
  split
  · trivial
  · exact Activity.start_sound _ _

theorem sound_gathering {p : Progress Circuit.Collection Circuit.Collected}
    (h : p.Holds (fun c => c.activity.Sound) (fun _ => True)) : (Phase.gathering p).Sound := by
  cases p with
  | going c => exact h
  | ended x => trivial

theorem sound_proving {p : Progress Verification Verification.Outcome}
    (h : p.Holds (·.Vital Activity.Sound) (fun _ => True)) : (Phase.proving p).Sound := by
  cases p with
  | going v => exact h
  | ended o => trivial

theorem step_sound (h : j.phase.Sound) (hstep : j.step d = (d', .going j')) : j'.phase.Sound := by
  cases does_of_step hstep with
  | givesUp => trivial
  | @starts before _ _ _ _ _ _ _ hstart =>
    have hsound := sound_collection before d.collector j.request.dataset
    rw [hstart] at hsound
    exact sound_gathering hsound
  | @gathers _ _ p hphase hadvance =>
    rw [hphase] at h
    unfold Circuit.Collection.advance at hadvance
    split at hadvance
    · rename_i hgoing
      cases hadvance
      exact (Activity.advance_going (congrArg Prod.snd hgoing)).sound h
    · cases hadvance
      trivial
  | launches _ hstart =>
    have hvital := Verification.vital_start d.bench.tool.upholds_sound d.options j.verification
    rw [hstart] at hvital
    exact sound_proving hvital
  | verifies hphase hverify =>
    rw [hphase] at h
    have hvital := Verification.Vital.step h d.bench.tool.upholds_sound (j.stopped d)
    rw [hverify] at hvital
    exact sound_proving hvital
  | answers => trivial

/-! ### The way out -/

/-- Who was told to stop stays told, and a time that has passed has passed. -/
theorem stopped_later (h : j.stopped d = true) (hnow : d.now ≤ d'.now) : j.stopped d' = true := by
  unfold Job.stopped Bench.passed at h ⊢
  rw [Bool.or_eq_true] at h ⊢
  refine h.imp_right fun hpassed => ?_
  cases hat : j.cancelAt with
  | none =>
    rw [hat] at hpassed
    exact hpassed
  | some t =>
    rw [hat] at hpassed
    simp only [Option.any_some, decide_eq_true_eq] at hpassed ⊢
    exact Int.le_trans hpassed hnow

theorem Does.stopped (hdoes : j.Does d (d', .going j')) (h : j.stopped d = true) :
    j'.stopped d' = true := by
  obtain ⟨calls, hattends, -⟩ := hdoes.attends
  have hnow : d'.now = d.now := hattends.makes.now
  have hlater := stopped_later h (Int.le_of_eq hnow.symm)
  unfold Job.stopped at hlater ⊢
  rw [hdoes.continues.cancelled, hdoes.continues.cancelAt]
  exact hlater

/-- The job comes to its end when it steps and time passes, as long as nothing else happens. -/
inductive Ends : Desk → Job → Prop
  | leaves {d d' : Desk} {j : Job} {o : RunOutcome} (h : j.step d = (d', .ended o)) : Ends d j
  | steps {d d' : Desk} {j j' : Job} (h : j.step d = (d', .going j')) (hrest : Ends d' j') :
    Ends d j
  | waits {d : Desk} {j : Job} {t : Instant} (ht : d.now ≤ t)
    (hrest : Ends { d with bench := { d.bench with now := t } } j) : Ends d j

theorem ends_of_next (h : ∀ d' j', j.Does d (d', .going j') → j'.Ends d') : j.Ends d := by
  cases hstep : j.step d with
  | mk d' progress =>
  cases progress with
  | going j' => exact .steps hstep (h d' j' (does_of_step hstep))
  | ended o => exact .leaves hstep

theorem ends_of_leaving {o : RunOutcome} (h : j.phase = .leaving o) (d : Desk) : j.Ends d := by
  have hstep : j.step d = (j.leave d o, .ended o) := by
    unfold step
    rw [h]
  exact .leaves hstep

theorem ends_of_verified {o : Verification.Outcome} (h : j.phase = .verified o) (d : Desk) :
    j.Ends d := by
  refine ends_of_next fun d' j' hdoes => ?_
  cases hdoes with
  | givesUp | answers => exact ends_of_leaving rfl _
  | starts hphase | gathers hphase | launches hphase | verifies hphase =>
    cases h.symm.trans hphase

variable {v : Verification}

theorem Does.verifying (hdoes : j.Does d (d', .going j')) (h : j.phase = .verifying v) :
    ∃ bench events p, v.step d.bench (j.stopped d) = (bench, events, p) ∧ j'.phase = .proving p := by
  cases hdoes with
  | verifies hphase hstep =>
    cases h.symm.trans hphase
    exact ⟨_, _, _, hstep, rfl⟩
  | givesUp hidle =>
    rw [h] at hidle
    exact hidle.elim
  | starts hphase | gathers hphase | launches hphase | answers hphase =>
    cases h.symm.trans hphase

theorem ends_of_raced {x : EngineResult} (h : j.phase = .verifying v)
    (hx : v.phase = .raced x) (d : Desk) : j.Ends d := by
  refine ends_of_next fun d' j' hdoes => ?_
  obtain ⟨bench, events, p, hstep, hnext⟩ := hdoes.verifying h
  unfold Verification.step at hstep
  rw [hx] at hstep
  cases hstep
  exact ends_of_verified hnext _

theorem ends_of_finite (hstopped : j.stopped d = true)
    (h : j.phase = .verifying v) (hv : v.Vital Activity.Finite) : j.Ends d := by
  obtain ⟨t, ht⟩ := hv.ends
  refine .waits (t := max d.now t) (Int.le_max_left ..) (ends_of_next fun d' j' hdoes => ?_)
  have hlater : j.stopped { d with bench := { d.bench with now := max d.now t } } = true :=
    stopped_later hstopped (Int.le_max_left ..)
  have hdone := ht { d.bench with now := max d.now t } (Int.le_max_right ..)
  obtain ⟨bench, events, p, hstep, hnext⟩ := hdoes.verifying h
  rw [hlater] at hstep
  rw [hstep] at hdone
  cases p with
  | going v' =>
    obtain ⟨x, hx⟩ := hdone
    exact ends_of_raced hnext hx _
  | ended o => exact ends_of_verified hnext _

theorem ends_of_verifying (hstopped : j.stopped d = true)
    (h : j.phase = .verifying v) (hv : v.Vital Activity.Sound) : j.Ends d := by
  have hhalts := hv.halts d.bench
  refine ends_of_next fun d' j' hdoes => ?_
  obtain ⟨bench, events, p, hstep, hnext⟩ := hdoes.verifying h
  rw [hstopped] at hstep
  rw [hstep] at hhalts
  cases p with
  | going v' => exact ends_of_finite (hdoes.stopped hstopped) hnext hhalts
  | ended o => exact ends_of_verified hnext _

theorem ends_of_collected {x : Circuit.Collected} (hstopped : j.stopped d = true)
    (h : j.phase = .collected x) : j.Ends d := by
  refine ends_of_next fun d' j' hdoes => ?_
  have hstays := hdoes.stopped hstopped
  cases hdoes with
  | givesUp => exact ends_of_leaving rfl _
  | @launches _ _ p hphase hstart =>
    have hvital := Verification.vital_start d.bench.tool.upholds_sound d.options j.verification
    rw [hstart] at hvital
    cases p with
    | going v => exact ends_of_verifying hstays rfl hvital
    | ended o => exact ends_of_verified rfl _
  | starts hphase | gathers hphase | verifies hphase | answers hphase =>
    cases h.symm.trans hphase

theorem Does.collecting {c : Circuit.Collection} (hdoes : j.Does d (d', .going j'))
    (h : j.phase = .collecting c) :
    (∃ lines a, c.activity.advance d.now (j.stopped d || d.bench.passed c.deadline) =
        (lines, .going a) ∧ j'.phase = .collecting { c with activity := a }) ∨
      ∃ x, j'.phase = .collected x := by
  cases hdoes with
  | gathers hphase hadvance =>
    cases h.symm.trans hphase
    unfold Circuit.Collection.advance at hadvance
    split at hadvance
    · rename_i lines a hgoing
      cases hadvance
      exact .inl ⟨lines, a, hgoing, rfl⟩
    · cases hadvance
      exact .inr ⟨_, rfl⟩
  | givesUp hidle =>
    rw [h] at hidle
    exact hidle.elim
  | starts hphase | launches hphase | verifies hphase | answers hphase =>
    cases h.symm.trans hphase

theorem ends_of_collecting {c : Circuit.Collection} (hstopped : j.stopped d = true)
    (h : j.phase = .collecting c) (hc : c.activity.Finite) : j.Ends d := by
  obtain ⟨t, ht⟩ := hc.ends
  have hlater : j.stopped { d with bench := { d.bench with now := max d.now t } } = true :=
    stopped_later hstopped (Int.le_max_left ..)
  refine .waits (t := max d.now t) (Int.le_max_left ..) (ends_of_next fun d' j' hdoes => ?_)
  rcases hdoes.collecting h with ⟨lines, a, hgoing, -⟩ | ⟨x, hphase⟩
  · obtain ⟨lines', r, hended⟩ := ht (max d.now t) (Int.le_max_right ..) _
    cases hgoing.symm.trans hended
  · exact ends_of_collected (hdoes.stopped hlater) hphase

/-- **A job that was told to stop comes to its end.** -/
theorem ends_of_stopped (hstopped : j.stopped d = true) (hsound : j.phase.Sound) : j.Ends d := by
  cases hphase : j.phase with
  | starting =>
    refine ends_of_next fun d' j' hdoes => ?_
    cases hdoes with
    | givesUp => exact ends_of_leaving rfl _
    | starts _ hgoes => cases hgoes.symm.trans hstopped
    | gathers h | launches h | verifies h | answers h => cases hphase.symm.trans h
  | collecting c =>
    rw [hphase] at hsound
    refine ends_of_next fun d' j' hdoes => ?_
    have hstays := hdoes.stopped hstopped
    rcases hdoes.collecting hphase with ⟨lines, a, hgoing, hnext⟩ | ⟨x, hnext⟩
    · rw [hstopped] at hgoing
      exact ends_of_collecting hstays hnext (Activity.Sound.finite hsound (congrArg Prod.snd hgoing))
    · exact ends_of_collected hstays hnext
  | collected x => exact ends_of_collected hstopped hphase
  | verifying v =>
    rw [hphase] at hsound
    exact ends_of_verifying hstopped hphase hsound
  | verified o => exact ends_of_verified hphase d
  | leaving o => exact ends_of_leaving hphase d

end Job

namespace Runner

/-- The event does not turn the clock back. -/
def Event.Ahead (now : Instant) : Event → Prop
  | .tick t => now ≤ t
  | _ => True

instance (now : Instant) (e : Event) : Decidable (e.Ahead now) :=
  match e with
  | .tick t => inferInstanceAs (Decidable (now ≤ t))
  | .submit _ | .execute _ _ | .cancel _ | .cancelAll | .closeDown | .step _ | .subscribe _
  | .unsubscribe _ | .drain _ _ => .isTrue trivial

def Forward (r : Runner) : List Event → Prop
  | [] => True
  | e :: rest => e.Ahead r.now ∧ (r.next e).Forward rest

instance (r : Runner) (events : List Event) : Decidable (r.Forward events) :=
  decide r events
where
  decide (r : Runner) : (events : List Event) → Decidable (r.Forward events)
    | [] => .isTrue trivial
    | e :: rest =>
      have := decide (r.next e) rest
      inferInstanceAs (Decidable (e.Ahead r.now ∧ (r.next e).Forward rest))

variable {r r' : Runner}

/-- A job that comes to its end leaves the runner, and no other job needs to do anything for it. -/
theorem exists_departure {d : Desk} {j : Job} (h : j.Ends d) (hd : r.desk = d)
    {before after : List Job} (hjobs : r.jobs = before ++ j :: after) :
    ∃ events, (∀ e ∈ events, e = .step before.length ∨ ∃ t, e = .tick t) ∧ r.Forward events ∧
      (r.run events).jobs = before ++ after := by
  induction h generalizing r with
  | leaves h =>
    subst hd
    refine ⟨[.step before.length], by simp, ⟨trivial, trivial⟩, ?_⟩
    show (r.stepJob before.length).jobs = _
    rw [stepJob_ended hjobs h]
  | @steps d d' j j' h _ ih =>
    subst hd
    have hnext : r.next (.step before.length) = { r with desk := d', jobs := before ++ j' :: after } :=
      stepJob_going hjobs h
    obtain ⟨events, hevents, hforward, hend⟩ := ih (r := r.next (.step before.length))
      (by rw [hnext]) (by rw [hnext])
    refine ⟨.step before.length :: events, ?_, ⟨trivial, hforward⟩, hend⟩
    intro e he
    rcases List.mem_cons.mp he with rfl | he
    · exact .inl rfl
    · exact hevents e he
  | @waits d j t ht _ ih =>
    subst hd
    obtain ⟨events, hevents, hforward, hend⟩ := ih (r := r.next (.tick t)) rfl hjobs
    refine ⟨.tick t :: events, ?_, ⟨ht, hforward⟩, hend⟩
    intro e he
    rcases List.mem_cons.mp he with rfl | he
    · exact .inr ⟨t, rfl⟩
    · exact hevents e he

def Lively (r : Runner) : Prop := ∀ j ∈ r.jobs, j.phase.Sound

namespace Lively
variable (h : r.Lively)
include h

theorem stop {which : Job → Bool} (hjobs : r'.jobs = stopJobs which r.jobs) : r'.Lively := by
  intro j' hj'
  rw [hjobs] at hj'
  obtain ⟨j, hj, -, -, hphase, -⟩ := mem_stopJobs hj'
  rw [hphase]
  exact h j hj

theorem enter {job : Job} (hphase : job.phase = .starting)
    (hjobs : r'.jobs = r.jobs ++ [job]) : r'.Lively := by
  intro j hj
  rw [hjobs, List.mem_append, List.mem_singleton] at hj
  rcases hj with hj | rfl
  · exact h j hj
  · rw [hphase]
    trivial

theorem steps {i : Nat} (hs : Steps r i r') : r'.Lively := by
  cases hs with
  | nobody => exact h
  | @going before after j j' desk hj hjobs hstep =>
    have hsound := Job.step_sound (h j (by simp [hjobs])) hstep
    intro k hk
    rcases mem_middle.mp hk with rfl | hk
    · exact hsound
    · exact h k (hjobs ▸ mem_middle.mpr (.inr hk))
  | ended hj hjobs => exact fun k hk => h k (hjobs ▸ mem_middle.mpr (.inr hk))

theorem next (e : Event) : (r.next e).Lively := by
  cases r.next_effect e with
  | stands which hjobs => exact h.stop hjobs
  | enters hcreate hjob hjobs => exact h.enter hjob.phase hjobs
  | steps _ hsteps => exact h.steps hsteps

theorem run (events : List Event) : (r.run events).Lively := by
  induction events generalizing r with
  | nil => exact h
  | cons e rest ih => exact ih (h.next e)

end Lively

end Runner
end Regatta
