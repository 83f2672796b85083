import Regatta.Proofs.Bench
import Regatta.Proofs.Race.Interleaving

/-! What a verification reports, and what it comes to.

The results that a verification reports are those that its race has looked at, and its answer is the
outcome of that race, or a failure without any result when a stage left nothing to race on. At any
time the results reported so far say where it stands (`Stands`); `step_stands` says that every step
keeps to that, and that the outcome follows from the results (`Outcome.Follows`). -/
namespace Regatta

namespace Race

/-- A race under way whose owner has looked at these results. -/
def Racing (engines : List Engine) (seen : List EngineResult) (r : Race) : Prop :=
  ∃ ws p, Joins engines ws r p ∧ p.consumed = seen

/-- A race that came to this outcome after its owner had looked at these results. -/
def Settles (engines : List Engine) (seen : List EngineResult) (o : EngineResult) : Prop :=
  ∃ p : Party, p.Accounted engines ∧ p.owner = .returned o ∧ p.consumed = seen ∧
    ∀ a ∈ p.arrived, Reported engines a

variable {engines : List Engine} {seen : List EngineResult}

theorem Racing.advance {r : Race}
    (h : Racing engines seen r) {b b' : Bench} {stop : Bool} {events : List RaceEvent}
    {progress : Progress Race EngineResult} (ha : r.advance b stop = (b', events, progress)) :
    progress.Holds (Racing engines (seen ++ RaceEvent.results events))
      (Settles engines (seen ++ RaceEvent.results events)) := by
  obtain ⟨ws, p, hjoins, rfl⟩ := h
  obtain ⟨moves, hconsumed, hfetched, hend⟩ := hjoins.advance ha
  cases progress with
  | going r' => exact ⟨ws, p.run moves, hend, hconsumed⟩
  | ended o =>
    exact ⟨p.run moves, hjoins.accounted.run moves, hend, hconsumed,
      fun a ha => (hfetched a ha).reported hjoins.named⟩

theorem start_stands {b b' : Bench} {id circuit : Text} {budget : Duration}
    {progress : Progress Race EngineResult}
    (h : Race.start b id circuit budget engines = (b', progress)) :
    progress.Holds (Racing engines []) (Settles engines []) := by
  unfold Race.start at h
  split at h
  · rename_i hnil
    rw [List.isEmpty_iff] at hnil
    subst hnil
    cases h
    exact ⟨Party.start [], Party.accounted_start [], rfl, rfl, nofun⟩
  · rename_i hne
    rw [List.isEmpty_iff] at hne
    cases h
    obtain ⟨moves, hjoins, hconsumed⟩ :=
      joins_start id hne (engines_start b id circuit budget engines)
    exact ⟨_, _, hjoins, hconsumed⟩

/-- When nothing was conclusive, every engine's result was looked at. -/
theorem perm_engines {p : Party} (h : p.Accounted engines)
    (hreported : ∀ a ∈ p.arrived, Reported engines a) (hall : p.arrived.length = engines.length) :
    (p.arrived.map (·.2.engine)).Perm engines := by
  obtain ⟨hworkers, _⟩ := h.count
  have hlaunched := h.launched
  have hw : p.working = [] := List.eq_nil_of_length_eq_zero (by omega)
  have hr : p.returning = [] := List.eq_nil_of_length_eq_zero (by omega)
  have hnumbers := h.workers
  rw [hw, hr, show p.launched = engines.length by omega] at hnumbers
  have hnamed : p.arrived.map (fun a => some a.2.engine) =
      (p.arrived.map (·.1)).map (engines[·]?) := by
    rw [List.map_map]
    exact List.map_congr_left fun a ha => (hreported a ha).engine.symm
  have hrange : (List.range engines.length).map (engines[·]?) = engines.map some := by
    refine List.ext_getElem (by simp) fun i hi hi' => ?_
    simp only [List.length_map] at hi'
    simp [hi']
  have hperm : (p.arrived.map fun a => some a.2.engine).Perm (engines.map some) := by
    rw [hnamed, ← hrange]
    exact hnumbers.map _
  simpa [List.filterMap_map, Function.comp_def] using hperm.filterMap fun e => e

/-- A race came to the last result that was looked at, the only conclusive one, or to nothing after
all engines were heard. -/
theorem Settles.cases {o : EngineResult} (h : Settles engines seen o) :
    (o.verdict.conclusive = true ∧ o.engine ∈ engines ∧ o.elapsed.isSome = true ∧
      ∃ before, seen = before ++ [o] ∧ ∀ r ∈ before, r.verdict.conclusive = false) ∨
    (o = .inconclusive ∧ (seen.map (·.engine)).Perm engines ∧
      ∀ r ∈ seen, r.verdict.conclusive = false) := by
  obtain ⟨p, haccounted, howner, rfl, hreported⟩ := h
  have hplaced := haccounted.placed
  unfold Party.Placed at hplaced
  rw [howner] at hplaced
  obtain ⟨hqueue, hworking, hreturning, hwatches, rfl⟩ := hplaced
  have hresults := haccounted.results
  cases hw : p.exchange.winner with
  | some w =>
    obtain ⟨hv, before, hconsumed, hbefore⟩ := haccounted.decided w hw
    have houtcome : p.exchange.outcome = w := by simp [Exchange.outcome, hw]
    obtain ⟨a, ha, rfl⟩ : ∃ a ∈ p.arrived, a.2 = w := by
      refine List.mem_map.mp ?_
      rw [← hresults, hconsumed]
      simp
    rw [houtcome]
    exact .inl ⟨hv, List.mem_of_getElem? (hreported a ha).engine, (hreported a ha).elapsed, before,
      hconsumed, hbefore⟩
  | none =>
    have houtcome : p.exchange.outcome = .inconclusive := by simp [Exchange.outcome, hw]
    have hdue : p.exchange.due = 0 := by simpa [Exchange.watches, hw] using hwatches
    have hlength := haccounted.due
    obtain ⟨hworkers, hcount⟩ := haccounted.count
    have hlaunched := haccounted.launched
    have hnil : p.drained ++ p.exchange.queue = [] := by
      refine List.eq_nil_of_length_eq_zero ?_
      rw [List.length_append]
      omega
    rw [hnil, List.append_nil] at hresults
    refine .inr ⟨houtcome, ?_, haccounted.undecided hw⟩
    rw [hresults, List.map_map]
    exact perm_engines haccounted hreported (by omega)

theorem Settles.reporters {o : EngineResult} (h : Settles engines seen o) :
    seen.length ≤ engines.length ∧ ∀ r ∈ seen, r.engine ∈ engines := by
  obtain ⟨p, haccounted, -, rfl, hreported⟩ := h
  refine ⟨haccounted.due ▸ Nat.le_add_right .., fun r hr => ?_⟩
  obtain ⟨a, ha, rfl⟩ : ∃ a ∈ p.arrived, a.2 = r := by
    refine List.mem_map.mp ?_
    rw [← haccounted.results]
    exact List.mem_append_left _ hr
  exact List.mem_of_getElem? (hreported a ha).engine

end Race

namespace Verification

/-- Where a verification stands that has reported these results. -/
def Stands (v : Verification) (seen : List EngineResult) : Prop :=
  match v.phase with
  | .transforming .. => seen = []
  | .racing race => race.Racing v.request.engines seen
  | .raced result => Race.Settles v.request.engines seen result

/-- Whether an outcome follows from the results that were reported. -/
def Outcome.Follows (engines : List Engine) (seen : List EngineResult) : Outcome → Prop
  | .answer result none => (result = .failed ∧ seen = []) ∨ Race.Settles engines seen result
  | _ => True

variable {b b' : Bench} {progress : Progress Verification Outcome} {r : Request}

variable {phase : Phase} {rest : List Stage} {stop : Bool} {v : Verification}

theorem startRace_stands {circuit : Text}
    (h : startRace b r circuit = (b', phase)) (budget : Duration) (scratch : Option Text) :
    Stands ⟨r, budget, scratch, phase⟩ [] := by
  unfold startRace at h
  split at h <;> rename_i hstart <;> cases h
  · exact Race.start_stands hstart
  · exact Race.start_stands hstart

theorem resume_stands (v : Verification) (b : Bench) (source : Text) (rest : List Stage) :
    (v.resume b source rest).2.request = v.request ∧ (v.resume b source rest).2.Stands [] := by
  cases rest with
  | nil => exact ⟨rfl, startRace_stands rfl _ _⟩
  | cons s rest => exact ⟨rfl, rfl⟩

theorem start_stands {o : Options} (h : start b o r = (b', progress)) :
    progress.Holds (fun v => v.request = r ∧ v.Stands []) (Outcome.Follows r.engines []) := by
  have hbegins := begins b o r
  rw [h] at hbegins
  cases hbegins with
  | refused => trivial
  | @resumes b' v stages _ hrequest =>
    obtain ⟨hsame, hstands⟩ := resume_stands v b' (b.absolute r.circuit) stages
    exact ⟨hsame.trans hrequest, hstands⟩

/-- **A step of a verification keeps to the results it has reported.** -/
theorem step_stands {seen : List EngineResult} (h : v.Stands seen)
    {events : List RaceEvent} (hstep : v.step b stop = (b', events, progress)) :
    progress.Holds
      (fun v' => v'.request = v.request ∧ v'.Stands (seen ++ RaceEvent.results events))
      (Outcome.Follows v.request.engines (seen ++ RaceEvent.results events)) := by
  have hdoes := v.does b stop
  rw [hstep] at hdoes
  unfold Stands at h
  cases hdoes with
  | @races race _ _ p hphase hadvance =>
    rw [hphase] at h
    have hnext := h.advance hadvance
    cases p with
    | going race' => exact ⟨rfl, hnext⟩
    | ended result => exact ⟨rfl, hnext⟩
  | closes hphase =>
    rw [hphase] at h
    cases stop
    · rw [RaceEvent.results_nil, List.append_nil]
      exact .inr h
    · trivial
  | waits hphase =>
    rw [hphase] at h
    rw [h, RaceEvent.results_lines]
    exact ⟨rfl, rfl⟩
  | fails hphase _ _ _ hfailing =>
    rw [hphase] at h
    rw [h, RaceEvent.results_lines]
    cases hfailing with
    | nothing => exact .inl ⟨rfl, rfl⟩
    | _ => trivial
  | resumes hphase =>
    rw [hphase] at h
    rw [h, RaceEvent.results_lines]
    exact resume_stands v _ _ _

end Verification
end Regatta
