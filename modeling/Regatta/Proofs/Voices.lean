import Regatta.Proofs.Calls
import Regatta.Proofs.Race.Interleaving

/-! Whose lines a verification reports.

While stages are at work every line comes from the stage whose turn it is, and from the race on every
line comes from an engine that takes part. There is no way back from the race to the stages
(`step_voices`). -/
namespace Regatta

/-- Every line among the events has a source of this kind. -/
def RaceEvent.Spoken (source : Text → Prop) (events : List RaceEvent) : Prop :=
  ∀ name text, RaceEvent.line name text ∈ events → source name

theorem RaceEvent.Spoken.append {source : Text → Prop} {a b : List RaceEvent}
    (ha : Spoken source a) (hb : Spoken source b) : Spoken source (a ++ b) :=
  fun name text h => (List.mem_append.mp h).elim (ha name text) (hb name text)

theorem RaceEvent.spoken_lines {source : Text → Prop} {name : Text} (h : source name)
    (lines : List Text) : Spoken source (lines.map (.line name)) := by
  intro other text hmem
  obtain ⟨line, -, heq⟩ := List.mem_map.mp hmem
  cases heq
  exact h

theorem RaceEvent.spoken_results {source : Text → Prop} (rs : List EngineResult) :
    Spoken source (rs.map .result) := by
  intro name text hmem
  obtain ⟨r, -, heq⟩ := List.mem_map.mp hmem
  cases heq

/-! ### The race -/

namespace Race

/-- One of these engines is named so. -/
def Named (engines : List Engine) (name : Text) : Prop := ∃ e ∈ engines, name = e.name

/-- Only these engines take part. -/
def Manned (engines : List Engine) (ws : List Worker) : Prop := ∀ w ∈ ws, w.engine ∈ engines

variable {engines : List Engine}

theorem advanceWorkers_voices {ws : List Worker} (h : Manned engines ws) (b : Bench) (stop : Bool) :
    RaceEvent.Spoken (Named engines) (advanceWorkers b stop ws).2.1 ∧
      Manned engines (advanceWorkers b stop ws).2.2.2 := by
  induction ws generalizing b with
  | nil => exact ⟨fun _ _ hmem => absurd hmem List.not_mem_nil, h⟩
  | cons w rest ih =>
    have hw := h w (List.mem_cons_self ..)
    obtain ⟨hspoken, hmanned⟩ :=
      ih (fun x hx => h x (List.mem_cons_of_mem _ hx)) (w.advance b stop).1
    have hlines : RaceEvent.Spoken (Named engines)
        ((w.advance b stop).2.1.map (.line w.engine.name)) :=
      RaceEvent.spoken_lines ⟨w.engine, hw, rfl⟩ _
    cases hp : (w.advance b stop).2.2 with
    | going w' =>
      have hengine : w'.engine = w.engine := by
        unfold Worker.advance at hp
        split at hp <;> cases hp
        rfl
      simp only [advanceWorkers, hp]
      refine ⟨hlines.append hspoken, fun x hx => ?_⟩
      rcases List.mem_cons.mp hx with rfl | hx
      · exact hengine ▸ hw
      · exact hmanned x hx
    | ended r =>
      simp only [advanceWorkers, hp]
      exact ⟨hlines.append hspoken, hmanned⟩

theorem step_voices {r : Race} (h : Manned engines r.running) (b : Bench) (stop : Bool) :
    RaceEvent.Spoken (Named engines) (r.step b stop).2.1 ∧
      Manned engines (r.step b stop).2.2.running := by
  obtain ⟨hspoken, hmanned⟩ := advanceWorkers_voices h b (stop || !r.exchange.watches)
  exact ⟨hspoken.append (RaceEvent.spoken_results _), hmanned⟩

theorem proceed_voices {r : Race} (h : Manned engines r.running) (b : Bench) (stop : Bool) :
    RaceEvent.Spoken (Named engines) (r.proceed b stop).2.1 ∧
      Manned engines (r.proceed b stop).2.2.running := by
  obtain ⟨hspoken, hmanned⟩ := step_voices h b stop
  unfold proceed
  dsimp only
  split
  · obtain ⟨hmore, hmanned'⟩ := step_voices hmanned (r.step b stop).1 stop
    exact ⟨hspoken.append hmore, hmanned'⟩
  · exact ⟨hspoken, hmanned⟩

theorem advance_voices {r : Race} (h : Manned engines r.running) (b : Bench) (stop : Bool) :
    RaceEvent.Spoken (Named engines) (r.advance b stop).2.1 ∧
      (r.advance b stop).2.2.Holds (fun r' => Manned engines r'.running) fun _ => True := by
  obtain ⟨hspoken, hmanned⟩ := proceed_voices h b stop
  unfold advance
  dsimp only
  split
  · exact ⟨hspoken, trivial⟩
  · exact ⟨hspoken, hmanned⟩

end Race

/-! ### The verification -/

namespace Verification

/-- One of these stages is named so. -/
def Named (stages : List Stage) (name : Text) : Prop := ∃ s ∈ stages, name = s.name

def transforms (v : Verification) : Bool :=
  match v.phase with
  | .transforming .. => true
  | _ => false

/-- The stages that are left and the engines that take part are those of the request. -/
def Phase.Fits (q : Request) : Phase → Prop
  | .transforming s rest .. => s ∈ q.stages ∧ ∀ x ∈ rest, x ∈ q.stages
  | .racing race => Race.Manned q.engines race.running
  | .raced _ => True

structure Fits (q : Request) (v : Verification) : Prop where
  request : v.request = q
  phase : v.phase.Fits q

variable {q : Request}

theorem startRace_fits (b : Bench) (circuit : Text) : (startRace b q circuit).2.Fits q := by
  unfold startRace Race.start
  by_cases hnone : q.engines.isEmpty = true
  · rw [if_pos hnone]
    trivial
  · rw [if_neg hnone]
    intro w hw
    rw [← Race.engines_start b q.id circuit q.budget q.engines]
    exact List.mem_map_of_mem hw

theorem resume_fits {v : Verification} (hrequest : v.request = q) (b : Bench) (source : Text)
    {rest : List Stage} (hrest : ∀ x ∈ rest, x ∈ q.stages) : Fits q (v.resume b source rest).2 := by
  subst hrequest
  cases rest with
  | nil => exact ⟨rfl, startRace_fits b source⟩
  | cons s rest =>
    exact ⟨rfl, hrest s (List.mem_cons_self ..), fun x hx => hrest x (List.mem_cons_of_mem _ hx)⟩

theorem start_fits (b : Bench) (o : Options) (q : Request) :
    (start b o q).2.Holds (Fits q) fun _ => True := by
  have hbegins := begins b o q
  generalize start b o q = x at hbegins ⊢
  cases hbegins with
  | refused => trivial
  | resumes _ hrequest hstages => exact resume_fits hrequest _ _ fun _ hs => hstages ▸ hs

/-- Who speaks in a step, and that the race is the last thing there is. -/
theorem step_voices {v : Verification} (h : Fits q v) (b : Bench) (stop : Bool) :
    RaceEvent.Spoken (fun name => if v.transforms = true then Named q.stages name
        else Race.Named q.engines name) (v.step b stop).2.1 ∧
      (v.step b stop).2.2.Holds
        (fun v' => Fits q v' ∧ (v.transforms = false → v'.transforms = false)) fun _ => True := by
  obtain ⟨hrequest, hfits⟩ := h
  unfold transforms
  have hdoes := v.does b stop
  generalize v.step b stop = x at hdoes ⊢
  cases hdoes with
  | @races race _ _ p hphase hadvance =>
    rw [hphase] at hfits ⊢
    obtain ⟨hspoken, hmanned⟩ := Race.advance_voices hfits b stop
    rw [hadvance] at hspoken hmanned
    refine ⟨hspoken, ?_⟩
    cases p with
    | going race' => exact ⟨⟨hrequest, hmanned⟩, fun _ => rfl⟩
    | ended result => exact ⟨⟨hrequest, trivial⟩, fun _ => rfl⟩
  | closes => exact ⟨fun _ _ hmem => absurd hmem List.not_mem_nil, trivial⟩
  | waits hphase =>
    rw [hphase] at hfits ⊢
    exact ⟨RaceEvent.spoken_lines ⟨_, hfits.1, rfl⟩ _, ⟨hrequest, hfits⟩, nofun⟩
  | fails hphase =>
    rw [hphase] at hfits ⊢
    exact ⟨RaceEvent.spoken_lines ⟨_, hfits.1, rfl⟩ _, trivial⟩
  | resumes hphase =>
    rw [hphase] at hfits ⊢
    exact ⟨RaceEvent.spoken_lines ⟨_, hfits.1, rfl⟩ _, resume_fits hrequest _ _ hfits.2, nofun⟩

end Verification
end Regatta
