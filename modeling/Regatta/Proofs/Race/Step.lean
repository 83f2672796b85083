import Regatta.Proofs.Race.Exchange
import Regatta.Proofs.Race.Worker

/-! What a race does at an instant: which engines return, which go on, and what is received. -/
namespace Regatta

def RaceEvent.result? : RaceEvent → Option EngineResult
  | .line .. => none
  | .result r => some r

def RaceEvent.results (events : List RaceEvent) : List EngineResult :=
  events.filterMap RaceEvent.result?

@[simp] theorem RaceEvent.results_nil : RaceEvent.results [] = [] := rfl

@[simp] theorem RaceEvent.results_append (a b : List RaceEvent) :
    RaceEvent.results (a ++ b) = RaceEvent.results a ++ RaceEvent.results b :=
  List.filterMap_append

@[simp] theorem RaceEvent.results_lines (source : Text) (lines : List Text) :
    RaceEvent.results (lines.map (.line source)) = [] := by
  induction lines with
  | nil => rfl
  | cons line rest ih => exact ih

@[simp] theorem RaceEvent.results_map (rs : List EngineResult) :
    RaceEvent.results (rs.map .result) = rs := by
  induction rs with
  | nil => rfl
  | cons r rest ih => exact congrArg (r :: ·) ih

def Progress.state? {σ ρ : Type} : Progress σ ρ → Option σ
  | .going s => some s
  | .ended _ => none

def Progress.result? {σ ρ : Type} : Progress σ ρ → Option ρ
  | .going _ => none
  | .ended r => some r

/-- `P` of the state of something that goes on, or `Q` of the result it has ended with. -/
def Progress.Holds {σ ρ : Type} (P : σ → Prop) (Q : ρ → Prop) : Progress σ ρ → Prop
  | .going s => P s
  | .ended r => Q r

namespace Race

/-! ### The engines -/

def returning (ws : List Worker) (now : Instant) (stop : Bool) : List EngineResult :=
  ws.filterMap fun w => (w.respond now stop).2.result?

def staying (ws : List Worker) (now : Instant) (stop : Bool) : List Worker :=
  ws.filterMap fun w => (w.respond now stop).2.state?

theorem advanceWorkers_cons (b : Bench) (stop : Bool) (w : Worker) (rest : List Worker) :
    ∃ lines, RaceEvent.results lines = [] ∧ advanceWorkers b stop (w :: rest) =
      let others := advanceWorkers (w.advance b stop).1 stop rest
      match (w.respond b.now stop).2 with
      | .going w' => (others.1, lines ++ others.2.1, others.2.2.1, w' :: others.2.2.2)
      | .ended r => (others.1, lines ++ others.2.1, r :: others.2.2.1, others.2.2.2) := by
  refine ⟨(w.advance b stop).2.1.map (.line w.engine.name), RaceEvent.results_lines _ _, ?_⟩
  rw [← w.advance_snd b stop]
  rfl

theorem advanceWorkers_spec (b : Bench) (stop : Bool) (ws : List Worker) :
    (advanceWorkers b stop ws).1.now = b.now ∧
      RaceEvent.results (advanceWorkers b stop ws).2.1 = [] ∧
      (advanceWorkers b stop ws).2.2.1 = returning ws b.now stop ∧
      (advanceWorkers b stop ws).2.2.2 = staying ws b.now stop := by
  induction ws generalizing b with
  | nil => exact ⟨rfl, rfl, rfl, rfl⟩
  | cons w rest ih =>
    obtain ⟨lines, hlines, heq⟩ := advanceWorkers_cons b stop w rest
    obtain ⟨hn, he, hr, hs⟩ := ih (w.advance b stop).1
    rw [w.advance_now] at hn hr hs
    rw [heq]
    cases hp : (w.respond b.now stop).2 with
    | going w' =>
      simp [returning, staying, hp, Progress.state?, Progress.result?, hn, he, hr, hs, hlines]
    | ended r =>
      simp [returning, staying, hp, Progress.state?, Progress.result?, hn, he, hr, hs, hlines]

/-! ### The race -/

theorem notes_frame {α : Type} (level : Log.Level) (message : Text) (xs : List α) (b : Bench) :
    (xs.foldl (fun b _ => b.note level message) b).now = b.now ∧
      (xs.foldl (fun b _ => b.note level message) b).files = b.files := by
  induction xs generalizing b with
  | nil => exact ⟨rfl, rfl⟩
  | cons x rest ih => exact ih _

/-- What the race tells its engines: whether to stop. -/
def orders (r : Race) (stop : Bool) : Bool := stop || !r.exchange.watches

/-- The exchange after the engines that return now have sent their results, and the results that
have to wait. -/
def sent (r : Race) (now : Instant) (stop : Bool) : Exchange × List EngineResult :=
  r.exchange.sendAll (r.held ++ returning r.running now (r.orders stop))

/-- What one step of a race does. -/
theorem step_spec (r : Race) (b : Bench) (stop : Bool) :
    (r.step b stop).1.now = b.now ∧
      RaceEvent.results (r.step b stop).2.1 = (r.sent b.now stop).1.receiveAll.1 ∧
      (r.step b stop).2.2 = ⟨r.id, staying r.running b.now (r.orders stop), (r.sent b.now stop).2,
        (r.sent b.now stop).1.receiveAll.2⟩ := by
  obtain ⟨hn, he, hr, hs⟩ := advanceWorkers_spec b (r.orders stop) r.running
  have hsent : (r.exchange.sendAll (r.held ++ (advanceWorkers b (r.orders stop) r.running).2.2.1)) =
      r.sent b.now stop := by
    rw [hr]
    rfl
  refine ⟨?_, ?_, ?_⟩
  · exact (notes_frame .info "engine finished" _ _).1.trans hn
  · show RaceEvent.results (_ ++ _) = _
    rw [RaceEvent.results_append, RaceEvent.results_map, ← hsent]
    exact congrArg (· ++ _) he
  · show (Race.mk r.id (advanceWorkers b (r.orders stop) r.running).2.2.2 _ _) = _
    rw [hs, ← hsent]
    rfl

theorem engines_start (b : Bench) (id circuit : Text) (budget : Duration) (engines : List Engine) :
    (startWorkers b id circuit budget engines).2.map (·.engine) = engines := by
  induction engines generalizing b with
  | nil => rfl
  | cons e rest ih => exact congrArg (e :: ·) (ih _)

end Race
end Regatta
