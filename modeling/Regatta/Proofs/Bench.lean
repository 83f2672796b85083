import Regatta.Proofs.Race.Step

/-! What work on a bench leaves alone, and the calls it makes.

Engines, stages and the gathering of figures note this and that in the log. They do not turn the
clock or change the tool, they never note what only the keeping of records has reason to note, and
the calls that they make come to those made before (`Works`). Where no call is made there is only
one thing to say, `Works []`; each function that makes calls says which. -/
namespace Regatta

namespace Bench

/-- What is noted when the store refuses. -/
def grievances : List Text :=
  ["failed to transition to running", "failed to record finished run",
    "failed to persist log line", "failed to persist engine result"]

/-- The complaints about the store in the log. -/
def complaints (b : Bench) : List (Log.Level × Text) := b.log.filter fun e => grievances.contains e.2

/-- Time stands still between two states of a bench, and nothing is complained about. -/
structure Calm (b b' : Bench) : Prop where
  now : b'.now = b.now
  complaints : b'.complaints = b.complaints

variable {a c : Bench} {message : Text} (b : Bench) (level : Log.Level)

theorem Calm.refl : Calm b b := ⟨rfl, rfl⟩

theorem Calm.trans {b : Bench} (h : Calm a b) (h' : Calm b c) : Calm a c :=
  ⟨h'.now.trans h.now, h'.complaints.trans h.complaints⟩

/-- At one instant these calls are made, in this order. -/
structure Makes (calls : List Invocation) (b b' : Bench) : Prop where
  now : b'.now = b.now
  tool : b'.tool = b.tool
  calls : b'.calls = (calls.map fun i => (b.now, i)).reverse ++ b.calls

theorem Makes.refl : Makes [] b b := ⟨rfl, rfl, rfl⟩

variable {b' : Bench} {calls is js : List Invocation} (m : Metric) (n : Int)

theorem Makes.trans {b : Bench} (h : Makes is a b) (h' : Makes js b c) : Makes (is ++ js) a c where
  now := h'.now.trans h.now
  tool := h'.tool.trans h.tool
  calls := by
    rw [h'.calls, h.calls, h.now, List.map_append, List.reverse_append, List.append_assoc]

def invoked (b : Bench) : List Invocation := b.calls.map (·.2)

theorem Makes.invoked {b : Bench} (h : Makes calls b b') :
    b'.invoked = calls.reverse ++ b.invoked := by
  unfold Bench.invoked
  rw [h.calls, List.map_append, List.map_reverse, List.map_map]
  exact congrArg (·.reverse ++ _) (List.map_id calls)

/-- These calls are made at one instant, and nothing is complained about. -/
structure Works (calls : List Invocation) (b b' : Bench) : Prop where
  makes : Makes calls b b'
  complaints : b'.complaints = b.complaints

theorem Works.refl : Works [] b b := ⟨.refl b, rfl⟩

theorem Works.trans {b : Bench} (h : Works is a b) (h' : Works js b c) : Works (is ++ js) a c :=
  ⟨h.makes.trans h'.makes, h'.complaints.trans h.complaints⟩

theorem Works.calm {b : Bench} (h : Works calls b b') : Calm b b' :=
  ⟨h.makes.now, h.complaints⟩

theorem works_note (h : grievances.contains message = false) : Works [] b (b.note level message) :=
  ⟨⟨rfl, rfl, rfl⟩,
    by simp only [complaints, note, List.filter_cons, h, Bool.false_eq_true, if_false]⟩

theorem works_count : Works [] b (b.count m n) :=
  ⟨⟨rfl, rfl, rfl⟩, rfl⟩

theorem works_call (i : Invocation) : Works [i] b (b.call i).1 := ⟨⟨rfl, rfl, rfl⟩, rfl⟩

theorem works_files (files : FileTree) : Works [] b { b with files } :=
  ⟨⟨rfl, rfl, rfl⟩, rfl⟩

theorem works_notes {α : Type} (h : grievances.contains message = false) (xs : List α) :
    Works [] b (xs.foldl (fun b _ => b.note level message) b) := by
  induction xs generalizing b with
  | nil => exact .refl b
  | cons x rest ih => exact (b.works_note level h).trans (ih _)

theorem calm_note (h : grievances.contains message = false) : Calm b (b.note level message) :=
  (b.works_note level h).calm

theorem calm_count : Calm b (b.count m n) :=
  (b.works_count m n).calm

end Bench

open Bench (Calm Works)

/-! ### Engines -/

theorem Worker.works_note (w : Worker) (b : Bench) (stop : Bool) (e : Ending) :
    Works [] b (w.note b stop e) := by
  unfold Worker.note
  split
  · exact b.works_note _ (by decide +kernel)
  · exact b.works_note _ (by decide +kernel)
  · dsimp only
    split
    · exact b.works_note _ (by decide +kernel)
    · exact (b.works_note _ (by decide +kernel)).trans (Bench.works_note _ _ (by decide +kernel))

theorem Worker.works_advance (w : Worker) (b : Bench) (stop : Bool) :
    Works [] b (w.advance b stop).1 := by
  unfold Worker.advance
  split
  · exact .refl b
  · exact (b.works_files _).trans ((w.works_note _ stop _).trans (Bench.works_count _ _ _))

namespace Race

variable (r : Race) (b : Bench) (stop : Bool)

/-- Each engine is called once, in order; on the circuit as it is given, if that is a path that
means the same everywhere. -/
theorem works_startWorkers (id circuit : Text) (budget : Duration) (engines : List Engine) :
    ∃ calls, Works calls b (startWorkers b id circuit budget engines).1 ∧
      calls.length = (startWorkers b id circuit budget engines).2.length ∧
      ((∀ b' : Bench, b'.absolute circuit = circuit) →
        calls = engines.map (Invocation.engine id circuit)) := by
  induction engines generalizing b with
  | nil => exact ⟨[], .refl b, rfl, fun _ => rfl⟩
  | cons e rest ih =>
    obtain ⟨calls, hworks, hlength, hcalls⟩ := ih (Worker.start b id circuit budget e).1
    have hfirst : Works [.engine id (b.absolute circuit) e] b
        (Worker.start b id circuit budget e).1 := b.works_call _
    refine ⟨[.engine id (b.absolute circuit) e] ++ calls, hfirst.trans hworks, ?_, ?_⟩
    · exact congrArg (· + 1) hlength
    · intro hsame
      rw [hcalls hsame, hsame]
      rfl

variable {b} in
/-- What every engine is like when it starts, at this time and with this tool, those are like that a
race starts with. -/
theorem forall_startWorkers {P : Worker → Prop} {id circuit : Text} {budget : Duration}
    (h : ∀ b' : Bench, b'.tool = b.tool → b'.now = b.now → ∀ e,
      P (Worker.start b' id circuit budget e).2) (engines : List Engine) :
    ∀ w ∈ (startWorkers b id circuit budget engines).2, P w := by
  induction engines generalizing b with
  | nil => exact fun w hw => absurd hw List.not_mem_nil
  | cons e rest ih =>
    intro w hw
    rcases List.mem_cons.mp hw with rfl | hw
    · exact h b rfl rfl e
    · exact ih (b := (Worker.start b id circuit budget e).1) h w hw

theorem works_advanceWorkers (ws : List Worker) :
    Works [] b (advanceWorkers b stop ws).1 := by
  induction ws generalizing b with
  | nil => exact .refl b
  | cons w rest ih =>
    obtain ⟨lines, _, heq⟩ := advanceWorkers_cons b stop w rest
    have hrest := (w.works_advance b stop).trans (ih (w.advance b stop).1)
    rw [heq]
    dsimp only
    split <;> exact hrest

theorem works_step : Works [] b (r.step b stop).1 :=
  (works_advanceWorkers b _ r.running).trans (Bench.works_notes _ .info (by decide +kernel) _)

theorem works_proceed : Works [] b (r.proceed b stop).1 := by
  unfold Race.proceed
  dsimp only
  split
  · exact (works_step r b stop).trans (works_step _ _ stop)
  · exact works_step r b stop

theorem works_conclude : Works [] b (r.conclude b) := by
  unfold conclude
  dsimp only
  split
  · exact (b.works_notes _ (by decide +kernel) _).trans
      ((Bench.works_count _ _ _).trans (Bench.works_count _ _ _))
  · exact (b.works_notes _ (by decide +kernel) _).trans (Bench.works_count _ _ _)

theorem works_advance : Works [] b (r.advance b stop).1 := by
  unfold Race.advance
  dsimp only
  split
  · exact (works_proceed r b stop).trans (works_conclude _ _)
  · exact works_proceed r b stop

end Race

/-! ### Stages -/

namespace Verification

def Phase.inFlight : Phase → Nat
  | .transforming .. => 1
  | .racing race => race.running.length
  | .raced _ => 0

variable (b : Bench) (o : Options) (v : Verification) (r : Request)

theorem works_clear (scratch : Option Text) : Works [] b (clear b scratch) := by
  cases scratch with
  | none => exact .refl b
  | some d => exact b.works_files _

theorem works_makeScratch (base pattern : Text) (tries : Nat) :
    Works [] b (makeScratch b base pattern tries).1 := by
  induction tries generalizing b with
  | zero => exact .refl b
  | succ tries ih =>
    have hdrawn : Works [] b { b with drawn := b.drawn + 1 } := ⟨⟨rfl, rfl, rfl⟩, rfl⟩
    unfold makeScratch
    dsimp only
    split
    · exact hdrawn
    · split
      · exact hdrawn.trans (ih _)
      · exact hdrawn.trans (Bench.works_files _ _)

theorem works_scratchDirectory (id : Text) :
    Works [] b (scratchDirectory b o id).1 := by
  unfold scratchDirectory
  dsimp only
  split
  · exact b.works_files _
  · rename_i files _
    generalize (if id.isEmpty = true then _ else _ : Text) = front
    split
    · exact b.works_files files
    · exact (b.works_files files).trans (works_makeScratch _ _ _ _)

theorem works_startRace (circuit : Text) :
    ∃ calls, Works calls b (startRace b r circuit).1 ∧
      calls.length = (startRace b r circuit).2.inFlight ∧
      ((∀ b' : Bench, b'.absolute circuit = circuit) →
        calls = r.engines.map (Invocation.engine r.id circuit)) := by
  unfold startRace Race.start
  cases hengines : r.engines with
  | nil => exact ⟨[], .refl b, rfl, fun _ => rfl⟩
  | cons e rest => exact Race.works_startWorkers b r.id circuit r.budget (e :: rest)

theorem works_judgeStage (s : Stage) (target : Text) (e : Ending) :
    Works [] b (judgeStage b s target e).1 := by
  unfold judgeStage
  split
  · exact .refl b
  · exact b.works_count _ _
  · split
    · exact b.works_count _ _
    · exact (b.works_note _ (by decide +kernel)).trans (Bench.works_count _ _ _)
  · exact (b.works_note _ (by decide +kernel)).trans (Bench.works_count _ _ _)

theorem works_resume (b : Bench) (source : Text) (rest : List Stage) :
    ∃ calls, Works calls b (v.resume b source rest).1 ∧
      calls.length = (v.resume b source rest).2.phase.inFlight := by
  cases rest with
  | nil =>
    obtain ⟨calls, hworks, hlength, -⟩ := works_startRace b v.request source
    exact ⟨calls, hworks, hlength⟩
  | cons s rest => exact ⟨_, b.works_call _, rfl⟩

/-- Outcomes that no race has led to. -/
inductive Outcome.Failing (stop : Bool) : Outcome → Prop
  | fault (result : EngineResult) (f : Fault) : Failing stop (.answer result (some f))
  | breakdown (reason : Text) : Failing stop (.breakdown reason)
  | nothing (hstop : stop = false) : Failing stop (.answer .failed none)

/-- **How a verification begins**: it is refused, or it goes on as after a stage. -/
inductive Begins (b : Bench) (r : Request) : Bench × Progress Verification Outcome → Prop
  | refused {b' : Bench} (hworks : Works [] b b') (f : Fault) :
    Begins b r (b', .ended (.answer .failed (some f)))
  | resumes {b' : Bench} {v : Verification} {stages : List Stage} (hworks : Works [] b b')
    (hrequest : v.request = r) (hstages : r.stages = stages) :
    Begins b r ((v.resume b' (b.absolute r.circuit) stages).1,
      .going (v.resume b' (b.absolute r.circuit) stages).2)

theorem begins : Begins b r (start b o r) := by
  unfold start
  split
  · exact .refused (.refl b) _
  · dsimp only
    cases hstages : r.stages with
    | nil => exact .resumes (v := ⟨r, o.transformBudget, none, .raced .failed⟩) (.refl b) rfl hstages
    | cons s rest =>
      have hscratch := works_scratchDirectory b o r.id
      dsimp only
      split <;> rename_i heq <;> rw [heq] at hscratch
      · exact .refused hscratch _
      · rename_i d
        exact .resumes (v := ⟨r, o.transformBudget, some d, .raced .failed⟩) hscratch rfl hstages

theorem works_start :
    ∃ calls, Works calls b (start b o r).1 ∧
      (start b o r).2.Holds (fun v => calls.length = v.phase.inFlight) (fun _ => calls = []) := by
  have hbegins := begins b o r
  generalize start b o r = x at hbegins ⊢
  cases hbegins with
  | refused hworks => exact ⟨[], hworks, rfl⟩
  | @resumes b' v stages hworks =>
    obtain ⟨calls, hcalls, hlength⟩ := v.works_resume b' (b.absolute r.circuit) stages
    exact ⟨calls, hworks.trans hcalls, hlength⟩

theorem calm_start : Calm b (start b o r).1 := by
  obtain ⟨calls, hworks, -⟩ := works_start b o r
  exact hworks.calm

def Phase.ofRace : Progress Race EngineResult → Phase
  | .going race => .racing race
  | .ended result => .raced result

/-- **What a step of a verification can do.** A stage that comes back leaves its files; then the
verification fails, or goes on with what is next unless it is told to stop. -/
inductive Does (v : Verification) (b : Bench) (stop : Bool) :
    Bench × List RaceEvent × Progress Verification Outcome → Prop
  | races {race : Race} {b' : Bench} {events : List RaceEvent} {p : Progress Race EngineResult}
    (hphase : v.phase = .racing race) (hadvance : race.advance b stop = (b', events, p)) :
    Does v b stop (b', events, .going { v with phase := .ofRace p })
  | closes {result : EngineResult} (hphase : v.phase = .raced result) :
    Does v b stop (clear b v.scratch, [],
      .ended (.answer result (if stop then some .cancelled else none)))
  | waits {s : Stage} {rest : List Stage} {target : Text} {deadline : Option Instant}
    {a a' : Activity} {lines : List Text}
    (hphase : v.phase = .transforming s rest target deadline a)
    (ha : a.advance b.now (stop || b.passed deadline) = (lines, .going a')) :
    Does v b stop (b, lines.map (.line s.name ·),
      .going { v with phase := .transforming s rest target deadline a' })
  | fails {s : Stage} {rest : List Stage} {target : Text} {deadline : Option Instant}
    {a : Activity} {lines : List Text} {x : Activity.Return} {after : Bench} {o : Outcome}
    (hphase : v.phase = .transforming s rest target deadline a)
    (ha : a.advance b.now (stop || b.passed deadline) = (lines, .ended x))
    (hworks : Works [] b after) (hfiles : after.files = x.closing b.files)
    (hfailing : o.Failing stop) :
    Does v b stop (clear after v.scratch, lines.map (.line s.name ·), .ended o)
  | resumes {s : Stage} {rest : List Stage} {target : Text} {deadline : Option Instant}
    {a : Activity} {lines : List Text} {x : Activity.Return} {after : Bench}
    (hphase : v.phase = .transforming s rest target deadline a)
    (ha : a.advance b.now (stop || b.passed deadline) = (lines, .ended x))
    (hworks : Works [] b after) (hfiles : after.files = x.closing b.files)
    (hstop : stop = false) :
    Does v b stop ((v.resume after target rest).1, lines.map (.line s.name ·),
      .going (v.resume after target rest).2)

theorem files_judgeStage (s : Stage) (target : Text) (e : Ending) :
    (judgeStage b s target e).1.files = b.files := by
  unfold judgeStage
  split
  · rfl
  · rfl
  · split <;> rfl
  · rfl

theorem does (stop : Bool) : v.Does b stop (v.step b stop) := by
  unfold step
  split
  · rename_i race hphase
    cases hadvance : race.advance b stop with
    | mk b' rest =>
    obtain ⟨events, p⟩ := rest
    cases p with
    | going race' => exact .races hphase hadvance
    | ended result => exact .races hphase hadvance
  · exact .closes ‹_›
  · rename_i s rest target deadline a hphase
    split
    · exact .waits hphase ‹_›
    · rename_i lines x ha
      have hworks := (b.works_files (x.closing b.files)).trans (works_judgeStage _ s target x.ending)
      have hfiles := files_judgeStage { b with files := x.closing b.files } s target x.ending
      generalize judgeStage _ s target x.ending = judged at hworks hfiles ⊢
      obtain ⟨after, t⟩ := judged
      cases t with
      | breakdown reason => exact .fails hphase ha hworks hfiles (.breakdown reason)
      | fault f => exact .fails hphase ha hworks hfiles (.fault _ f)
      | nothing =>
        cases stop with
        | true => exact .fails hphase ha hworks hfiles (.fault _ _)
        | false => exact .fails hphase ha hworks hfiles (.nothing rfl)
      | file =>
        cases stop with
        | true => exact .fails hphase ha hworks hfiles (.fault _ _)
        | false => exact .resumes hphase ha hworks hfiles rfl

end Verification

/-! ### Figures -/

namespace Circuit.Collection

variable (c : Collection) (b : Bench)

theorem works_native (circuit : Text) : Works [] b (native b circuit).1 := by
  unfold native
  split
  · exact .refl b
  · split
    · exact .refl b
    · exact b.works_note _ (by decide +kernel)

theorem works_start (c : Collector) (circuit : Text) :
    ∃ calls, Works calls b (start b c circuit).1 ∧
      (start b c circuit).2.Holds (fun _ => calls.length = 1) (fun _ => calls = []) := by
  unfold start
  dsimp only
  split
  · exact ⟨[], works_native b _, rfl⟩
  · exact ⟨_, b.works_call _, rfl⟩

theorem works_judge (e : Ending) : Works [] b (c.judge b e).1 := by
  have hotherwise : ∀ b, Works [] b (judge.otherwise c b).1 := by
    intro b
    unfold judge.otherwise
    split
    · exact works_native b _
    · exact .refl b
  unfold judge
  split
  · exact .refl b
  · split
    · exact .refl b
    · exact (b.works_note _ (by decide +kernel)).trans (hotherwise _)
  · exact (b.works_note _ (by decide +kernel)).trans (hotherwise _)

theorem works_advance (stop : Bool) :
    Works [] b (c.advance b stop).1 := by
  unfold advance
  split
  · exact .refl b
  · exact (b.works_files _).trans (works_judge c _ _)

theorem calm_start (c : Collector) (circuit : Text) : Calm b (start b c circuit).1 := by
  obtain ⟨calls, hworks, -⟩ := works_start b c circuit
  exact hworks.calm

theorem calm_advance (stop : Bool) : Calm b (c.advance b stop).1 :=
  (works_advance c b stop).calm

end Circuit.Collection
end Regatta
