import Regatta.Proofs.Files.Path
import Regatta.Proofs.Tool.Call

/-! Stage by stage.

A verification is played against the clock as one process. `Relay` tells the same story one call
after the other: a stage is a call that is made and comes back (`Call.run`), it hands its file on to
the next stage if it succeeds, and after the last stage there is a race (`Race.run`). `run_conduct`
says that the calls of a verification are those of the relay, and that it comes to what the relay
comes to. -/
namespace Regatta

/-- Goes on playing with what a step has led to. -/
def Timeline.follow {σ ε ρ : Type} [Process σ ε ρ] (cancelAt : Option Instant) (seen : List ε) :
    Bench × Progress σ ρ → Option (Timeline.Record ε ρ)
  | (b, .ended r) => some ⟨b, seen.reverse, some r⟩
  | (b, .going s) => Timeline.play cancelAt b seen s

namespace Verification

variable {v v' : Verification} {b b' : Bench} {stop : Bool} {cancelAt : Option Instant}
  {events : List RaceEvent}

/-! ### Steps at one instant -/

theorem exists_depth (v : Verification) : ∃ n, v.depth = n + 1 := by
  unfold depth
  split <;> exact ⟨_, rfl⟩

/-- More steps than there can be make no difference. -/
theorem settle_enough (fuel fuel' : Nat) (h : v.depth ≤ fuel) (h' : v.depth ≤ fuel') :
    settle fuel v b stop = settle fuel' v b stop := by
  obtain ⟨n, hdepth⟩ := v.exists_depth
  induction fuel generalizing fuel' v b n with
  | zero => omega
  | succ fuel ih =>
    cases fuel' with
    | zero => omega
    | succ fuel' =>
      rw [settle, settle]
      split
      · rfl
      · rename_i v' _
        obtain ⟨m, hm⟩ := v'.exists_depth
        split
        · rw [ih fuel' (by omega) (by omega) m hm]
        · rfl

theorem advance_of_ended {o : Outcome} (h : v.step b stop = (b', events, .ended o)) :
    v.advance b stop = (b', events, .ended o) := by
  obtain ⟨n, hdepth⟩ := v.exists_depth
  rw [advance, hdepth, settle, h]

theorem advance_of_resting (h : v.step b stop = (b', events, .going v'))
    (hrests : v'.depth = v.depth) : v.advance b stop = (b', events, .going v') := by
  obtain ⟨n, hdepth⟩ := v.exists_depth
  rw [advance, hdepth, settle, h]
  dsimp only
  rw [if_neg (by omega)]

theorem advance_of_going (h : v.step b stop = (b', events, .going v'))
    (hless : v'.depth < v.depth) : v.advance b stop =
      ((v'.advance b' stop).1, events ++ (v'.advance b' stop).2.1, (v'.advance b' stop).2.2) := by
  obtain ⟨n, hdepth⟩ := v.exists_depth
  rw [advance, hdepth, settle, h]
  dsimp only
  rw [if_pos hless, settle_enough n v'.depth (by omega) (Nat.le_refl _)]
  rfl

theorem play_of_going (seen : List RaceEvent)
    (h : v.step b (b.passed cancelAt) = (b', events, .going v')) (hless : v'.depth < v.depth) :
    Timeline.play cancelAt b seen v = Timeline.play cancelAt b' (events.reverse ++ seen) v' := by
  have hnow : b'.now = b.now := by simpa [h] using (v.calm_step b (b.passed cancelAt)).now
  have hpassed : b'.passed cancelAt = b.passed cancelAt := by
    unfold Bench.passed
    rw [hnow]
  have hadvance : Process.advance v b (b.passed cancelAt) = _ := advance_of_going h hless
  cases hnext : Process.advance v' b' (b'.passed cancelAt) with
  | mk b'' rest =>
  obtain ⟨more, progress⟩ := rest
  rw [hpassed] at hnext
  have hwhole : Process.advance v b (b.passed cancelAt) = (b'', events ++ more, progress) := by
    rw [hadvance, show v'.advance b' (b.passed cancelAt) = _ from hnext]
  rw [← hpassed] at hnext
  cases progress with
  | ended o =>
    rw [Timeline.play_ended _ hwhole, Timeline.play_ended _ hnext]
    simp
  | going v'' =>
    cases hwake : Instant.next b''.now [Process.wake v'' b''.now, cancelAt] with
    | none =>
      rw [Timeline.play_idle _ hwhole hwake, Timeline.play_idle _ hnext hwake]
      simp
    | some t =>
      rw [Timeline.play_going _ hwhole hwake, Timeline.play_going _ hnext hwake]
      simp

/-! ### The race -/

def raced (cancelAt : Option Instant) (record : Timeline.Record RaceEvent EngineResult) :
    Option Outcome :=
  record.result.map fun o =>
    .answer o (if record.bench.passed cancelAt then some .cancelled else none)

theorem play_raced {o : EngineResult} (hphase : v.phase = .raced o) (seen : List RaceEvent) :
    Timeline.play cancelAt b seen v = some ⟨clear b v.scratch, seen.reverse,
      some (.answer o (if b.passed cancelAt then some .cancelled else none))⟩ := by
  have hstep : v.step b (b.passed cancelAt) = (clear b v.scratch, [],
      .ended (.answer o (if b.passed cancelAt then some .cancelled else none))) := by
    unfold step
    rw [hphase]
    rfl
  rw [Timeline.play_ended seen (advance_of_ended hstep), List.append_nil]

theorem advance_racing {race race' : Race} (hphase : v.phase = .racing race)
    (h : race.advance b stop = (b', events, .going race')) :
    v.advance b stop = (b', events, .going { v with phase := .racing race' }) := by
  refine advance_of_resting ?_ (by simp [depth, hphase])
  unfold step
  rw [hphase]
  dsimp only
  rw [h]

/-- A verification that races is played as its race. -/
theorem play_racing {race : Race} {before : List RaceEvent}
    {record : Timeline.Record RaceEvent EngineResult}
    (hplay : Timeline.play cancelAt b before race = some record) :
    ∀ (v : Verification) (seen : List RaceEvent), v.phase = .racing race → ∃ record',
      Timeline.play cancelAt b seen v = some record' ∧ record'.result = raced cancelAt record ∧
        record'.bench.calls = record.bench.calls := by
  refine Timeline.play_induct ?_ ?_ ?_ hplay
  · intro b before race b' events o hadvance v seen hphase
    have hstep : v.step b (b.passed cancelAt) =
        (b', events, .going { v with phase := .raced o }) := by
      unfold step
      rw [hphase]
      dsimp only
      rw [show race.advance b (b.passed cancelAt) = _ from hadvance]
    have hless : ({ v with phase := .raced o } : Verification).depth < v.depth := by
      simp [depth, hphase]
    refine ⟨_, (play_of_going seen hstep hless).trans (play_raced rfl _), rfl, ?_⟩
    exact (works_clear b' v.scratch).makes.calls
  · intro b before race b' events race' hadvance hnext v seen hphase
    exact ⟨_, Timeline.play_idle seen (advance_racing hphase hadvance) hnext, rfl, rfl⟩
  · intro b before race b' events race' t record hadvance hnext ih v seen hphase
    have hrests : Process.advance v b (b.passed cancelAt) = _ := advance_racing hphase hadvance
    obtain ⟨record', hrest, hfacts⟩ :=
      ih { v with phase := .racing race' } (events.reverse ++ seen) rfl
    exact ⟨record', (Timeline.play_going seen hrests hnext).trans hrest, hfacts⟩

variable {lines : List Text} {record : Timeline.Record Text Ending} {s : Stage}
  {scratch source : Text}

/-- The race of a verification comes to what a race of its engines comes to, and calls each of them
once. -/
theorem play_startRace (cancelAt : Option Instant) (v : Verification) (b : Bench)
    (hsource : Path.Canonical source) (seen : List RaceEvent) : ∃ record,
      Timeline.play cancelAt (v.resume b source []).1 seen (v.resume b source []).2 = some record ∧
      record.result = raced cancelAt (Race.run b v.request.id source v.request.budget
        v.request.engines cancelAt) ∧
      record.bench.invoked =
        (v.request.engines.map (.engine v.request.id source)).reverse ++ b.invoked := by
  obtain ⟨calls, hworks, -, hcalls⟩ := works_startRace b v.request source
  have hmade := hworks.makes.invoked
  rw [hcalls fun b' => b'.absolute_canonical hsource] at hmade
  unfold resume startRace at *
  cases hstart : Race.start b v.request.id source v.request.budget v.request.engines with
  | mk b' progress =>
  rw [hstart] at hmade
  cases progress with
  | ended o =>
    refine ⟨_, play_raced rfl seen, ?_, ?_⟩
    · unfold Race.run
      rw [hstart]
      rfl
    · exact ((works_clear b' v.scratch).makes.invoked).trans hmade
  | going race =>
    have hplay := Race.run_eq cancelAt hstart
    obtain ⟨record, hrecord, hresult, hrecorded⟩ :=
      play_racing hplay { v with phase := .racing race } seen rfl
    have hcalled := Timeline.play_frame Bench.invoked
      (fun r b stop => (Race.works_advance r b stop).makes.invoked) (fun _ _ => rfl) hplay
    refine ⟨record, hrecord, hresult, ?_⟩
    unfold Bench.invoked at *
    rw [hrecorded, hcalled, hmade]

/-! ### A stage -/

theorem advance_transforming {target : Text} {rest : List Stage} {deadline : Option Instant}
    {a a' : Activity} (hphase : v.phase = .transforming s rest target deadline a)
    (ha : a.advance b.now (stop || b.passed deadline) = (lines, .going a')) :
    v.advance b stop = (b, lines.map (.line s.name ·),
      .going { v with phase := .transforming s rest target deadline a' }) :=
  advance_of_resting (step_transforming hphase ha) (by simp [depth, hphase])

theorem afterStage_phase (v : Verification) (phase : Phase) (b : Bench) (stop : Bool)
    (rest : List Stage) (target : Text) (t : Transformed) :
    ({ v with phase } : Verification).afterStage b stop rest target t =
      v.afterStage b stop rest target t := by
  cases t with
  | file => cases rest <;> rfl
  | _ => rfl

theorem depth_resume (v : Verification) (b : Bench) (source : Text) (rest : List Stage) :
    (v.resume b source rest).2.depth ≤ rest.length + 2 := by
  cases rest with
  | nil =>
    unfold resume startRace
    dsimp only
    split <;> simp [depth]
  | cons s rest => exact Nat.le_refl _

theorem depth_afterStage {target : Text} {rest : List Stage} {t : Transformed}
    (h : v.afterStage b stop rest target t = (b', .going v')) : v'.depth ≤ rest.length + 2 := by
  unfold afterStage at h
  split at h
  · cases h
  · cases h
  · cases h
  · split at h
    · cases h
    · cases h
      exact v.depth_resume b target rest

theorem play_transformed {target : Text} {rest : List Stage}
    {deadline : Option Instant} {a : Activity} {r : Activity.Return}
    (hphase : v.phase = .transforming s rest target deadline a)
    (ha : a.advance b.now (b.passed cancelAt || b.passed deadline) = (lines, .ended r))
    (seen : List RaceEvent) : Timeline.play cancelAt b seen v =
      Timeline.follow cancelAt ((lines.map (.line s.name ·)).reverse ++ seen)
        (v.afterStage (transformed s target b r).1 (b.passed cancelAt) rest target
          (transformed s target b r).2) := by
  have hstep := step_transformed hphase ha
  dsimp only at hstep
  cases hafter : v.afterStage (transformed s target b r).1 (b.passed cancelAt) rest target
    (transformed s target b r).2 with
  | mk b' progress =>
  rw [hafter] at hstep
  cases progress with
  | ended o =>
    rw [Timeline.play_ended seen (advance_of_ended hstep)]
    simp [Timeline.follow]
  | going v' =>
    have hdepth := depth_afterStage hafter
    have hmore : v.depth = rest.length + 3 := by simp [depth, hphase]
    exact play_of_going seen hstep (by omega)

/-- A verification in a stage is played as the stage's call, and then as what comes after it. -/
theorem play_transforming {target : Text} {rest : List Stage} {c : Call}
    (hplay : Timeline.play cancelAt b lines c = some record) :
    ∀ (v : Verification) (seen : List RaceEvent),
      v.phase = .transforming s rest target c.deadline c.activity →
      (record.result = none →
        ∃ events, Timeline.play cancelAt b seen v = some ⟨record.bench, events, none⟩) ∧
      ∀ e, record.result = some e → ∃ seen', Timeline.play cancelAt b seen v =
        Timeline.follow cancelAt seen' (v.afterStage (judgeStage record.bench s target e).1
          (record.bench.passed cancelAt) rest target (judgeStage record.bench s target e).2) := by
  refine Timeline.play_induct ?_ ?_ ?_ hplay
  · intro b lines c b' more e hadvance v seen hphase
    obtain ⟨r, ha, rfl, rfl⟩ := Call.advance_ended hadvance
    refine ⟨fun hnone => (by cases hnone), fun e he => ?_⟩
    cases he
    exact ⟨_, play_transformed hphase ha seen⟩
  · intro b lines c b' more c' hadvance hnext v seen hphase
    obtain ⟨rfl, ha, hc⟩ := Call.advance_going hadvance
    have hrests := advance_transforming hphase ha
    refine ⟨fun _ => ⟨_, Timeline.play_idle seen hrests ?_⟩, fun e he => by cases he⟩
    rw [hc] at hnext
    exact hnext
  · intro b lines c b' more c' t record hadvance hnext ih v seen hphase
    obtain ⟨rfl, ha, hc⟩ := Call.advance_going hadvance
    have hrests : Process.advance v b' (b'.passed cancelAt) = _ := advance_transforming hphase ha
    rw [hc] at hnext ih
    obtain ⟨hnone, hsome⟩ :=
      ih { v with phase := .transforming s rest target c.deadline c'.activity }
        ((more.map (.line s.name ·)).reverse ++ seen) rfl
    rw [Timeline.play_going seen hrests hnext]
    refine ⟨hnone, fun e he => ?_⟩
    obtain ⟨seen', hrest⟩ := hsome e he
    rw [afterStage_phase] at hrest
    exact ⟨seen', hrest⟩

/-! ### The relay -/

def stageCall (r : Request) (scratch source : Text) (s : Stage) : Invocation :=
  .transform r.id s.name s.commands source (target scratch s source)

/-- A stage succeeds when the tool comes back without an error, the file that it was to write is
there and not empty, and the verification is not cancelled by then. -/
structure Succeeds (cancelAt : Option Instant) (target : Text)
    (record : Timeline.Record Text Ending) : Prop where
  done : ∃ output, record.result = some (.done output)
  left : ∃ entry, record.bench.files.stat target = .ok entry ∧ ∀ x, entry ≠ .file [] x
  live : record.bench.passed cancelAt = false

/-- What a verification comes to that breaks off after a stage. -/
def brokenOff (cancelAt : Option Instant) (s : Stage) (b : Bench) : Ending → Outcome
  | .breakdown reason => .breakdown reason
  | .unlaunched reason => .answer .failed (some (.unlaunched s.name reason))
  | _ =>
    if b.passed cancelAt then .answer .inconclusive (some .cancelled) else .answer .failed none

/-- What is called from here on, and what comes of it: `Relay b source stages calls outcome`.
Nothing comes of it when a stage or the race never comes back. -/
inductive Relay (cancelAt : Option Instant) (budget : Duration) (r : Request) (scratch : Text) :
    Bench → Text → List Stage → List Invocation → Option Outcome → Prop where
  | race (b : Bench) (source : Text) :
    Relay cancelAt budget r scratch b source [] (r.engines.map (.engine r.id source))
      (raced cancelAt (Race.run b r.id source r.budget r.engines cancelAt))
  | onward {b : Bench} {source : Text} {s : Stage} {rest : List Stage}
    {record : Timeline.Record Text Ending} {calls : List Invocation} {outcome : Option Outcome} :
    Call.run b budget (stageCall r scratch source s) cancelAt = record →
    Succeeds cancelAt (target scratch s source) record →
    Relay cancelAt budget r scratch (record.bench.count (.transform s.name "ok"))
      (target scratch s source) rest calls outcome →
    Relay cancelAt budget r scratch b source (s :: rest) (stageCall r scratch source s :: calls)
      outcome
  | stops {b : Bench} {source : Text} {s : Stage} {rest : List Stage}
    {record : Timeline.Record Text Ending} :
    Call.run b budget (stageCall r scratch source s) cancelAt = record →
    ¬ Succeeds cancelAt (target scratch s source) record →
    Relay cancelAt budget r scratch b source (s :: rest) [stageCall r scratch source s]
      (record.result.map (brokenOff cancelAt s record.bench))

theorem produced_iff {files : FileTree} {path : Text} : produced files path = true ↔
    ∃ entry, files.stat path = .ok entry ∧ ∀ x, entry ≠ .file [] x := by
  unfold produced
  cases files.stat path with
  | error e => simp
  | ok entry =>
    cases entry with
    | directory => simp
    | file content x => cases content <;> simp

/-- After a stage that succeeds the verification goes on with the file that it wrote. -/
theorem afterStage_succeeds {target : Text} {e : Ending}
    (h : Succeeds cancelAt target record) (he : record.result = some e) (v : Verification)
    (s : Stage) (rest : List Stage) :
    v.afterStage (judgeStage record.bench s target e).1 (record.bench.passed cancelAt) rest target
        (judgeStage record.bench s target e).2 =
      let next := v.resume (record.bench.count (.transform s.name "ok")) target rest
      (next.1, .going next.2) := by
  obtain ⟨output, hdone⟩ := h.done
  rw [hdone] at he
  cases he
  unfold judgeStage
  rw [if_pos (produced_iff.mpr h.left), h.live]
  rfl

theorem afterStage_broken {target : Text} {e : Ending}
    (h : ¬ Succeeds cancelAt target record) (he : record.result = some e) (v : Verification)
    (s : Stage) (rest : List Stage) : ∃ b' : Bench, b'.invoked = record.bench.invoked ∧
      v.afterStage (judgeStage record.bench s target e).1 (record.bench.passed cancelAt) rest target
        (judgeStage record.bench s target e).2 =
      (b', .ended (brokenOff cancelAt s record.bench e)) := by
  have hjudged := works_judgeStage record.bench s target e
  refine ⟨clear (judgeStage record.bench s target e).1 v.scratch,
    (hjudged.trans (works_clear _ v.scratch)).makes.invoked, ?_⟩
  cases e with
  | done output =>
    by_cases hproduced : produced record.bench.files target = true
    · -- the file is there, so it is for the cancellation that the stage did not succeed
      have hstop : record.bench.passed cancelAt = true := by
        refine Bool.of_not_eq_false fun hlive => h ⟨⟨output, he⟩, ?_, hlive⟩
        exact produced_iff.mp hproduced
      simp [judgeStage, hproduced, afterStage, hstop, brokenOff]
    · simp [judgeStage, hproduced, afterStage, brokenOff]
  | _ => rfl

theorem resume_cons (h : v.scratch.getD "" = scratch) (b : Bench) (source : Text)
    (s : Stage) (rest : List Stage) : v.resume b source (s :: rest) =
      let call := b.call (stageCall v.request scratch source s)
      (call.1, { v with
        phase := .transforming s rest (target scratch s source) (b.deadline v.transformBudget)
          call.2 }) := by
  rw [← h]
  rfl

/-- **A verification is played as a relay**, from wherever it goes on. -/
theorem play_resume (cancelAt : Option Instant) (v : Verification)
    (hscratch : v.scratch.getD "" = scratch) (habsolute : Path.isAbsolute scratch = true)
    (b : Bench) (hsource : Path.Canonical source) (stages : List Stage)
    (seen : List RaceEvent) : ∃ calls record,
      Timeline.play cancelAt (v.resume b source stages).1 seen (v.resume b source stages).2 =
        some record ∧
      Relay cancelAt v.transformBudget v.request scratch b source stages calls record.result ∧
      record.bench.invoked = calls.reverse ++ b.invoked := by
  induction stages generalizing v b source seen with
  | nil =>
    obtain ⟨record, hplay, hresult, hcalls⟩ := play_startRace cancelAt v b hsource seen
    refine ⟨_, record, hplay, ?_, hcalls⟩
    rw [hresult]
    exact .race b source
  | cons s rest ih =>
    obtain ⟨hplay, hcalls, -⟩ :=
      Call.run_eq b v.transformBudget (stageCall v.request scratch source s) cancelAt
    generalize hrecord :
      Call.run b v.transformBudget (stageCall v.request scratch source s) cancelAt = record at *
    have hinvoked : record.bench.invoked = [stageCall v.request scratch source s] ++ b.invoked :=
      congrArg (List.map Prod.snd) hcalls
    rw [resume_cons hscratch]
    dsimp only
    generalize hnext : ({ v with phase := _ } : Verification) = next
    obtain ⟨hnone, hsome⟩ := play_transforming hplay next seen (by rw [← hnext])
    by_cases hsucceeds : Succeeds cancelAt (target scratch s source) record
    · obtain ⟨output, hdone⟩ := hsucceeds.done
      obtain ⟨seen', hplayed⟩ := hsome _ hdone
      rw [afterStage_succeeds hsucceeds hdone] at hplayed
      obtain ⟨calls, record', hrest, hrelay, hcalled⟩ := ih next (by rw [← hnext]; exact hscratch)
        (record.bench.count (.transform s.name "ok")) (Path.canonical_join habsolute _) seen'
      rw [← hnext] at hrelay
      refine ⟨_, record', hplayed.trans hrest, .onward hrecord hsucceeds hrelay, ?_⟩
      rw [hcalled, List.reverse_cons, List.append_assoc]
      exact congrArg (_ ++ ·) hinvoked
    · refine ⟨[stageCall v.request scratch source s], ?_⟩
      have hrelay : Relay cancelAt v.transformBudget v.request scratch b source (s :: rest) _ _ :=
        .stops hrecord hsucceeds
      cases hresult : record.result with
      | none =>
        obtain ⟨events, hplayed⟩ := hnone hresult
        rw [hresult] at hrelay
        exact ⟨_, hplayed, hrelay, hinvoked⟩
      | some e =>
        obtain ⟨seen', hplayed⟩ := hsome e hresult
        obtain ⟨b', hkept, hafter⟩ := afterStage_broken hsucceeds hresult next s rest
        rw [hafter] at hplayed
        rw [hresult] at hrelay
        exact ⟨_, hplayed, hrelay, hkept.trans hinvoked⟩

/-- A relay comes to something if it is cancelled at some time, or if the tool's calls end. -/
theorem Relay.returns {budget : Duration} {r : Request}
    {stages : List Stage} {calls : List Invocation} {outcome : Option Outcome}
    (h : Relay cancelAt budget r scratch b source stages calls outcome)
    (hends : cancelAt.isSome = true ∨ b.tool.Ends) : outcome.isSome = true := by
  induction h with
  | race b source =>
    unfold raced
    rw [Option.isSome_map]
    exact Race.run_returns hends _ _ _ _
  | @onward b source s _ _ _ _ hrecord _ _ ih =>
    have htool := (Call.run_eq b budget (stageCall r scratch source s) cancelAt).2.2
    rw [hrecord] at htool
    exact ih (hends.imp_right fun htools => htool.symm ▸ htools)
  | stops hrecord =>
    rw [Option.isSome_map, ← hrecord]
    exact Call.run_returns hends _ _

/-! ### From the start -/

theorem isAbsolute_makeScratch {base pattern d : Text} (h : Path.isAbsolute base = true)
    {tries : Nat} (hmade : (makeScratch b base pattern tries).2 = .ok d) :
    Path.isAbsolute d = true := by
  induction tries generalizing b with
  | zero => cases hmade
  | succ tries ih =>
    unfold makeScratch at hmade
    dsimp only at hmade
    split at hmade
    · cases hmade
    · split at hmade
      · exact ih hmade
      · cases hmade
        obtain ⟨cs, -, hjoin⟩ := Path.canonical_join h [pattern]
        rw [hjoin]
        rfl

theorem isAbsolute_scratchDirectory {o : Options} {id d : Text}
    (h : scratchDirectory b o id = (b', .ok d)) : Path.isAbsolute d = true := by
  have hbase : Path.isAbsolute (workplace b o) = true := (b.canonical_absolute _).isAbsolute
  unfold scratchDirectory at h
  dsimp only at h
  split at h
  · cases h
  · generalize (if id.isEmpty = true then _ else _ : Text) = front at h
    split at h
    · cases h
    · exact isAbsolute_makeScratch hbase (congrArg Prod.snd h)

theorem firstM_eq_findSome? {α β : Type} (f : α → Option β) (xs : List α) :
    xs.firstM f = xs.findSome? f := by
  induction xs with
  | nil => rfl
  | cons x rest ih =>
    rw [List.firstM, List.findSome?_cons, ih]
    cases f x <;> rfl

/-- **How a verification starts.** The first stage that cannot be run ends it before anything is
done. -/
inductive Starts (b : Bench) (o : Options) (r : Request) :
    Bench × Progress Verification Outcome → Prop
  | invalid {before after : List Stage} {s : Stage} {f : Stage.Fault}
    (hstages : r.stages = before ++ s :: after) (hbefore : ∀ x ∈ before, x.validate = .ok ())
    (hs : s.validate = .error f) : Starts b o r (b, .ended (.answer .failed (some (.stage f))))
  | unplaced {b' : Bench} {f : Fault} (hvalid : ∀ s ∈ r.stages, s.validate = .ok ())
    (hne : r.stages ≠ []) (hscratch : scratchDirectory b o r.id = (b', .error f)) :
    Starts b o r (b', .ended (.answer .failed (some f)))
  | direct {b' : Bench} {v : Verification} (hnil : r.stages = [])
    (hnext : resume ⟨r, o.transformBudget, none, .raced .failed⟩ b (b.absolute r.circuit) [] =
      (b', v)) : Starts b o r (b', .going v)
  | staged {b' b'' : Bench} {d : Text} {v : Verification}
    (hvalid : ∀ s ∈ r.stages, s.validate = .ok ()) (hne : r.stages ≠ [])
    (hscratch : scratchDirectory b o r.id = (b', .ok d))
    (hnext : resume ⟨r, o.transformBudget, some d, .raced .failed⟩ b' (b.absolute r.circuit)
      r.stages = (b'', v)) : Starts b o r (b'', .going v)

theorem starts (b : Bench) (o : Options) (r : Request) : Starts b o r (start b o r) := by
  unfold start
  rw [firstM_eq_findSome?]
  split
  · rename_i f hfirst
    obtain ⟨before, s, after, hstages, hs, hbefore⟩ := List.findSome?_eq_some_iff.mp hfirst
    refine .invalid hstages (fun x hx => ?_) ?_
    · have hnone := hbefore x hx
      split at hnone <;> trivial
    · split at hs <;> cases hs
      assumption
  · rename_i hfirst
    have hvalid : ∀ s ∈ r.stages, s.validate = .ok () := by
      intro s hs
      have hnone := List.findSome?_eq_none_iff.mp hfirst s hs
      split at hnone <;> trivial
    dsimp only
    split
    · rename_i hnil
      exact .direct hnil rfl
    · rename_i s rest hstages
      have hne : r.stages ≠ [] := by simp [hstages]
      cases hscratch : scratchDirectory b o r.id with
      | mk b' made =>
      cases made with
      | error f => exact .unplaced hvalid hne hscratch
      | ok d => exact .staged hvalid hne hscratch (by rw [hstages]; rfl)

/-- What a verification does: `Conduct b o r cancelAt calls record`. -/
inductive Conduct (b : Bench) (o : Options) (r : Request) (cancelAt : Option Instant) :
    List Invocation → Timeline.Record RaceEvent Outcome → Prop where
  /-- A stage that cannot be run: nothing is called, and nothing is changed. -/
  | invalid {before after : List Stage} {s : Stage} {f : Stage.Fault} :
    r.stages = before ++ s :: after → (∀ x ∈ before, x.validate = .ok ()) →
    s.validate = .error f →
    Conduct b o r cancelAt [] ⟨b, [], some (.answer .failed (some (.stage f)))⟩
  /-- There is no place for what the stages write. -/
  | unplaced {b' : Bench} {f : Fault} :
    (∀ s ∈ r.stages, s.validate = .ok ()) → r.stages ≠ [] →
    scratchDirectory b o r.id = (b', .error f) →
    Conduct b o r cancelAt [] ⟨b', [], some (.answer .failed (some f))⟩
  | direct {calls : List Invocation} {record : Timeline.Record RaceEvent Outcome} :
    r.stages = [] →
    Relay cancelAt o.transformBudget r "" b (b.absolute r.circuit) [] calls record.result →
    Conduct b o r cancelAt calls record
  | staged {b' : Bench} {scratch : Text} {calls : List Invocation}
    {record : Timeline.Record RaceEvent Outcome} :
    (∀ s ∈ r.stages, s.validate = .ok ()) → r.stages ≠ [] →
    scratchDirectory b o r.id = (b', .ok scratch) →
    Relay cancelAt o.transformBudget r scratch b' (b.absolute r.circuit) r.stages calls
      record.result →
    Conduct b o r cancelAt calls record

theorem exists_conduct (b : Bench) (o : Options) (r : Request) (cancelAt : Option Instant) :
    ∃ calls, Conduct b o r cancelAt calls (run b o r cancelAt) ∧
      (run b o r cancelAt).bench.invoked = calls.reverse ++ b.invoked := by
  have hcircuit := b.canonical_absolute r.circuit
  have hworks := works_scratchDirectory b o r.id
  have hstarts := starts b o r
  unfold run
  generalize start b o r = x at hstarts
  cases hstarts with
  | invalid hstages hbefore hs => exact ⟨[], .invalid hstages hbefore hs, rfl⟩
  | unplaced hvalid hne hscratch =>
    rw [hscratch] at hworks
    exact ⟨[], .unplaced hvalid hne hscratch, hworks.makes.invoked⟩
  | direct hnil hnext =>
    obtain ⟨record, hplay, hresult, hcalls⟩ := play_startRace cancelAt
      ⟨r, o.transformBudget, none, .raced .failed⟩ b hcircuit []
    have hrelay : Relay cancelAt o.transformBudget r "" b (b.absolute r.circuit) [] _ _ :=
      .race b _
    rw [← hresult] at hrelay
    rw [hnext] at hplay
    rw [Timeline.complete_going hplay]
    exact ⟨_, .direct hnil hrelay, hcalls⟩
  | @staged b' _ d _ hvalid hne hscratch hnext =>
    rw [hscratch] at hworks
    have habsolute := isAbsolute_scratchDirectory hscratch
    obtain ⟨calls, record, hplay, hrelay, hcalls⟩ := play_resume cancelAt
      ⟨r, o.transformBudget, some d, .raced .failed⟩ rfl habsolute b' hcircuit r.stages []
    rw [hnext] at hplay
    rw [Timeline.complete_going hplay]
    exact ⟨calls, .staged hvalid hne hscratch hrelay,
      hcalls.trans (congrArg (_ ++ ·) hworks.makes.invoked)⟩

/-- **A verification calls what its relay calls, in that order, and comes to what the relay comes
to.** It calls nothing and changes nothing when a stage cannot be run. It always comes to something
if it is cancelled at some time, or if the tool's calls end by themselves. -/
theorem run_conduct (b : Bench) (o : Options) (r : Request) (cancelAt : Option Instant) :
    ∃ calls, Conduct b o r cancelAt calls (run b o r cancelAt) ∧
      (run b o r cancelAt).bench.invoked = calls.reverse ++ b.invoked ∧
      (cancelAt.isSome = true ∨ b.tool.Ends → (run b o r cancelAt).result.isSome = true) := by
  obtain ⟨calls, hconduct, hcalls⟩ := exists_conduct b o r cancelAt
  refine ⟨calls, hconduct, hcalls, fun hends => ?_⟩
  generalize run b o r cancelAt = record at hconduct
  cases hconduct with
  | invalid | unplaced => rfl
  | direct _ hrelay => exact hrelay.returns hends
  | staged _ _ hscratch hrelay =>
    have hworks := works_scratchDirectory b o r.id
    rw [hscratch] at hworks
    exact hrelay.returns (hends.imp_right fun htool => hworks.makes.tool.symm ▸ htool)

theorem run_of_ended {b₀ : Bench} {o : Options} {r : Request} {outcome : Outcome}
    (hstart : start b₀ o r = (b, .going v))
    (hadvance : v.advance b (b.passed cancelAt) = (b', events, .ended outcome)) :
    run b₀ o r cancelAt = ⟨b', events, some outcome⟩ := by
  unfold run
  rw [hstart]
  exact Timeline.complete_going (Timeline.play_ended [] hadvance)

/-- A tool that writes the file it is told to write, and proves everything. -/
def obliging : Tool := fun _ _ i =>
  { lines := [], length := some 0, ending := .done "UNSAT",
    closing := fun files => (i.target?.bind fun p => (files.write p "aig").toOption).getD files,
    halted := fun _ => .giveUp 0 }

def obligingBench : Bench :=
  { now := 0, files := ⟨[], []⟩, tool := obliging, randomEnding := fun _ => "1" }

def twoStages : Request :=
  ⟨"run", "/c.aig", [⟨"s", "dc2"⟩, ⟨"t", "rewrite"⟩], [.pdr, .bmc], 0⟩

theorem run_conduct_two_stages : obliging.Ends ∧
    (run obligingBench ⟨"/w", 0⟩ twoStages none).result.isSome = true ∧
    Conduct obligingBench ⟨"/w", 0⟩ twoStages none
      [.transform "run" "s" "dc2" "/c.aig" "/w/run-1/s_c.aig",
        .transform "run" "t" "rewrite" "/w/run-1/s_c.aig" "/w/run-1/t_s_c.aig",
        .engine "run" "/w/run-1/t_s_c.aig" .pdr, .engine "run" "/w/run-1/t_s_c.aig" .bmc]
      (run obligingBench ⟨"/w", 0⟩ twoStages none) := by
  have hends : obliging.Ends := fun _ _ _ => rfl
  obtain ⟨calls, hconduct, hinvoked, hreturns⟩ := run_conduct obligingBench ⟨"/w", 0⟩ twoStages none
  refine ⟨hends, hreturns (.inr hends), ?_⟩
  have hcalls : calls = (run obligingBench ⟨"/w", 0⟩ twoStages none).bench.invoked.reverse := by
    rw [hinvoked, List.reverse_append, List.reverse_reverse]
    rfl
  -- every call ends at once, so all happens at the first instant
  obtain ⟨b, v, hstart, b', events, o, hadvance, hmade⟩ : ∃ b v,
      start obligingBench ⟨"/w", 0⟩ twoStages = (b, .going v) ∧ ∃ b' events o,
        v.advance b (b.passed none) = (b', events, .ended o) ∧ b'.invoked.reverse =
          [.transform "run" "s" "dc2" "/c.aig" "/w/run-1/s_c.aig",
            .transform "run" "t" "rewrite" "/w/run-1/s_c.aig" "/w/run-1/t_s_c.aig",
            .engine "run" "/w/run-1/t_s_c.aig" .pdr, .engine "run" "/w/run-1/t_s_c.aig" .bmc] :=
    ⟨_, _, rfl, _, _, _, rfl, rfl⟩
  have hrun := run_of_ended hstart hadvance
  rw [hrun, hmade] at hcalls
  rw [← hcalls]
  exact hconduct

def crashing : Tool := fun _ _ _ =>
  { lines := [], length := some 0, ending := .breakdown "boom", halted := fun _ => .giveUp 0 }

/-- A bench with such a tool, and with a file where a work directory could be. -/
def obstructed : Bench :=
  { now := 0, files := ⟨[], [(["blocked"], .file "x" false)]⟩, tool := crashing,
    randomEnding := fun _ => "1" }

/-- Stages that can be run are not run when there is no place for their files, and a stage in which
the calling code breaks down has no answer. -/
theorem run_obstructed : (∀ s ∈ twoStages.stages, s.validate = .ok ()) ∧
    run obstructed ⟨"/blocked", 0⟩ twoStages none =
      ⟨obstructed, [], some (.answer .failed (some (.workDirectory "/blocked" .notDirectory)))⟩ ∧
    (run obstructed ⟨"/w", 0⟩ twoStages none).result = some (.breakdown "boom") := by
  refine ⟨by decide, rfl, ?_⟩
  obtain ⟨b, v, hstart, b', events, hadvance⟩ : ∃ b v,
      start obstructed ⟨"/w", 0⟩ twoStages = (b, .going v) ∧ ∃ b' events,
        v.advance b (b.passed none) = (b', events, .ended (.breakdown "boom")) :=
    ⟨_, _, rfl, _, _, rfl⟩
  rw [run_of_ended hstart hadvance]

end Verification
end Regatta
