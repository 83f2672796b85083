import Regatta.Cli.Stats
import Regatta.Proofs.Circuit.Breakdown
import Regatta.Proofs.Circuit.Taking
import Regatta.Proofs.Service.Departure
import Regatta.Proofs.Tool.Call

/-! What comes of gathering the figures of a circuit.

Asking the tool is one call (`Collection.call`), and the answer is judged when the call comes back
(`play_judged`). The circuit's own file is opened when the setting says so, or when the tool was
asked first and did not know; only then can the gathering break down. -/
namespace Regatta

/-- The figures in the answer of a call. -/
def Ending.figures : Ending → Option Stats
  | .done output => Stats.extract output
  | _ => none

namespace Circuit

/-- The file is there, and reading it breaks down. -/
def Unreadable (files : FileTree) (circuit : Text) : Prop :=
  ∃ content, files.read circuit = .ok content ∧ Aiger.Overreaches content

namespace Collection

/-! ### The circuit's own file -/

variable {b' : Bench} {e : Ending} {files : FileTree} {k : Call} {lines : List Text} {stop : Bool}

theorem inspect_of_error {circuit : Text} {e : FileError} (h : files.read circuit = .error e) :
    ∃ f, inspect files circuit = .error f ∧ f.isBreakdown = false := by
  cases e with
  | isDirectory => exact ⟨.directory circuit, by rw [inspect, h], rfl⟩
  | _ => exact ⟨.unopened circuit _, by rw [inspect, h], rfl⟩

/-- A file that can be opened breaks the reader exactly when it overreaches. -/
theorem inspect_of_ok {circuit content : Text} (h : files.read circuit = .ok content) :
    (∃ s, inspect files circuit = .ok s ∧ ¬ Aiger.Overreaches content) ∨
      ∃ f, inspect files circuit = .error f ∧
        (f.isBreakdown = true ↔ Aiger.Overreaches content) := by
  rw [← Aiger.stats_eq_breakdown_iff, inspect, h]
  cases hstats : Aiger.stats content with
  | ok s => exact .inl ⟨s, by simp only [hstats], by simp⟩
  | error e =>
    refine .inr ?_
    cases e with
    | tooShort => exact ⟨.tooShort circuit, by simp only [hstats], by simp [InspectFault.isBreakdown]⟩
    | otherFormat mark =>
      exact ⟨.otherFormat circuit mark, by simp only [hstats], by simp [InspectFault.isBreakdown]⟩
    | content f =>
      refine ⟨.malformed circuit f, by simp only [hstats], ?_⟩
      cases f <;> simp [InspectFault.isBreakdown]

/-- Reading the file gives figures or says that they are not known, unless the file overreaches. -/
theorem native_cases (b : Bench) (circuit : Text) :
    (Unreadable b.files circuit ∧ ∃ reason, (native b circuit).2 = .breakdown reason) ∨
      (¬ Unreadable b.files circuit ∧ ∃ s, (native b circuit).2 = .figures s) := by
  have hnone : ∀ f, inspect b.files circuit = .error f → f.isBreakdown = false →
      (native b circuit).2 = .figures none := by
    intro f hf hbreak
    rw [native, hf]
    simp only [hbreak]
    rfl
  cases hread : b.files.read circuit with
  | error e =>
    obtain ⟨f, hf, hbreak⟩ := inspect_of_error hread
    refine .inr ⟨?_, none, hnone f hf hbreak⟩
    rintro ⟨content, hcontent, -⟩
    rw [hread] at hcontent
    cases hcontent
  | ok content =>
    have hunreadable : Unreadable b.files circuit ↔ Aiger.Overreaches content := by
      refine ⟨?_, fun h => ⟨content, hread, h⟩⟩
      rintro ⟨content', hcontent, h⟩
      rw [hread] at hcontent
      cases hcontent
      exact h
    rw [hunreadable]
    obtain ⟨s, hs, hnot⟩ | ⟨f, hf, hiff⟩ := inspect_of_ok hread
    · exact .inr ⟨hnot, some s, by rw [native, hs]⟩
    · cases hbreak : f.isBreakdown with
      | true =>
        refine .inl ⟨hiff.mp hbreak,
          Text.ofString "runtime error: " ++ Aiger.Fault.breakdown.message, ?_⟩
        rw [native, hf]
        simp only [hbreak]
        rfl
      | false =>
        refine .inr ⟨fun h => ?_, none, hnone f hf hbreak⟩
        rw [hiff.mpr h] at hbreak
        cases hbreak

theorem native_breakdown_iff (b : Bench) (circuit : Text) :
    (∃ reason, (native b circuit).2 = .breakdown reason) ↔ Unreadable b.files circuit := by
  obtain ⟨hunreadable, h⟩ | ⟨hreadable, s, hs⟩ := native_cases b circuit
  · exact ⟨fun _ => hunreadable, fun _ => h⟩
  · refine ⟨?_, fun h => absurd h hreadable⟩
    rintro ⟨reason, h⟩
    rw [hs] at h
    cases h

theorem native_files (b : Bench) (circuit : Text) : (native b circuit).1.files = b.files := by
  unfold native
  split
  · rfl
  · split <;> rfl

/-! ### Asking the tool -/

def call (c : Collection) : Call := ⟨c.deadline, c.activity⟩

theorem advance_of_call_going {c : Collection} {b : Bench}
    (h : c.call.advance b stop = (b', lines, .going k)) :
    c.advance b stop = (b', .going { c with activity := k.activity }) := by
  obtain ⟨rfl, ha, -⟩ := Call.advance_going h
  have hadvance : c.activity.advance b'.now (stop || b'.passed c.deadline) =
      (lines, .going k.activity) := ha
  rw [advance, hadvance]

theorem advance_of_call_ended {c : Collection} {b : Bench}
    (h : c.call.advance b stop = (b', lines, .ended e)) :
    c.advance b stop = ((c.judge b' e).1, .ended (c.judge b' e).2) := by
  obtain ⟨r, ha, rfl, rfl⟩ := Call.advance_ended h
  have hadvance : c.activity.advance b.now (stop || b.passed c.deadline) = (lines, .ended r) := ha
  rw [advance, hadvance]

theorem process_advance {c : Collection} {b : Bench}
    {progress : Progress Collection Collected} (h : c.advance b stop = (b', progress)) :
    Process.advance c b stop = (b', ([] : List Empty), progress) := by
  show ((c.advance b stop).1, _, (c.advance b stop).2) = _
  rw [h]

/-- The figures are there when the call comes back, and are what its answer amounts to. -/
theorem play_judged {cancelAt : Option Instant} {b : Bench} {seen : List Text}
    {record : Timeline.Record Text Ending} (hplay : Timeline.play cancelAt b seen k = some record) :
    ∀ (c : Collection) (seen' : List Empty), c.call = k →
      ∃ own : Timeline.Record Empty Collected, Timeline.play cancelAt b seen' c = some own ∧
        own.result = record.result.map fun e => (c.judge record.bench e).2 := by
  refine Timeline.play_induct ?_ ?_ ?_ hplay
  · rintro b seen _ b' lines e h c seen' rfl
    exact ⟨_, Timeline.play_ended seen' (process_advance (advance_of_call_ended h)), rfl⟩
  · rintro b seen _ b' lines k' h hnext c seen' rfl
    obtain ⟨-, -, hk⟩ := Call.advance_going h
    rw [hk] at hnext
    exact ⟨_, Timeline.play_idle seen' (process_advance (advance_of_call_going h)) hnext, rfl⟩
  · rintro b seen _ b' lines k' t record h hnext ih c seen' rfl
    obtain ⟨-, -, hk⟩ := Call.advance_going h
    obtain ⟨own, hplay, hresult⟩ := ih { c with activity := k'.activity } seen' hk.symm
    rw [hk] at hnext
    exact ⟨own, (Timeline.play_going seen' (process_advance (advance_of_call_going h)) hnext).trans
      hplay, hresult⟩

def question (b : Bench) (circuit : Text) : Invocation := .stats (b.absolute circuit)

/-- The files as the circuit's own file is opened in them, where it is: at once, or when the tool
was asked before and does not know. -/
def opened (b : Bench) (c : Collector) (circuit : Text) (cancelAt : Option Instant) :
    Option FileTree :=
  if c.source = Stats.Source.native.name then some b.files
  else
    let answer := Call.run b c.budget (question b circuit) cancelAt
    if c.source = Stats.Source.auto.name ∧ answer.result.bind Ending.figures = none then
      some answer.bench.files
    else none

theorem judge_cases (c : Collection) (b : Bench) (he : ∀ reason, e ≠ .breakdown reason) :
    (∃ s, e.figures = some s ∧ (c.judge b e).2 = .figures (some s)) ∨
      e.figures = none ∧ ∃ b' : Bench, b'.files = b.files ∧
        (c.judge b e).2 = if c.fallback then (native b' c.circuit).2 else .figures none := by
  have hotherwise : ∀ b', (judge.otherwise c b').2 =
      if c.fallback then (native b' c.circuit).2 else .figures none := by
    intro b'
    unfold judge.otherwise
    split <;> rfl
  cases e with
  | breakdown reason => exact absurd rfl (he reason)
  | done output =>
    cases hfigures : Stats.extract output with
    | some s => exact .inl ⟨s, hfigures, by simp only [judge, hfigures]⟩
    | none =>
      refine .inr ⟨hfigures, b.note .warn (Text.ofString "no stats line in tool output"), rfl, ?_⟩
      rw [← hotherwise]
      simp only [judge, hfigures]
  | _ =>
    exact .inr ⟨rfl, b.note .warn (Text.ofString "stats invocation failed"), rfl, hotherwise _⟩

variable {b : Bench} {c : Collector} {circuit : Text} {cancelAt : Option Instant}

theorem run_native (h : c.source = Stats.Source.native.name) : run b c circuit cancelAt =
    ⟨(native b (b.absolute circuit)).1, [], some (native b (b.absolute circuit)).2⟩ := by
  rw [run, start, if_pos (beq_iff_eq.mpr h)]
  rfl

theorem run_asked (h : c.source ≠ Stats.Source.native.name) {e : Ending}
    (he : (Call.run b c.budget (question b circuit) cancelAt).result = some e) :
    ∃ k : Collection, k.circuit = b.absolute circuit ∧
      k.fallback = (c.source == Stats.Source.auto.name) ∧
      (run b c circuit cancelAt).result =
        some (k.judge (Call.run b c.budget (question b circuit) cancelAt).bench e).2 := by
  have hplay := (Call.run_eq b c.budget (question b circuit) cancelAt).1
  refine ⟨⟨b.absolute circuit, c.source == Stats.Source.auto.name, b.deadline c.budget,
    (b.call (question b circuit)).2⟩, rfl, rfl, ?_⟩
  obtain ⟨own, hown, hresult⟩ := play_judged hplay ⟨b.absolute circuit,
    c.source == Stats.Source.auto.name, b.deadline c.budget, (b.call (question b circuit)).2⟩ [] rfl
  have hrun : run b c circuit cancelAt = own := by
    rw [run, start, if_neg (by simpa using h)]
    exact Timeline.complete_going hown
  rw [hrun, hresult, he]
  rfl

/-- The gathering comes to figures, known or not, or breaks down on the file that it opens. -/
theorem run_outcome (hback : c.source = Stats.Source.native.name ∨ cancelAt.isSome = true ∨
      0 < c.budget ∨ (b.tool b.invoked b.files (question b circuit)).length.isSome = true)
    (hanswer : ∀ reason, (Call.run b c.budget (question b circuit) cancelAt).result ≠
      some (.breakdown reason)) :
    ∃ x, (run b c circuit cancelAt).result = some x ∧
      ((∃ reason, x = .breakdown reason) ↔
        ∃ files ∈ opened b c circuit cancelAt, Unreadable files (b.absolute circuit)) := by
  by_cases hnative : c.source = Stats.Source.native.name
  · refine ⟨_, by rw [run_native hnative], ?_⟩
    rw [native_breakdown_iff, opened, if_pos hnative]
    simp
  obtain ⟨e, he⟩ := Option.isSome_iff_exists.mp (Call.run_isSome (hback.resolve_left hnative))
  have hsound : ∀ reason, e ≠ .breakdown reason := by
    rintro reason rfl
    exact hanswer reason he
  obtain ⟨k, hcircuit, hfallback, hrun⟩ := run_asked hnative he
  refine ⟨_, hrun, ?_⟩
  rw [opened, if_neg hnative]
  simp only [he, Option.bind_some]
  obtain ⟨s, hs, hjudge⟩ | ⟨hnone, b', hfiles, hjudge⟩ := judge_cases k
    (Call.run b c.budget (question b circuit) cancelAt).bench hsound
  · rw [hjudge]
    simp [hs]
  · rw [hjudge, hfallback, hcircuit]
    by_cases hauto : c.source = Stats.Source.auto.name
    · rw [if_pos (beq_iff_eq.mpr hauto), native_breakdown_iff, hfiles]
      simp [hauto, hnone]
    · simp [hauto]

end Collection

end Circuit

/-! ### The figures of several circuits -/

namespace Cli

/-- Reading several circuits comes to nothing exactly when one of them breaks the reader. -/
theorem collectAll_native {c : Circuit.Collector} (h : c.source = Stats.Source.native.name)
    (cancelAt : Option Instant) (b : Bench) (circuits : List Text) :
    (collectAll c cancelAt b circuits).2 = none ↔
      ∃ p ∈ circuits, Circuit.Unreadable b.files (b.absolute p) := by
  induction circuits generalizing b with
  | nil => simp [collectAll]
  | cons p rest ih =>
    have hfiles := Circuit.Collection.native_files b (b.absolute p)
    have habsolute : ∀ q, (Circuit.Collection.native b (b.absolute p)).1.absolute q =
        b.absolute q := by
      intro q
      rw [Bench.absolute, hfiles, Bench.absolute]
    have hrest := ih (Circuit.Collection.native b (b.absolute p)).1
    simp only [hfiles, habsolute] at hrest
    rw [collectAll, Circuit.Collection.run_native h]
    simp only [List.mem_cons, exists_eq_or_imp]
    obtain ⟨hunreadable, reason, hx⟩ | ⟨hreadable, s, hx⟩ :=
      Circuit.Collection.native_cases b (b.absolute p)
    · simp [hx, hunreadable]
    · simp [hx, hreadable, hrest]

end Cli

/-! ### Runs -/

namespace Job

/-- A run ends by breaking down over its circuit's figures exactly when gathering them did. -/
theorem collected_breakdown_iff (j : Job) (d : Desk) (x : Circuit.Collected) :
    (∃ o reason, (j.collected d x).2.phase = .leaving o ∧
        o.error = some (.breakdown j.id reason)) ↔ ∃ reason, x = .breakdown reason := by
  cases x with
  | breakdown reason => exact ⟨fun _ => ⟨reason, rfl⟩, fun _ => ⟨_, reason, rfl, rfl⟩⟩
  | figures s =>
    refine ⟨?_, fun ⟨_, h⟩ => (by cases h)⟩
    rintro ⟨o, reason, hphase, -⟩
    cases hstart : Verification.start d.bench d.options j.verification with
    | mk bench p =>
    rw [j.collected_eq d s hstart] at hphase
    cases p <;> cases hphase

end Job

namespace Circuit.Collection

/-- **Gathering figures comes to an answer unless the file it opens breaks the reader.** Whatever the
setting, the circuit and the tool's answer, the figures are known or known to be unknown, except
when the circuit's own file is opened and overreaches. Then the gathering breaks down, and with it
the run that waits for it, and the command that reads several circuits. -/
theorem run_breakdown_iff (b : Bench) (c : Collector) (circuit : Text) (cancelAt : Option Instant)
    (hback : c.source = Stats.Source.native.name ∨ cancelAt.isSome = true ∨ 0 < c.budget ∨
      (b.tool b.invoked b.files (question b circuit)).length.isSome = true)
    (hanswer : ∀ reason, (Call.run b c.budget (question b circuit) cancelAt).result ≠
      some (.breakdown reason)) :
    ∃ x, (run b c circuit cancelAt).result = some x ∧
      ((∃ s, x = .figures s) ↔
        ¬ ∃ files ∈ opened b c circuit cancelAt, Unreadable files (b.absolute circuit)) ∧
      (∀ (j : Job) (d : Desk), (∃ o reason, (j.collected d x).2.phase = .leaving o ∧
          o.error = some (.breakdown j.id reason)) ↔
        ∃ files ∈ opened b c circuit cancelAt, Unreadable files (b.absolute circuit)) ∧
      (c.source = Stats.Source.native.name → ∀ circuits,
        ((Cli.collectAll c cancelAt b circuits).2 = none ↔
          ∃ p ∈ circuits, Unreadable b.files (b.absolute p))) := by
  obtain ⟨x, hrun, hiff⟩ := run_outcome hback hanswer
  refine ⟨x, hrun, ?_, fun j d => (j.collected_breakdown_iff d x).trans hiff,
    fun hnative => Cli.collectAll_native hnative cancelAt b⟩
  rw [← hiff]
  cases x with
  | figures s => exact ⟨fun _ ⟨_, h⟩ => (by cases h), fun _ => ⟨s, rfl⟩⟩
  | breakdown reason => exact ⟨fun ⟨_, h⟩ => (by cases h), fun h => absurd ⟨reason, rfl⟩ h⟩

/-- A latch with the variable 2 in a file whose last variable is 1. -/
def overreaching : Text := Text.ofString "aag 1 0 1 0 0\n4 2\n"

theorem overreaches : Aiger.Overreaches overreaching := by
  have htext : overreaching.drop 3 = [1, 0, 1, 0, 0].flatMap (fun n => 32 :: Text.ofNat n) ++ [10] ++
      (Text.ofNat 4 ++ 32 :: (Text.ofNat 2 ++ [10])) := by decide +kernel
  have hheader : Aiger.header.run (overreaching.drop 3) = .ok (⟨1, 0, 1, 0, 0, 0, 0, 0, 0⟩,
      Text.ofNat 4 ++ 32 :: (Text.ofNat 2 ++ [10])) := by
    rw [htext]
    exact Aiger.Takes.header (by decide) _
  have hlatch : Aiger.Takes (Aiger.latchText ⟨1, 0, 1, 0, 0, 0, 0, 0, 0⟩)
      (Text.ofNat 4 ++ 32 :: (Text.ofNat 2 ++ [10])) (2, 2) := by
    have hinit : Aiger.Takes (Aiger.latchInit 4) [10] () :=
      (Aiger.Takes.nextByte 10).bind_pure (.pure ())
    have hnext : Aiger.Takes (do
        let next ← Aiger.literal 1
        Aiger.latchInit 4
        return (2, next)) (Text.ofNat 2 ++ [10]) (2, 2) :=
      .literal (by decide) (by decide) (by decide) (hinit.bind_pure (.pure _))
    exact .number (by decide) (by decide) ((Aiger.Takes.expect 32).bind hnext)
  have hrun := hlatch []
  rw [List.append_nil] at hrun
  have habove : Aiger.Overruns 1 Prod.fst (fun _ => Aiger.latchText ⟨1, 0, 1, 0, 0, 0, 0, 0, 0⟩) 1 0
      (Text.ofNat 4 ++ 32 :: (Text.ofNat 2 ++ [10])) :=
    Aiger.overruns_succ.mpr ⟨(2, 2), [], hrun, .inl (by decide)⟩
  exact .latchLine (b := .start) (by decide) hheader rfl habove

/-- A bench with that file, and a tool that has no figures after ten units of time. -/
def overreachingBench : Bench where
  now := 0
  files := ⟨[], [([Text.ofString "c.aag"], .file overreaching false)]⟩
  tool := fun _ _ _ =>
    { lines := [], length := some 10, ending := .done (Text.ofString "no figures"),
      halted := fun _ => Course.giveUp 0 }
  randomEnding := fun _ => []

theorem unreadable_overreaching : Unreadable overreachingBench.files
    (overreachingBench.absolute (Text.ofString "c.aag")) :=
  ⟨overreaching, rfl, overreaches⟩

/-- The tool comes back without figures, the file is opened, and the gathering breaks down. -/
theorem run_breakdown_iff_overreaching :
    (∀ reason, (Call.run overreachingBench 0
      (question overreachingBench (Text.ofString "c.aag")) none).result ≠
        some (.breakdown reason)) ∧
    ∃ reason, (run overreachingBench ⟨Stats.Source.auto.name, 0⟩ (Text.ofString "c.aag")
      none).result = some (.breakdown reason) := by
  have hplay : Timeline.play none
      (overreachingBench.call (question overreachingBench (Text.ofString "c.aag"))).1 []
      (⟨none, (overreachingBench.call
        (question overreachingBench (Text.ofString "c.aag"))).2⟩ : Call) =
      some ⟨{ (overreachingBench.call
        (question overreachingBench (Text.ofString "c.aag"))).1 with now := 10 }, [],
        some (.done (Text.ofString "no figures"))⟩ :=
    (Timeline.play_going [] rfl rfl).trans (Timeline.play_ended _ rfl)
  have hcall : Call.run overreachingBench 0
      (question overreachingBench (Text.ofString "c.aag")) none = _ :=
    Timeline.complete_going hplay
  have hanswer : ∀ reason, (Call.run overreachingBench 0
      (question overreachingBench (Text.ofString "c.aag")) none).result ≠
        some (.breakdown reason) := by
    intro reason h
    rw [hcall] at h
    cases h
  have hopened : overreachingBench.files ∈ opened overreachingBench ⟨Stats.Source.auto.name, 0⟩
      (Text.ofString "c.aag") none := by
    rw [opened, if_neg (by decide)]
    dsimp only
    rw [hcall, if_pos ⟨rfl, by decide⟩]
    rfl
  obtain ⟨x, hx, hfigures, -⟩ := run_breakdown_iff overreachingBench
    ⟨Stats.Source.auto.name, 0⟩ (Text.ofString "c.aag") none (.inr (.inr (.inr rfl))) hanswer
  refine ⟨hanswer, ?_⟩
  rw [hx]
  cases x with
  | figures s =>
    exact absurd ⟨_, hopened, unreadable_overreaching⟩ (hfigures.mp ⟨s, rfl⟩)
  | breakdown reason => exact ⟨reason, rfl⟩

/-- A circuit alone breaks the gathering of its figures, and the command that prints them. -/
theorem native_breaks_down :
    (∃ reason, (run overreachingBench ⟨Stats.Source.native.name, 0⟩ (Text.ofString "c.aag")
      none).result = some (.breakdown reason)) ∧
    (Cli.collectAll ⟨Stats.Source.native.name, 0⟩ none overreachingBench
      [Text.ofString "c.aag"]).2 = none := by
  constructor
  · obtain ⟨reason, h⟩ := (native_breakdown_iff overreachingBench _).mpr unreadable_overreaching
    exact ⟨reason, by rw [run_native rfl, h]⟩
  · exact (Cli.collectAll_native rfl none _ _).mpr
      ⟨_, List.mem_singleton_self _, unreadable_overreaching⟩

end Circuit.Collection
end Regatta
