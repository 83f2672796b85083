import Regatta.Proofs.Tool.Call
import Regatta.Proofs.Verdict

/-! From the way a call comes back to the result of an engine.

An engine at work is one call of the tool (`Worker.call`), and its result is a judgement on how the
call came back, at the moment when it did: `play_judged` plays the two side by side. The judgement
is a matter of four things only (`Judged`): the ending of the call, the engine's own deadline,
whether the owner was cancelled by then, and the time that has gone by.

A result that decides a race is one with an output behind it. `Race.Earned` says this of a result
and of the calls with which a race began; `Race.earned_run` says that every race is decided by such
a result, or not at all. -/
namespace Regatta

/-- The call came back with an error, and did not break down. -/
def Ending.isError : Ending → Bool
  | .unlaunched _ | .failed _ _ | .stopped => true
  | .breakdown _ | .done _ => false

namespace Worker

/-! ### An engine and its call -/

def call (w : Worker) : Call := ⟨w.deadline, w.activity⟩

variable {b b' : Bench} {c : Call} {cancelAt : Option Instant} {lines : List Text} (w : Worker)

theorem respond_of_call_going {stop : Bool} (h : w.call.advance b stop = (b', lines, .going c)) :
    w.respond b.now stop = (lines, .going { w with activity := c.activity }) := by
  obtain ⟨-, ha, -⟩ := Call.advance_going h
  have hadvance : w.activity.advance b.now (stop || w.isLate b.now) = (lines, .going c.activity) := ha
  unfold respond
  rw [hadvance]

theorem respond_of_call_ended {stop : Bool}
    {e : Ending} (h : w.call.advance b stop = (b', lines, .ended e)) :
    w.respond b.now stop = (lines, .ended (w.judge b.now stop e)) := by
  obtain ⟨r, ha, -, rfl⟩ := Call.advance_ended h
  have hadvance : w.activity.advance b.now (stop || w.isLate b.now) = (lines, .ended r) := ha
  unfold respond
  rw [hadvance]

/-- What an engine does on a bench is what it does at that instant. -/
theorem advance_of_respond {w : Worker} {b₁ : Bench}
    {progress : Progress Worker EngineResult} (hnow : b₁.now = b.now)
    (h : w.respond b.now (b.passed cancelAt) = (lines, progress)) :
    ∃ b₁', b₁'.now = b.now ∧
      Process.advance w b₁ (b₁.passed cancelAt) = (b₁', lines, progress) := by
  have hstop : b₁.passed cancelAt = b.passed cancelAt := by simp only [Bench.passed, hnow]
  refine ⟨(w.advance b₁ (b₁.passed cancelAt)).1, (w.advance_now b₁ _).trans hnow, ?_⟩
  refine Prod.ext rfl ((w.advance_snd b₁ _).trans ?_)
  rw [hnow, hstop]
  exact h

/-- Played side by side, an engine and its call report the same lines and come back at the same
instant, the engine with a judgement on the ending of the call. -/
theorem play_judged {seen : List Text}
    {record : Timeline.Record Text Ending} (hplay : Timeline.play cancelAt b seen c = some record) :
    ∀ (w : Worker) (b₁ : Bench), w.call = c → b₁.now = b.now →
      ∃ own : Timeline.Record Text EngineResult, Timeline.play cancelAt b₁ seen w = some own ∧
        own.events = record.events ∧ own.bench.now = record.bench.now ∧
        own.result = record.result.map
          (w.judge record.bench.now (record.bench.passed cancelAt)) := by
  refine Timeline.play_induct ?_ ?_ ?_ hplay
  · rintro b seen _ b' lines e h w b₁ rfl hnow
    have hb' : b'.now = b.now := Call.now_advance h
    obtain ⟨b₁', hb₁', hown⟩ := advance_of_respond hnow (respond_of_call_ended w h)
    have hstop : b'.passed cancelAt = b.passed cancelAt := by simp only [Bench.passed, hb']
    refine ⟨_, Timeline.play_ended seen hown, rfl, hb₁'.trans hb'.symm, ?_⟩
    rw [hb', hstop]
    rfl
  · rintro b seen _ b' lines c' h hnext w b₁ rfl hnow
    have hb' : b'.now = b.now := Call.now_advance h
    obtain ⟨b₁', hb₁', hown⟩ := advance_of_respond hnow (respond_of_call_going w h)
    obtain ⟨-, -, hc⟩ := Call.advance_going h
    refine ⟨_, Timeline.play_idle seen hown ?_, rfl, hb₁'.trans hb'.symm, rfl⟩
    rw [hc, hb'] at hnext
    rw [hb₁']
    exact hnext
  · rintro b seen _ b' lines c' t record h hnext ih w b₁ rfl hnow
    have hb' : b'.now = b.now := Call.now_advance h
    obtain ⟨b₁', hb₁', hown⟩ := advance_of_respond hnow (respond_of_call_going w h)
    obtain ⟨-, -, hc⟩ := Call.advance_going h
    obtain ⟨own, hplay, hevents, hinstant, hresult⟩ :=
      ih { w with activity := c'.activity } { b₁' with now := t } hc.symm rfl
    refine ⟨own, (Timeline.play_going seen hown ?_).trans hplay, hevents, hinstant, hresult⟩
    rw [hc, hb'] at hnext
    rw [hb₁']
    exact hnext

/-! ### Judgements -/

/-- What the result of an engine is that was started at `started`, and whose call came back at
`now` with this ending; `stop` says whether its owner had been cancelled by then. -/
structure Judged (e : Engine) (started : Instant) (budget : Duration) (now : Instant) (stop : Bool)
    (ending : Ending) (r : EngineResult) : Prop where
  engine : r.engine = e
  elapsed : r.elapsed.isSome = true
  verdict_ne_fail : r.verdict ≠ .fail
  classified : ∀ output, ending = .done output → r = ⟨.classify output, e, some (now - started)⟩
  /-- A verdict that decides something has an output behind it. -/
  decided : r.verdict.conclusive = true →
    ∃ output, ending = .done output ∧ (Verdict.classify output).conclusive = true
  timeout_iff : r.verdict = .timeout ↔
    ending.isError = true ∧ 0 < budget ∧ started + budget ≤ now ∧ stop = false
  elapsed_of_timeout : r.verdict = .timeout → r.elapsed = some budget
  /-- All else says nothing. -/
  unknown : (∀ output, ending ≠ .done output) → r.verdict ≠ .timeout →
    r = ⟨.unknown, e, some (now - started)⟩

theorem classify_ne (output : Text) :
    Verdict.classify output ≠ .timeout ∧ Verdict.classify output ≠ .fail := by
  have hknown : ∀ v ∈ [Verdict.unsat, .sat, .unknown], v ≠ .timeout ∧ v ≠ .fail := by decide
  refine hknown _ ?_
  rw [Verdict.classify_eq_ofMentions]
  unfold Verdict.ofMentions
  split
  · simp
  · split <;> simp

variable {e : Engine} {started now : Instant} {budget : Duration} {stop : Bool} {ending : Ending}

theorem judged_classified (output : Text) :
    Judged e started budget now stop (.done output)
      ⟨.classify output, e, some (now - started)⟩ where
  engine := rfl
  elapsed := rfl
  verdict_ne_fail := (classify_ne output).2
  classified _ h := by
    cases h
    rfl
  decided hv := ⟨output, rfl, hv⟩
  timeout_iff := ⟨fun hv => absurd hv (classify_ne output).1, fun h => absurd h.1 Bool.false_ne_true⟩
  elapsed_of_timeout hv := absurd hv (classify_ne output).1
  unknown h _ := absurd rfl (h output)

theorem judged_timeout (h : ending.isError = true) (hbudget : 0 < budget)
    (hlate : started + budget ≤ now) (hstop : stop = false) :
    Judged e started budget now stop ending ⟨.timeout, e, some budget⟩ where
  engine := rfl
  elapsed := rfl
  verdict_ne_fail := show Verdict.timeout ≠ .fail by decide
  classified _ hdone := by
    rw [hdone] at h
    cases h
  decided hv := absurd hv (show ¬ Verdict.timeout.conclusive = true by decide)
  timeout_iff := ⟨fun _ => ⟨h, hbudget, hlate, hstop⟩, fun _ => rfl⟩
  elapsed_of_timeout _ := rfl
  unknown _ hv := absurd rfl hv

theorem judged_unknown (hdone : ∀ output, ending ≠ .done output)
    (h : ¬ (ending.isError = true ∧ 0 < budget ∧ started + budget ≤ now ∧ stop = false)) :
    Judged e started budget now stop ending ⟨.unknown, e, some (now - started)⟩ where
  engine := rfl
  elapsed := rfl
  verdict_ne_fail := show Verdict.unknown ≠ .fail by decide
  classified output h := absurd h (hdone output)
  decided hv := absurd hv (show ¬ Verdict.unknown.conclusive = true by decide)
  timeout_iff := ⟨fun hv => absurd hv (show Verdict.unknown ≠ .timeout by decide), fun hv => absurd hv h⟩
  elapsed_of_timeout hv := absurd hv (show Verdict.unknown ≠ .timeout by decide)
  unknown _ _ := rfl

theorem isLate_start (b : Bench) (id circuit : Text) (budget : Duration) (e : Engine)
    (now : Instant) : (start b id circuit budget e).2.isLate now = true ↔
      0 < budget ∧ b.now + budget ≤ now := by
  show (b.deadline budget).any (· ≤ now) = true ↔ _
  unfold Bench.deadline
  split
  · rename_i hnone
    simp [Int.not_lt.mpr hnone]
  · rename_i hsome
    simp [Int.not_le.mp hsome]

/-- An error is a timeout when the engine's own time is up and its result is still wanted. -/
theorem judge_error (w : Worker) (now : Instant) (stop : Bool) (h : ending.isError = true) :
    w.judge now stop ending = if !stop && w.isLate now then ⟨.timeout, w.engine, some w.budget⟩
      else ⟨.unknown, w.engine, some (now - w.started)⟩ := by
  cases ending with
  | done => cases h
  | breakdown => cases h
  | unlaunched => rfl
  | failed => rfl
  | stopped => rfl

theorem judged_start (b : Bench) (id circuit : Text) (budget : Duration) (e : Engine)
    (now : Instant) (stop : Bool) (ending : Ending) :
    Judged e b.now budget now stop ending
      ((start b id circuit budget e).2.judge now stop ending) := by
  have hlate := isLate_start b id circuit budget e now
  cases herror : ending.isError with
  | true =>
    have hdone : ∀ output, ending ≠ .done output := by
      rintro output rfl
      cases herror
    rw [judge_error _ _ _ herror]
    split
    · rename_i hcase
      rw [Bool.and_eq_true, Bool.not_eq_true', hlate] at hcase
      exact judged_timeout herror hcase.2.1 hcase.2.2 hcase.1
    · rename_i hcase
      rw [Bool.and_eq_true, Bool.not_eq_true', hlate] at hcase
      exact judged_unknown hdone fun h => hcase ⟨h.2.2.2, h.2.1, h.2.2.1⟩
  | false =>
    cases ending with
    | done output => exact judged_classified output
    | breakdown reason =>
      exact judged_unknown (fun _ h => by cases h) fun h => absurd h.1 Bool.false_ne_true
    | unlaunched => cases herror
    | failed => cases herror
    | stopped => cases herror

end Worker

/-! ### What decides a race -/

namespace Exchange

/-- What is in the queue or has won comes from what was in the queue or was sent. -/
theorem mem_sendAll {x : Exchange} {rs : List EngineResult} {r : EngineResult}
    (h : r ∈ (x.sendAll rs).1.queue ∨ r ∈ (x.sendAll rs).2) : r ∈ x.queue ∨ r ∈ rs := by
  induction rs generalizing x with
  | nil => exact h
  | cons s rest ih =>
    rw [sendAll] at h
    split at h
    · rename_i x' hsend
      obtain ⟨-, -, rfl⟩ := send?_eq_some hsend
      have := ih h
      simp only [List.mem_append, List.mem_cons] at this ⊢
      grind
    · exact h

theorem winner_sendAll (x : Exchange) (rs : List EngineResult) :
    (x.sendAll rs).1.winner = x.winner := by
  induction rs generalizing x with
  | nil => rfl
  | cons s rest ih =>
    rw [sendAll]
    split
    · rename_i x' hsend
      obtain ⟨-, -, rfl⟩ := send?_eq_some hsend
      exact ih _
    · rfl

theorem mem_receiveUpTo {count : Nat} {x : Exchange} {r : EngineResult}
    (h : r ∈ (x.receiveUpTo count).2.queue ∨ (x.receiveUpTo count).2.winner = some r) :
    r ∈ x.queue ∨ x.winner = some r := by
  induction count generalizing x with
  | zero => exact h
  | succ count ih =>
    rw [receiveUpTo] at h
    split at h
    · exact h
    · rename_i s x' hreceive
      obtain ⟨-, rest, hqueue, rfl⟩ := receive?_eq_some hreceive
      rw [hqueue]
      rcases ih h with hmem | hwon
      · exact .inl (List.mem_cons_of_mem _ hmem)
      · simp only [look] at hwon
        split at hwon
        · cases hwon
          exact .inl (List.mem_cons_self ..)
        · cases hwon

end Exchange

namespace Worker

/-- What an engine at work may have become at some instants, told to stop or not. -/
inductive Becomes : Worker → Worker → Prop where
  | refl (w : Worker) : Becomes w w
  | step {u v w : Worker} {now : Instant} {stop : Bool} : Becomes u v →
      (v.respond now stop).2 = .going w → Becomes u w

theorem Becomes.same {u w : Worker} (h : Becomes u w) :
    w.engine = u.engine ∧ w.started = u.started := by
  induction h with
  | refl => exact ⟨rfl, rfl⟩
  | step _ hgoing ih =>
    rw [(respond_going hgoing).2]
    exact ih

end Worker

namespace Race

/-- A result that, if it decides anything, has an output behind it: the call of one of the engines
came back with that output, after whatever became of it in the meantime. -/
def Earned (ws : List Worker) (r : EngineResult) : Prop :=
  r.verdict.conclusive = true → ∃ w ∈ ws, ∃ w', Worker.Becomes w w' ∧ ∃ now stop output,
    (w'.activity.advance now stop).2.Holds (fun _ => False) (·.ending = .done output) ∧
      r = ⟨.classify output, w.engine, some (now - w.started)⟩

/-- A race of these engines, all of whose results are earned. -/
structure Fair (ws : List Worker) (r : Race) : Prop where
  running : ∀ w' ∈ r.running, ∃ w ∈ ws, w.Becomes w'
  held : ∀ x ∈ r.held, Earned ws x
  queue : ∀ x ∈ r.exchange.queue, Earned ws x
  winner : ∀ x, r.exchange.winner = some x → Earned ws x

variable {ws : List Worker} {r : Race}

theorem earned_returning {w w' : Worker} (hw : w ∈ ws) (hbecomes : w.Becomes w') {now : Instant}
    {stop : Bool} {x : EngineResult} (h : (w'.respond now stop).2 = .ended x) : Earned ws x := by
  intro hv
  unfold Worker.respond at h
  split at h
  · cases h
  · rename_i lines ret hadvance
    cases h
    obtain ⟨hengine, hstarted⟩ := hbecomes.same
    cases hending : ret.ending with
    | done output =>
      refine ⟨w, hw, w', hbecomes, now, stop || w'.isLate now, output, ?_, ?_⟩
      · rw [hadvance]
        exact hending
      · rw [← hengine, ← hstarted]
        rfl
    | breakdown reason =>
      rw [hending] at hv
      exact absurd hv (show ¬ (Verdict.conclusive .unknown = true) by decide)
    | _ =>
      rw [hending] at hv
      simp only [Worker.judge] at hv
      split at hv
      · exact absurd hv (show ¬ (Verdict.conclusive .timeout = true) by decide)
      · exact absurd hv (show ¬ (Verdict.conclusive .unknown = true) by decide)

theorem Fair.step (h : Fair ws r) (b : Bench) (stop : Bool) : Fair ws (r.step b stop).2.2 := by
  have hback : ∀ x ∈ returning r.running b.now (r.orders stop), Earned ws x := by
    intro x hx
    obtain ⟨w', hw', hresult⟩ := List.mem_filterMap.mp hx
    obtain ⟨w, hw, hbecomes⟩ := h.running w' hw'
    cases hrespond : (w'.respond b.now (r.orders stop)).2 with
    | going v =>
      rw [hrespond] at hresult
      cases hresult
    | ended y =>
      rw [hrespond] at hresult
      cases hresult
      exact earned_returning hw hbecomes hrespond
  have hsent : ∀ x, x ∈ (r.sent b.now stop).1.queue ∨ x ∈ (r.sent b.now stop).2 → Earned ws x := by
    intro x hx
    rcases Exchange.mem_sendAll hx with hqueue | hnew
    · exact h.queue x hqueue
    · exact (List.mem_append.mp hnew).elim (h.held x) (hback x)
  have hreceived : ∀ x, x ∈ (r.sent b.now stop).1.receiveAll.2.queue ∨
      (r.sent b.now stop).1.receiveAll.2.winner = some x → Earned ws x := by
    intro x hx
    rcases Exchange.mem_receiveUpTo hx with hqueue | hwon
    · exact hsent x (.inl hqueue)
    · exact h.winner x ((Exchange.winner_sendAll _ _).symm.trans hwon)
  rw [(r.step_spec b stop).2.2]
  refine ⟨fun v hv => ?_, fun x hx => hsent x (.inr hx), fun x hx => hreceived x (.inl hx),
    fun x hx => hreceived x (.inr hx)⟩
  obtain ⟨w', hw', hgoing⟩ := mem_staying.mp hv
  obtain ⟨w, hw, hbecomes⟩ := h.running w' hw'
  exact ⟨w, hw, hbecomes.step hgoing⟩

theorem Fair.advance (h : Fair ws r) {b b' : Bench} {stop : Bool} {events : List RaceEvent}
    {progress : Progress Race EngineResult} (ha : r.advance b stop = (b', events, progress)) :
    progress.Holds (Fair ws) (Earned ws) := by
  have hproceed : Fair ws (r.proceed b stop).2.2 := by
    unfold Race.proceed
    dsimp only
    split
    · exact (h.step b stop).step _ stop
    · exact h.step b stop
  unfold Race.advance at ha
  dsimp only at ha
  split at ha
  · cases ha
    show Earned ws (Exchange.outcome _)
    unfold Exchange.outcome
    cases hwon : (r.proceed b stop).2.2.exchange.winner with
    | some x => exact hproceed.winner x hwon
    | none => exact fun hv => absurd hv (show ¬ (Verdict.conclusive .unknown = true) by decide)
  · cases ha
    exact hproceed

/-- **A race is decided by an output.** The outcome of a race, if it is conclusive, is the verdict
of an output with which one of its calls came back. -/
theorem earned_run {b : Bench} {id circuit : Text} {budget : Duration} {engines : List Engine}
    {cancelAt : Option Instant} {outcome : EngineResult}
    (h : (run b id circuit budget engines cancelAt).result = some outcome) :
    Earned (startWorkers b id circuit budget engines).2 outcome := by
  unfold run start at h
  split at h
  · cases h
    exact fun hv => absurd hv (show ¬ (Verdict.conclusive .unknown = true) by decide)
  · dsimp only at h
    have hfair : Fair (startWorkers b id circuit budget engines).2
        ⟨id, (startWorkers b id circuit budget engines).2, [], .ofCount engines.length⟩ :=
      ⟨fun w hw => ⟨w, hw, .refl w⟩, fun _ hx => absurd hx List.not_mem_nil,
        fun _ hx => absurd hx List.not_mem_nil, fun _ hx => by cases hx⟩
    cases hplay : Timeline.play cancelAt (startWorkers b id circuit budget engines).1 []
        (⟨id, (startWorkers b id circuit budget engines).2, [], .ofCount engines.length⟩ : Race) with
    | none =>
      rw [Timeline.complete_endless hplay] at h
      cases h
    | some record =>
      rw [Timeline.complete_going hplay] at h
      revert hfair h
      refine Timeline.play_induct ?_ ?_ ?_ hplay
      · intro b seen r b' events o hadvance hfair h
        cases h
        exact hfair.advance hadvance
      · intro b seen r b' events r' _ _ _ h
        cases h
      · intro b seen r b' events r' t record hadvance _ ih hfair h
        exact ih (hfair.advance hadvance) h

end Race

namespace Worker

/-- **An engine gives one result, and only an output decides.** Whatever the tool does on the call
of an engine, and whenever the owner is cancelled, the engine comes back when its call does, with
the result that `Judged` describes: its own name and a time; the verdict of the output if there is
one; a timeout of exactly the budget if the call failed after the engine's own deadline and before
its owner was cancelled; and otherwise nothing that would decide anything. No race comes to a
conclusive outcome but through the output of one of its calls. -/
theorem run_judged (b : Bench) (id circuit : Text) (budget : Duration) (e : Engine)
    (cancelAt : Option Instant)
    (h : cancelAt.isSome = true ∨ 0 < budget ∨
      (b.tool b.invoked b.files (.engine id (b.absolute circuit) e)).length.isSome = true) :
    (∃ ending result,
      (Call.run b budget (.engine id (b.absolute circuit) e) cancelAt).result = some ending ∧
      (run b id circuit budget e cancelAt).result = some result ∧
      (run b id circuit budget e cancelAt).bench.now =
        (Call.run b budget (.engine id (b.absolute circuit) e) cancelAt).bench.now ∧
      Judged e b.now budget (run b id circuit budget e cancelAt).bench.now
        ((run b id circuit budget e cancelAt).bench.passed cancelAt) ending result) ∧
    ∀ engines outcome, (Race.run b id circuit budget engines cancelAt).result = some outcome →
      Race.Earned (Race.startWorkers b id circuit budget engines).2 outcome := by
  refine ⟨?_, fun engines outcome => Race.earned_run⟩
  have hplay := (Call.run_eq b budget (.engine id (b.absolute circuit) e) cancelAt).1
  have hreturns := Call.run_isSome h
  obtain ⟨ending, hending⟩ := Option.isSome_iff_exists.mp hreturns
  obtain ⟨own, hown, -, hnow, hresult⟩ :=
    play_judged hplay (start b id circuit budget e).2 (start b id circuit budget e).1 rfl rfl
  have hrun : run b id circuit budget e cancelAt = own := Timeline.complete_going hown
  rw [hrun]
  refine ⟨ending, _, hending, hresult.trans (by rw [hending]; rfl), hnow, ?_⟩
  rw [show own.bench.passed cancelAt =
    (Call.run b budget (.engine id (b.absolute circuit) e) cancelAt).bench.passed cancelAt by
      simp only [Bench.passed, hnow], hnow]
  exact judged_start b id circuit budget e _ _ ending

/-- A tool that works on for ever, and takes a while to give up when it is told to stop. -/
def tardyBench : Bench where
  now := 0
  files := default
  tool := fun _ _ _ =>
    { lines := [], length := none, ending := .stopped, halted := fun _ => Course.giveUp 80 }
  randomEnding := fun _ => []

/-- The engine's time is up at 100, its owner is cancelled at 150, and the call comes back at 180: by
then it is too late for a timeout. -/
theorem run_judged_tardy : (0 : Duration) < 100 ∧
    (run tardyBench [] [] 100 .pdr (some 150)).result = some ⟨.unknown, .pdr, some 180⟩ ∧
    Judged .pdr 0 100 180 true .stopped ⟨.unknown, .pdr, some 180⟩ := by
  have hplay : ∃ record, Timeline.play (some 150) (start tardyBench [] [] 100 .pdr).1 []
      (start tardyBench [] [] 100 .pdr).2 = some record ∧
      record.result = some ⟨.unknown, .pdr, some 180⟩ ∧ record.bench.now = 180 :=
    ⟨_, (Timeline.play_going [] rfl rfl).trans ((Timeline.play_going _ rfl rfl).trans
      ((Timeline.play_going _ rfl rfl).trans (Timeline.play_ended _ rfl))), rfl, rfl⟩
  have hcall : ∃ record, Timeline.play (some 150) (start tardyBench [] [] 100 .pdr).1 []
      (start tardyBench [] [] 100 .pdr).2.call = some record ∧ record.result = some .stopped :=
    ⟨_, (Timeline.play_going [] rfl rfl).trans ((Timeline.play_going _ rfl rfl).trans
      ((Timeline.play_going _ rfl rfl).trans (Timeline.play_ended _ rfl))), rfl⟩
  obtain ⟨record, hplay, hresult, hnow⟩ := hplay
  obtain ⟨record', hcall, hstopped⟩ := hcall
  have hrun : run tardyBench [] [] 100 .pdr (some 150) = record := Timeline.complete_going hplay
  have hended : Call.run tardyBench 100 (.engine [] (tardyBench.absolute []) .pdr) (some 150) =
      record' := Timeline.complete_going hcall
  obtain ⟨⟨ending, result, hending, hown, -, hjudged⟩, -⟩ :=
    run_judged tardyBench [] [] 100 .pdr (some 150) (.inr (.inl (by decide)))
  rw [hended, hstopped] at hending
  rw [hrun] at hown hjudged ⊢
  rw [hresult] at hown
  cases hending
  cases hown
  have hpassed : record.bench.passed (some 150) = true := by
    rw [Bench.passed, hnow]
    rfl
  rw [hpassed, hnow] at hjudged
  exact ⟨by decide, hresult, hjudged⟩

end Worker
end Regatta
