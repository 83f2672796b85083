import Regatta.Proofs.Engine
import Regatta.Proofs.Status
import Regatta.Proofs.Store.Rows
import Regatta.Proofs.Verification
import Regatta.Service.Job

/-! The record of a run: what it holds in the end, and how the results that are kept beside it
account for its verdict.

The record that ends a run is complete (`RunRow.Ended`): a run that failed or was cancelled says why
and shows no answer, and a completed one shows the answer that its results lead to
(`RunRow.ExplainedBy`). -/
namespace Regatta

theorem exists_split {α : Type} {l : List α} {i : Nat} {x : α} (h : l[i]? = some x) :
    ∃ before after, l = before ++ x :: after ∧ before.length = i := by
  obtain ⟨hi, rfl⟩ := List.getElem?_eq_some_iff.mp h
  refine ⟨l.take i, l.drop (i + 1), ?_, List.length_take_of_le (Nat.le_of_lt hi)⟩
  rw [List.getElem_cons_drop, List.take_append_drop]

/-! ### What a record says -/

namespace RunRow

def answer (row : RunRow) : Verdict := ⟨row.verdict⟩

/-- How the record of a run may change from one moment to the next. -/
structure Follows (row row' : RunRow) : Prop where
  status : row'.standing = row.standing ∨ row.standing.allows row'.standing = true
  started : row'.startedAt.isSome = true ↔
    row.startedAt.isSome = true ∨ row'.standing = .running

/-- A run has shown these statuses and left this record. -/
structure Shown (hist : List Status) (row : RunRow) : Prop where
  passes : Status.Passes hist row.standing
  started : row.startedAt.isSome = true ↔ Status.running ∈ hist

variable {hist : List Status} {row' : RunRow}

theorem Shown.follows {row : RunRow} (h : Shown hist row)
    (hf : row.Follows row') : Shown (hist ++ [row'.standing]) row' where
  passes := by
    rcases hf.status with heq | hmove
    · rw [heq]
      exact h.passes.stays
    · exact h.passes.moves hmove
  started := by
    rw [hf.started, h.started, List.mem_append, List.mem_singleton]
    exact or_congr_right eq_comm

theorem Shown.stays {row : RunRow} (h : Shown hist row) :
    Shown (hist ++ [row.standing]) row where
  passes := h.passes.stays
  started := by
    rw [h.started, List.mem_append, List.mem_singleton]
    refine ⟨.inl, fun hor => hor.elim (fun h => h) fun heq => ?_⟩
    have hmem := h.passes.mem
    rwa [← heq] at hmem

theorem Shown.next {row : RunRow} (h : Shown hist row)
    (hf : row' = row ∨ row.Follows row') : Shown (hist ++ [row'.standing]) row' := by
  rcases hf with rfl | hf
  · exact h.stays
  · exact h.follows hf

structure Ended (row : RunRow) : Prop where
  terminal : row.standing.terminal = true
  finished : row.finishedAt.isSome = true
  error : row.error = [] ↔ row.standing = .completed
  unanswered : row.standing ≠ .completed →
    row.verdict = [] ∧ row.engine = [] ∧ row.elapsedMillis = none
  verdict : row.standing = .completed →
    row.answer ∈ [Verdict.sat, Verdict.unsat, Verdict.unknown, Verdict.fail]
  engine : row.standing = .completed → (row.engine ≠ [] ↔ row.answer.conclusive = true)
  elapsed : row.standing = .completed →
    (row.elapsedMillis.isSome = true ↔ row.answer.conclusive = true)

/-- The results that were looked at account for the verdict of a completed run. -/
structure ExplainedBy (engines : List Engine) (seen : List EngineResult) (row : RunRow) : Prop where
  conclusive : row.standing = .completed → row.answer.conclusive = true →
    ∃ before last, seen = before ++ [last] ∧ last.verdict = row.answer ∧
      last.engine.name = row.engine ∧ last.elapsed.map Store.millis = row.elapsedMillis ∧
      ∀ r ∈ before, r.verdict.conclusive = false
  unknown : row.standing = .completed → row.answer = .unknown →
    (seen.map (·.engine)).Perm engines ∧ ∀ r ∈ seen, r.verdict.conclusive = false
  failed : row.standing = .completed → row.answer = .fail → seen = []
  reporters : row.standing = .completed →
    seen.length ≤ engines.length ∧ ∀ r ∈ seen, r.engine ∈ engines

/-- What is kept as text in a record was written from engines asked for and from times that `P`
allows. -/
structure Legible (P : Instant → Prop) (engines : List Engine) (row : RunRow) : Prop where
  listed : row.engines = Store.joinEngines engines
  engine : ∃ e : Engine, row.engine = e.name ∧ (e = .none ∨ e ∈ engines)
  created : ∃ t, P t ∧ row.createdAt = Stamp.ofInstant t
  started : ∀ s, row.startedAt = some s → ∃ t, P t ∧ s = Stamp.ofInstant t
  finished : ∀ s, row.finishedAt = some s → ∃ t, P t ∧ s = Stamp.ofInstant t

end RunRow

/-- What the records of new runs rest on: the times that the clock shows, and the results that were
kept under an id before. -/
structure Premises where
  shows : Instant → Prop
  earlier : Text → List ResultRow

/-- The rows kept for a run: these results, numbered as they came, after what was there before. -/
inductive Filed (c : Premises) (run : Text) : List ResultRow → List EngineResult → Prop
  | nil : Filed c run (c.earlier run) []
  | concat {rows : List ResultRow} {seen : List EngineResult} (h : Filed c run rows seen)
    {t : Instant} (ht : c.shows t) (r : EngineResult) :
    Filed c run (rows ++ [Ledger.resultRow t run (Int32.ofNat seen.length).toInt r]) (seen ++ [r])

/-! ### The record that ends a run -/

variable {engines : List Engine} {r : EngineResult} {seen : List EngineResult} (f : Fault)

theorem Stage.Fault.message_ne_nil : f.message ≠ [] := by
  cases f with
  | nameMissing => decide
  | _ =>
    simp only [Stage.Fault.message, ne_eq, List.append_eq_nil_iff, not_and, and_imp]
    exact fun h => absurd h (by decide)

theorem Verification.Fault.message_ne_nil : f.message ≠ [] := by
  cases f with
  | stage f => exact f.message_ne_nil
  | cancelled => decide
  | _ =>
    simp only [Verification.Fault.message, ne_eq, List.append_eq_nil_iff, not_and, and_imp]
    exact fun h => absurd h (by decide)

/-- What an answer is like: an engine and an elapsed time belong to a conclusive verdict. -/
structure EngineResult.Presentable (r : EngineResult) : Prop where
  verdict : r.verdict ∈ [Verdict.sat, Verdict.unsat, Verdict.unknown, Verdict.fail]
  engine : r.engine.name ≠ [] ↔ r.verdict.conclusive = true
  elapsed : r.elapsed.isSome = true ↔ r.verdict.conclusive = true

theorem Race.Settles.presentable
    (h : Settles engines seen r) (hall : ∀ e ∈ engines, e ∈ Engine.all) :
    r.Presentable := by
  rcases h.cases with ⟨hv, he, ht, -⟩ | ⟨rfl, -⟩
  · refine ⟨?_, by simp [hv, Engine.name_ne_nil (hall _ he)], by simp [hv, ht]⟩
    simp only [Verdict.conclusive, Bool.or_eq_true, decide_eq_true_eq] at hv
    rcases hv with hv | hv <;> simp [hv]
  · exact ⟨by decide, by decide, by decide⟩

theorem Verification.Outcome.Follows.presentable (h : Follows engines seen (.answer r none))
    (hall : ∀ e ∈ engines, e ∈ Engine.all) : r.Presentable := by
  rcases h with ⟨rfl, -⟩ | hsettles
  · exact ⟨by decide, by decide, by decide⟩
  · exact hsettles.presentable hall

namespace Job

variable (j : Job) (now : Instant) (row : RunRow)

theorem closing_status (status : Status) (error : Text) :
    (j.closing now status error).status = status := by
  unfold closing
  split <;> rfl

theorem closing_id (status : Status) (error : Text) :
    (j.closing now status error).id = j.id := by
  unfold closing
  dsimp only
  split <;> rfl

theorem standing_closing (status : Status) (error : Text) :
    (Store.overwrite (j.closing now status error) row).standing = status :=
  j.closing_status now status error

variable {status : Status}

/-- Only a completed run keeps an answer. -/
theorem closing_of_ne (hother : status ≠ .completed) (error : Text) :
    j.closing now status error = { j.run with
      status, error, finishedAt := some now, verdict := .absent, engine := .none
      elapsedMillis := none } := by
  unfold closing
  rw [if_neg (by simpa using hother)]

theorem ended_unanswered (hstatus : status = .failed ∨ status = .cancelled)
    {error : Text} (herror : error ≠ []) :
    (Store.overwrite (j.closing now status error) row).Ended := by
  have hother : status ≠ .completed := by
    rcases hstatus with rfl | rfl <;> decide
  rw [closing_of_ne j now hother]
  refine ⟨?_, rfl, ⟨fun h => absurd h herror, fun h => absurd h hother⟩,
    fun _ => ⟨rfl, rfl, rfl⟩, fun h => absurd h hother, fun h => absurd h hother,
    fun h => absurd h hother⟩
  rcases hstatus with rfl | rfl <;> rfl

theorem explained_unanswered (hstatus : status = .failed ∨ status = .cancelled)
    (error : Text) (engines : List Engine) (seen : List EngineResult) :
    (Store.overwrite (j.closing now status error) row).ExplainedBy engines seen := by
  have hother : (Store.overwrite (j.closing now status error) row).standing ≠ .completed := by
    rw [standing_closing]
    rcases hstatus with rfl | rfl <;> decide
  exact ⟨fun h => absurd h hother, fun h => absurd h hother, fun h => absurd h hother,
    fun h => absurd h hother⟩

theorem answer_answered (r : EngineResult) (error : Text) :
    (Store.overwrite ((j.answered r).closing now .completed error) row).answer = r.verdict := rfl

variable {engines : List Engine} {r : EngineResult}

theorem ended_answered (h : r.Presentable) :
    (Store.overwrite ((j.answered r).closing now .completed []) row).Ended where
  terminal := rfl
  finished := rfl
  error := ⟨fun _ => rfl, fun _ => rfl⟩
  unanswered hother := absurd rfl hother
  verdict _ := h.verdict
  engine _ := h.engine
  elapsed _ := by
    rw [answer_answered, ← h.elapsed]
    show (r.elapsed.map Store.millis).isSome = true ↔ _
    rw [Option.isSome_map]

theorem explained_answered {seen : List EngineResult}
    (h : Verification.Outcome.Follows engines seen (.answer r none)) :
    (Store.overwrite ((j.answered r).closing now .completed []) row).ExplainedBy engines seen := by
  have hanswer := j.answer_answered now row r []
  rcases h with ⟨rfl, rfl⟩ | h
  · refine ⟨fun _ hc => ?_, fun _ hc => ?_, fun _ _ => rfl, fun _ => by simp⟩ <;>
      rw [hanswer] at hc <;> exact absurd hc (by decide)
  · have hreporters := h.reporters
    rcases h.cases with ⟨hv, -, -, before, hseen, hbefore⟩ | ⟨rfl, hperm, hnone⟩
    · refine ⟨fun _ _ => ⟨before, r, hseen, rfl, rfl, rfl, hbefore⟩, fun _ hc => ?_,
        fun _ hc => ?_, fun _ => hreporters⟩ <;>
        rw [← hanswer, hc] at hv <;> exact absurd hv (by decide)
    · refine ⟨fun _ hc => ?_, fun _ _ => ⟨hperm, hnone⟩, fun _ hc => ?_, fun _ => hreporters⟩ <;>
        rw [hanswer] at hc <;> exact absurd hc (by decide)

theorem started_closing (status : Status) (error : Text) :
    (Store.overwrite (j.closing now status error) row).startedAt =
      j.run.startedAt.map Stamp.ofInstant := by
  unfold closing
  dsimp only
  split <;> rfl

theorem follows_closing {row : RunRow} {error : Text}
    (hallows : row.standing.allows status = true) (hended : status ≠ .running)
    (hstarted : row.startedAt.isSome = j.run.startedAt.isSome) :
    row.Follows (Store.overwrite (j.closing now status error) row) where
  status := by
    rw [standing_closing]
    exact .inr hallows
  started := by
    rw [started_closing, standing_closing, Option.isSome_map, hstarted, or_iff_left hended]

theorem legible_closing {P : Instant → Prop} {row : RunRow}
    {error : Text} (h : row.Legible P engines) (hnow : P now)
    (hstarted : ∀ t, j.run.startedAt = some t → P t)
    (hengine : status = .completed → j.run.engine = .none ∨ j.run.engine ∈ engines) :
    (Store.overwrite (j.closing now status error) row).Legible P engines := by
  have hfields : (j.closing now status error).finishedAt = some now ∧
      ((j.closing now status error).engine = .none ∨
        (j.closing now status error).engine ∈ engines) := by
    unfold closing
    dsimp only
    split
    · rename_i hs
      exact ⟨rfl, hengine (by simpa using hs)⟩
    · exact ⟨rfl, .inl rfl⟩
  obtain ⟨hf, he⟩ := hfields
  refine ⟨h.listed, ⟨_, rfl, he⟩, h.created, fun s hrow => ?_, fun s hrow => ?_⟩
  · rw [started_closing, Option.map_eq_some_iff] at hrow
    obtain ⟨t, ht, rfl⟩ := hrow
    exact ⟨t, hstarted t ht, rfl⟩
  · have hmap : (j.closing now status error).finishedAt.map Stamp.ofInstant = some s := hrow
    rw [hf] at hmap
    cases hmap
    exact ⟨now, hnow, rfl⟩

end Job
end Regatta
