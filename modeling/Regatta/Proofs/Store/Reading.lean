import Regatta.Proofs.Service.Record
import Regatta.Proofs.Store.Stamp

/-! What is read back from the store is what was kept.

Engines are kept by name, lists of engines as names with commas between them, and times as stamps.
A legible record and the results that are filed beside it are read back whole
(`decode_legible`, `Filed.read`). -/
namespace Regatta

/-! ### Records -/

/-- The store gives the time back as it was kept. -/
def Stamp.Restored (t : Instant) : Prop := Stamp.toInstant? (Stamp.ofInstant t) = some t

theorem Stamp.Writable.restored {t : Instant} (h : Writable t) : Restored t := toInstant?_ofInstant h

namespace Store

variable {engines : List Engine} {row : RunRow} {t : Instant}

theorem time_restored (h : Stamp.Restored t) (place column : Text) :
    time place column (Stamp.ofInstant t) = .ok t := by
  unfold time
  rw [h]

theorem time_ofInstant (h : Stamp.Writable t) (place column : Text) :
    time place column (Stamp.ofInstant t) = .ok t :=
  time_restored h.restored place column

theorem time?_legible {stamp : Option Text}
    (h : ∀ s, stamp = some s → ∃ t, Stamp.Writable t ∧ s = Stamp.ofInstant t)
    (place column : Text) : ∃ t, time? place column stamp = .ok t := by
  cases stamp with
  | none => exact ⟨none, rfl⟩
  | some s =>
    obtain ⟨t, ht, rfl⟩ := h s rfl
    refine ⟨some t, ?_⟩
    show some <$> time place column (Stamp.ofInstant t) = _
    rw [time_ofInstant ht]
    rfl

theorem decode_columns {place : Text} {created : Instant}
    {started finished : Option Instant} {engine : Engine}
    (hcreated : time place "created_at" row.createdAt = .ok created)
    (hstarted : time? place "started_at" row.startedAt = .ok started)
    (hfinished : time? place "finished_at" row.finishedAt = .ok finished)
    (hengines : splitEngines row.engines = .ok engines)
    (hengine : Engine.ofText row.engine = .ok engine) :
    decode place row = .ok ⟨row.id, ⟨row.status⟩, row.dataset, some engines, row.timeoutSeconds,
      row.inputs, row.latches, row.ands, ⟨row.verdict⟩, engine, row.elapsedMillis, row.error, created,
      started, finished⟩ := by
  unfold decode
  rw [hcreated, hstarted, hfinished, hengines, hengine]
  rfl

theorem decode_legible {names : List Text}
    (h : row.Legible Stamp.Writable engines) (hparsed : Engine.parseList names = .ok engines)
    (place : Text) : ∃ run, decode place row = .ok run ∧ run.status = row.standing ∧
      run.engines = some engines ∧ run.verdict = row.answer ∧
      Engine.ofText row.engine = .ok run.engine ∧ run.elapsedMillis = row.elapsedMillis := by
  obtain ⟨created, hcreated, hcreatedAt⟩ := h.created
  obtain ⟨started, hstarted⟩ := time?_legible h.started place "started_at"
  obtain ⟨finished, hfinished⟩ := time?_legible h.finished place "finished_at"
  obtain ⟨e, hname, he⟩ := h.engine
  have hengine : Engine.ofText row.engine = .ok e := by
    rw [hname]
    exact Engine.ofText_name (he.imp_right ((Engine.parseList_ok hparsed).2 e))
  have hengines : splitEngines row.engines = .ok engines := by
    rw [h.listed]
    exact Engine.splitEngines_joinEngines hparsed
  have htime := time_ofInstant hcreated place "created_at"
  rw [← hcreatedAt] at htime
  exact ⟨_, decode_columns htime hstarted hfinished hengines hengine, rfl, rfl, rfl, hengine, rfl⟩

theorem decodeResult_resultRow (ht : Stamp.Writable t) {r : EngineResult}
    (hr : r.engine = .none ∨ r.engine ∈ Engine.all) (run : Text) (seq : Int) :
    decodeResult (Ledger.resultRow t run seq r) =
      .ok ⟨run, seq, r.engine, r.verdict, r.elapsed.map millis, t⟩ := by
  unfold decodeResult Ledger.resultRow
  dsimp only
  rw [Engine.ofText_name hr, time_ofInstant ht]
  rfl

theorem getResults_eq {s : Store} (h : s.isOpen = true) (run : Text) : s.getResults run =
    ((s.resultsOf run).mergeSort fun a b => a.seq ≤ b.seq).mapM decodeResult := by
  rw [getResults, need_of_open h]
  rfl

end Store

/-! ### Results -/

/-- What a record tells of a result. -/
def ResultRecord.told (r : ResultRecord) : Engine × Verdict × Option Int :=
  (r.engine, r.verdict, r.elapsedMillis)

def EngineResult.told (r : EngineResult) : Engine × Verdict × Option Int :=
  (r.engine, r.verdict, r.elapsed.map Store.millis)

namespace Filed

variable {c : Premises} {run : Text} {rows : List ResultRow} {seen : List EngineResult}

theorem seq (h : Filed c run rows seen) (hearlier : c.earlier run = [])
    (hfew : seen.length ≤ 2147483648) :
    rows.map (·.seq) = (List.range seen.length).map fun i : Nat => (i : Int) := by
  induction h with
  | nil => simp [hearlier]
  | @concat rows seen _ t _ r ih =>
    rw [List.length_append, List.length_singleton] at hfew
    have hlast : (Int32.ofNat seen.length).toInt = seen.length := Int32.toInt_ofNat_of_lt (by omega)
    simp [ih (by omega), List.range_succ, Ledger.resultRow, hlast]

theorem sorted (h : Filed c run rows seen) (hearlier : c.earlier run = [])
    (hfew : seen.length ≤ 2147483648) :
    rows.mergeSort (fun a b => a.seq ≤ b.seq) = rows := by
  have hpairwise : (rows.map (·.seq)).Pairwise (· ≤ ·) := by
    rw [h.seq hearlier hfew, List.pairwise_map]
    exact List.pairwise_lt_range.imp fun hlt => Int.ofNat_le.mpr (Nat.le_of_lt hlt)
  refine List.mergeSort_of_pairwise ?_
  simpa [List.pairwise_map] using hpairwise

theorem read (h : Filed c run rows seen) (hearlier : c.earlier run = [])
    (htimes : ∀ t, c.shows t → Stamp.Writable t) (hengines : ∀ r ∈ seen, r.engine ∈ Engine.all) :
    ∃ records, rows.mapM Store.decodeResult = .ok records ∧
      records.map (·.seq) = rows.map (·.seq) ∧
      records.map ResultRecord.told = seen.map EngineResult.told := by
  induction h with
  | nil =>
    rw [hearlier]
    exact ⟨[], rfl, rfl, rfl⟩
  | @concat rows seen _ t ht r ih =>
    obtain ⟨records, hread, hseq, htold⟩ := ih fun x hx => hengines x (List.mem_append_left _ hx)
    have hlast := Store.decodeResult_resultRow (htimes t ht) (.inr (hengines r (by simp))) run
      (Int32.ofNat seen.length).toInt
    refine ⟨records ++ [⟨run, (Int32.ofNat seen.length).toInt, r.engine, r.verdict,
      r.elapsed.map Store.millis, t⟩], ?_, ?_, ?_⟩
    · rw [List.mapM_append, hread, List.mapM_cons, hlast]
      rfl
    · simp [hseq, Ledger.resultRow]
    · simp [htold, ResultRecord.told, EngineResult.told]

end Filed

/-! ### Reading from a store that works -/

namespace Ledger.Willing

theorem getRun {l : Ledger} (h : l.Willing) {id : Text} {row : RunRow}
    (hrow : l.store.row? id = some row) : l.getRun id = Store.decode "get run" row := by
  unfold Ledger.getRun
  rw [h.attempt, Store.getRun, h.need, hrow]
  rfl

theorem getResults {l : Ledger} (h : l.Willing) (id : Text) : l.getResults id =
    ((l.store.resultsOf id).mergeSort fun a b => a.seq ≤ b.seq).mapM Store.decodeResult := by
  rw [Ledger.getResults, h.attempt, Store.getResults_eq h.isOpen]

end Ledger.Willing

end Regatta
