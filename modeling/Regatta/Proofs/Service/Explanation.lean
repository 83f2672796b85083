import Regatta.Proofs.Service.Life
import Regatta.Proofs.Store.Reading

/-! Why a run has the verdict it has.

The results that are kept for a run account for its verdict (`Run.ExplainedBy`): the last of them
decided the race, or none did although every engine was heard, or there was no race.
`completed_explained` says so of every run that ends completed, as what is read back from the store
shows it. -/
namespace Regatta

/-- The results that were read back account for the verdict of the run. -/
structure Run.ExplainedBy (run : Run) (records : List ResultRecord) : Prop where
  numbered : records.map (·.seq) = (List.range records.length).map fun i : Nat => (i : Int)
  conclusive : run.verdict.conclusive = true → ∃ before last, records = before ++ [last] ∧
    last.verdict = run.verdict ∧ last.engine = run.engine ∧
    last.elapsedMillis = run.elapsedMillis ∧ ∀ r ∈ before, r.verdict.conclusive = false
  unknown : run.verdict = .unknown → ∃ engines, run.engines = some engines ∧ engines.Nodup ∧
    records.length = engines.length ∧ (records.map (·.engine)).Perm engines ∧
    ∀ r ∈ records, r.verdict.conclusive = false
  failed : run.verdict = .fail → records = []

theorem RunRow.ExplainedBy.carry {engines : List Engine} {seen : List EngineResult} {row : RunRow}
    (h : row.ExplainedBy engines seen) (hcompleted : row.standing = .completed)
    (hnodup : engines.Nodup) (hall : ∀ e ∈ engines, e ∈ Engine.all) {run : Run}
    (hverdict : run.verdict = row.answer) (hengines : run.engines = some engines)
    (hengine : Engine.ofText row.engine = .ok run.engine)
    (helapsed : run.elapsedMillis = row.elapsedMillis) {records : List ResultRecord}
    (hseq : records.map (·.seq) = (List.range seen.length).map fun i : Nat => (i : Int))
    (htold : records.map ResultRecord.told = seen.map EngineResult.told) :
    run.ExplainedBy records := by
  have hlength : records.length = seen.length := by
    simpa using congrArg List.length htold
  -- what holds of the verdicts of some results holds of their records
  have hverdicts : ∀ {rs : List ResultRecord} {ss : List EngineResult},
      rs.map ResultRecord.told = ss.map EngineResult.told →
      (∀ r ∈ ss, r.verdict.conclusive = false) → ∀ r ∈ rs, r.verdict.conclusive = false := by
    intro rs ss heq hss r hr
    have hmem : r.told ∈ ss.map EngineResult.told := heq ▸ List.mem_map_of_mem hr
    obtain ⟨x, hx, htoldx⟩ := List.mem_map.mp hmem
    have hv : x.verdict = r.verdict := congrArg (·.2.1) htoldx
    exact hv ▸ hss x hx
  refine ⟨by rw [hlength, hseq], fun hc => ?_, fun hu => ?_, fun hf => ?_⟩
  · rw [hverdict] at hc
    obtain ⟨before, last, rfl, hlast, hname, htime, hbefore⟩ := h.conclusive hcompleted hc
    rw [List.map_append, List.map_eq_append_iff] at htold
    obtain ⟨rs, tail, rfl, hrs, htail⟩ := htold
    obtain ⟨rl, rfl, hrl⟩ : ∃ rl, tail = [rl] ∧ rl.told = last.told := by
      rw [List.map_singleton, List.map_eq_singleton_iff] at htail
      exact htail
    have hread : Engine.ofText last.engine.name = .ok last.engine :=
      Engine.ofText_name (.inr (hall _ ((h.reporters hcompleted).2 last (by simp))))
    rw [hname, hengine] at hread
    refine ⟨rs, rl, rfl, ?_, ?_, ?_, hverdicts hrs hbefore⟩
    · rw [hverdict, ← hlast]
      exact congrArg (·.2.1) hrl
    · rw [show rl.engine = last.engine from congrArg (·.1) hrl]
      exact (Except.ok.inj hread).symm
    · rw [helapsed, ← htime]
      exact congrArg (·.2.2) hrl
  · rw [hverdict] at hu
    obtain ⟨hperm, hnone⟩ := h.unknown hcompleted hu
    have hnames : records.map (·.engine) = seen.map (·.engine) := by
      simpa [Function.comp_def, ResultRecord.told, EngineResult.told] using
        congrArg (List.map (·.1)) htold
    refine ⟨engines, hengines, hnodup, ?_, hnames ▸ hperm, hverdicts htold hnone⟩
    rw [hlength]
    simpa using hperm.length_eq
  · rw [hverdict] at hf
    rw [h.failed hcompleted hf] at hlength
    exact List.eq_nil_of_length_eq_zero hlength

namespace Runner

theorem Sound.ended {c : Premises} {r₀ r : Runner} {hist : Text → List Status}
    {seen : Text → List EngineResult} (h : Sound c r₀ hist seen r) {id : Text}
    (hnew : r₀.desk.ledger.store.row? id = none) {row : RunRow}
    (hrow : r.desk.ledger.store.row? id = some row) (hterminal : row.standing.terminal = true) :
    ∃ names engines, Engine.parseList names = .ok engines ∧ row.Legible c.shows engines ∧
      Filed c id (r.desk.ledger.store.resultsOf id) (seen id) ∧ row.Ended ∧
      row.ExplainedBy engines (seen id) := by
  by_cases hjob : ∃ j ∈ r.jobs, j.id = id
  · obtain ⟨j, hj, rfl⟩ := hjob
    obtain ⟨engines, row', hkept, -⟩ := h.jobs j hj
    obtain ⟨names, hnames⟩ := hkept.filing.parsed
    rw [hkept.filing.recorded] at hrow
    cases hrow
    exact ⟨names, engines, hnames, hkept.filing.legible, hkept.filing.filed, hkept.ended hterminal⟩
  · cases h.others id hnew fun j hj heq => hjob ⟨j, hj, heq⟩ with
    | unrecorded hnone =>
      rw [hnone] at hrow
      cases hrow
    | @archived engines row' harchived =>
      obtain ⟨names, hnames⟩ := harchived.parsed
      rw [harchived.recorded] at hrow
      cases hrow
      exact ⟨names, engines, hnames, harchived.legible, harchived.filed, harchived.ended,
        harchived.explained⟩

/-- **The results of a completed run explain its verdict.** The run and its results can be read
back, the results are those that were reported, in that order, and they account for the verdict. -/
theorem completed_explained {r₀ : Runner} (hfresh : r₀.Fresh) (hnow : Stamp.Writable r₀.now)
    {events : List Event} (hproper : ∀ e ∈ events, e.Proper Stamp.Writable) {id : Text}
    (hnew : r₀.status? id = none) (hempty : r₀.desk.ledger.store.resultsOf id = [])
    (hcompleted : (r₀.run events).status? id = some .completed) :
    ∃ run records, (r₀.run events).desk.ledger.getRun id = .ok run ∧
      (r₀.run events).desk.ledger.getResults id = .ok records ∧
      run.status = .completed ∧
      run.verdict ∈ [Verdict.sat, Verdict.unsat, Verdict.unknown, Verdict.fail] ∧
      run.ExplainedBy records ∧
      records.map ResultRecord.told = (r₀.reported id events).map EngineResult.told := by
  have hsound := (hfresh.sound (P := Stamp.Writable) hnow).run hproper
  simp only [List.nil_append] at hsound
  obtain ⟨row, hrow, hstanding⟩ := Option.map_eq_some_iff.mp hcompleted
  obtain ⟨names, engines, hnames, hlegible, hfiled, hended, hexplained⟩ :=
    hsound.ended (by simpa [status?] using hnew) hrow (by rw [hstanding]; rfl)
  obtain ⟨hnodup, hall⟩ := Engine.parseList_ok hnames
  obtain ⟨hlength, hreporters⟩ := hexplained.reporters hstanding
  have hfive := Engine.length_le_of_parseList hnames
  have hfew : (r₀.reported id events).length ≤ 2147483648 := by omega
  obtain ⟨run, hdecode, hstatus, hengines, hverdict, hengine, helapsed⟩ :=
    Store.decode_legible hlegible hnames "get run"
  obtain ⟨records, hread, hseq, htold⟩ := hfiled.read hempty (fun _ ht => ht)
    fun r hr => hall _ (hreporters r hr)
  refine ⟨run, records, ?_, ?_, hstatus.trans hstanding, ?_, ?_, htold⟩
  · rw [hsound.willing.getRun hrow, hdecode]
  · rw [hsound.willing.getResults, hfiled.sorted hempty hfew, hread]
  · rw [hverdict]
    exact hended.verdict hstanding
  · exact hexplained.carry hstanding hnodup hall hverdict hengines hengine helapsed
      (hseq.trans (hfiled.seq hempty hfew)) htold

theorem completed_explained_duo :
    (duoRunner.run duoEvents).status? "first" = some .completed ∧
      ∃ run records, (duoRunner.run duoEvents).desk.ledger.getRun "first" = .ok run ∧
        (duoRunner.run duoEvents).desk.ledger.getResults "first" = .ok records ∧
        run.ExplainedBy records ∧
        records.map ResultRecord.told =
          [(.sim, .unknown, some 10), (.bmc, .sat, some 30)] := by
  have hproper : ∀ e ∈ duoEvents, e.Proper Stamp.Writable := by
    have htimes : Stamp.Writable 10000000 ∧ Stamp.Writable 30000000 := by decide
    simp [duoEvents, Event.Proper, duoRequest_parsed, htimes]
  have hcompleted : (duoRunner.run duoEvents).status? "first" = some .completed := by
    decide +kernel
  obtain ⟨run, records, hrun, hrecords, -, -, hexplained, htold⟩ :=
    completed_explained duoRunner_fresh (by decide) hproper rfl rfl hcompleted
  refine ⟨hcompleted, run, records, hrun, hrecords, hexplained, htold.trans ?_⟩
  decide +kernel

end Runner
end Regatta
