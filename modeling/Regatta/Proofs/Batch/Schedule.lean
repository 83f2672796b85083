import Regatta.Proofs.Batch.Shift
import Regatta.Proofs.Batch.Watch

/-! A batch is one of its schedules.

Each act of a batch is a few moves of a `Shift`: when a dataset is collected, its worker ends,
stores the row and frees the slot; when one is launched, the owner admits it and its worker begins.
`Joins` is what the two have in common. So what holds of every schedule holds of the batch. -/
namespace Regatta.Batch

open Shift

/-! ### Moves for acts -/

variable {p : Plan} {s : Shift}

theorem row_fst (dataset : Text) (x : Execution) : (row dataset x).1 = rowOf dataset x := by
  cases x <;> rfl

theorem next_work {i : Nat} {d : Text} (st st' : Stage) (hd : p.datasets[i]? = some d)
    (hst : s.stages[i]? = some st) (hst' : st.next? (p.answer d) = some st') :
    s.next p (.work i) = { s with stages := s.stages.set i st', rows := st.leave d i s.rows } := by
  have hwork := work?_eq_some.mpr ⟨d, st, st', hd, hst, hst', rfl⟩
  rw [Shift.next, Shift.step?, hwork, Option.getD_some]

theorem run_collect {i : Nat} {d : Text} (hd : p.datasets[i]? = some d)
    (hst : s.stages[i]? = some .executing) :
    s.run p [.work i, .work i, .work i] =
      { s with
        stages := s.stages.set i .released
        rows := s.rows.set i (rowOf d (p.answer d)) } := by
  have hlt : i < s.stages.length := (List.getElem?_eq_some_iff.mp hst).1
  let ended : Shift := { s with stages := s.stages.set i (.ended (p.answer d)) }
  let stored : Shift :=
    { s with
      stages := ended.stages.set i .stored
      rows := s.rows.set i (rowOf d (p.answer d)) }
  have hends : s.next p (.work i) = ended :=
    next_work .executing (.ended (p.answer d)) hd hst rfl
  have hstores : ended.next p (.work i) = stored :=
    next_work (.ended (p.answer d)) .stored hd (List.getElem?_set_self hlt) rfl
  have hfrees : stored.next p (.work i) = { stored with stages := stored.stages.set i .released } :=
    next_work .stored .released hd (List.getElem?_set_self (by rwa [List.length_set])) rfl
  simp only [Shift.run, hends, hstores, hfrees]
  simp only [stored, ended, List.set_set]

theorem run_launch {d : Text} (hplace : s.place = .launching) (hk : Kept p s)
    (hd : p.datasets[s.launched]? = some d) (hroom : Stage.total Stage.slots s.stages < p.limit) :
    s.run p [.admitNext, .work s.launched] =
      { s with
        stages := s.stages.set s.launched .executing
        launched := s.launched + 1 } := by
  have hlt : s.launched < p.datasets.length := (List.getElem?_eq_some_iff.mp hd).1
  let admitted : Shift :=
    { s with stages := s.stages.set s.launched .admitted, launched := s.launched + 1 }
  have hadmits : s.next p .admitNext = admitted := by
    simp [Shift.next, Shift.step?, Shift.admitNext?, hplace, hlt, hroom, admitted]
  have hbegins : admitted.next p (.work s.launched) =
      { admitted with stages := admitted.stages.set s.launched .executing } :=
    next_work .admitted .executing hd (List.getElem?_set_self (hk.count ▸ hlt)) rfl
  simp only [Shift.run, hadmits, hbegins]
  simp only [admitted, List.set_set]

theorem ofDatasets_waiting_getElem? (datasets : List Text) (i : Nat) :
    (ofDatasets datasets).waiting[i]? = datasets[i]?.map fun d => (i, d) := by
  simp [ofDatasets, List.getElem?_zipIdx, Option.map_map, Function.comp_def]

variable {κ : Type} {e : Executor κ}

/-- The batch and the shift stand at the same point, while datasets are admitted. -/
structure Joins (p : Plan) (h : e.Steady p.answer) (c : κ × Batch) (s : Shift) : Prop where
  kept : Kept p s
  place : s.place = .launching
  held : Held h c
  waiting : c.2.waiting = (ofDatasets p.datasets).waiting.drop s.launched
  running : ∀ x ∈ c.2.running, s.stages[x.1]? = some .executing ∧ p.datasets[x.1]? = some x.2.1
  rows : ∀ y ∈ c.2.rows, s.stages[y.1]? = some .released ∧ s.rows[y.1]? = some y.2
  /-- No dataset is in two places. -/
  positions : (c.2.running.map (·.1) ++ c.2.rows.map (·.1)).Perm (List.range s.launched)
  slots : Stage.total Stage.slots s.stages = c.2.running.length
  cancelled : s.cancelled = false

variable {h : e.Steady p.answer} {c c' : κ × Batch}

variable {rows : List (Nat × Row)} {waiting : List (Nat × Text)}

theorem Joins.collect {k : κ} {x : Nat × Text × Nat} {ended : Execution}
    {before after : List (Nat × Text × Nat)}
    (hj : Joins p h (k, ⟨waiting, before ++ x :: after, rows⟩) s)
    (hx : e.poll k x.2.2 = some ended) :
    Joins p h (e.note k (row x.2.1 ended).2.1 (row x.2.1 ended).2.2,
        ⟨waiting, before ++ after, rows ++ [(x.1, (row x.2.1 ended).1)]⟩)
      (s.run p [.work x.1, .work x.1, .work x.1]) := by
  have hmem : x ∈ before ++ x :: after := List.mem_append_right _ List.mem_cons_self
  obtain ⟨hst, hd⟩ := hj.running x hmem
  have hkept := run_induct Kept.step hj.kept [.work x.1, .work x.1, .work x.1]
  have hheld := hj.held.act (n := p.limit) h (.collect hx)
  have hrow := hj.kept.written x.1 x.2.1 _ hd hst
  have hslots := Stage.total_set (w := Stage.slots) hst .released
  have hout : ((before ++ x :: after).map (·.1) ++ rows.map (·.1)).Perm
      (x.1 :: ((before ++ after).map (·.1) ++ rows.map (·.1))) := by
    simp only [List.map_append, List.map_cons, List.append_assoc, List.cons_append]
    exact List.perm_middle
  have hpositions := hout.symm.trans hj.positions
  obtain ⟨hnew, _⟩ := List.nodup_cons.mp (hpositions.nodup_iff.mpr List.nodup_range)
  rw [h.answers (hj.held x hmem) hx] at hheld ⊢
  rw [run_collect hd hst] at hkept ⊢
  rw [row_fst] at hheld ⊢
  refine ⟨hkept, hj.place, hheld, hj.waiting, ?_, ?_, ?_, ?_, hj.cancelled⟩
  · intro z hz
    have hother : x.1 ≠ z.1 := fun hsame =>
      hnew (List.mem_append_left _ (hsame ▸ List.mem_map_of_mem hz))
    rw [List.getElem?_set_ne hother]
    refine hj.running z ?_
    rcases List.mem_append.mp hz with hbefore | hafter
    · exact List.mem_append_left _ hbefore
    · exact List.mem_append_right _ (List.mem_cons_of_mem _ hafter)
  · intro y hy
    simp only [getElem?_set_of_some hst, getElem?_set_of_some hrow]
    rcases List.mem_append.mp hy with hy | hy
    · have hother : x.1 ≠ y.1 := fun hsame =>
        hnew (List.mem_append_right _ (hsame ▸ List.mem_map_of_mem hy))
      rw [if_neg hother, if_neg hother]
      exact hj.rows y hy
    · rw [List.mem_singleton.mp hy]
      simp
  · have hlast : (rows ++ [(x.1, rowOf x.2.1 (p.answer x.2.1))]).map (·.1) =
        rows.map (·.1) ++ [x.1] := List.map_append
    rw [hlast, ← List.append_assoc]
    exact (List.perm_append_singleton _ _).trans hpositions
  · have hbefore := hj.slots
    simp only [List.length_append, List.length_cons, Stage.slots] at hbefore hslots ⊢
    omega

theorem Joins.launch {k : κ} {x : Nat × Text} {running : List (Nat × Text × Nat)}
    (hj : Joins p h (k, ⟨x :: waiting, running, rows⟩) s) (hroom : running.length < p.limit) :
    Joins p h (launch e (k, ⟨waiting, running, rows⟩) x)
      (s.run p [.admitNext, .work s.launched]) := by
  have hwaiting := hj.waiting
  have hfirst : (ofDatasets p.datasets).waiting[s.launched]? = some x := by
    rw [← Nat.add_zero s.launched, ← List.getElem?_drop, ← hwaiting]
    rfl
  rw [ofDatasets_waiting_getElem?] at hfirst
  obtain ⟨d, hd, rfl⟩ := Option.map_eq_some_iff.mp hfirst
  have hfree : Stage.total Stage.slots s.stages < p.limit := hj.slots ▸ hroom
  have hkept := run_induct Kept.step hj.kept [.admitNext, .work s.launched]
  have hheld := hj.held.act (n := p.limit) h (.launch hroom)
  have hnext := hj.kept.next_waits (List.getElem?_eq_some_iff.mp hd).1
  have hslots := Stage.total_set (w := Stage.slots) hnext .executing
  rw [run_launch hj.place hj.kept hd hfree] at hkept ⊢
  refine ⟨hkept, hj.place, hheld, ?_, ?_, ?_, ?_, ?_, hj.cancelled⟩
  · rw [← List.tail_drop, ← hwaiting]
    rfl
  · intro z hz
    simp only [getElem?_set_of_some hnext]
    rcases List.mem_append.mp hz with hz | hz
    · obtain ⟨hst, hz'⟩ := hj.running z hz
      refine ⟨?_, hz'⟩
      split
      · rfl
      · exact hst
    · rw [List.mem_singleton.mp hz]
      simp [hd]
  · intro y hy
    obtain ⟨hst, hy'⟩ := hj.rows y hy
    have hother : s.launched ≠ y.1 := by
      intro hsame
      rw [← hsame, hnext] at hst
      cases hst
    refine ⟨?_, hy'⟩
    rw [List.getElem?_set_ne hother]
    exact hst
  · rw [List.range_succ]
    simp only [Batch.launch, List.map_append, List.map_cons, List.map_nil, List.append_assoc]
    have hmoved : (running.map (·.1) ++ ([s.launched] ++ rows.map (·.1))).Perm
        (s.launched :: (running.map (·.1) ++ rows.map (·.1))) := List.perm_middle
    exact hmoved.trans ((hj.positions.cons _).trans (List.perm_append_singleton _ _).symm)
  · have hbefore := hj.slots
    simp only [Batch.launch, List.length_append, List.length_cons, List.length_nil, Stage.slots]
      at hbefore hslots ⊢
    omega

theorem Joins.act (hj : Joins p h c s) (hact : Act e p.limit c c') :
    ∃ moves, Joins p h c' (s.run p moves) := by
  have hheld := hj.held.act h hact
  cases hact with
  | collect hx => exact ⟨_, hj.collect hx⟩
  | launch hroom => exact ⟨_, hj.launch hroom⟩
  | settle k b => exact ⟨[], { hj with held := hheld }⟩
  | turn b => exact ⟨[], { hj with held := hheld }⟩

theorem Joins.acts (hj : Joins p h c s) (hacts : Acts e p.limit c c') :
    ∃ moves, Joins p h c' (s.run p moves) := by
  induction hacts with
  | refl => exact ⟨[], hj⟩
  | tail _ hact ih =>
    obtain ⟨moves, hj⟩ := ih
    obtain ⟨more, hj'⟩ := hj.act hact
    exact ⟨moves ++ more, run_append p s moves more ▸ hj'⟩

/-! ### The rows in order -/

/-- Rows with their positions, in whatever order they came, are put in order. -/
theorem sortedRows_eq {b : Batch} {rows : List Row}
    (hpositions : (b.rows.map (·.1)).Perm (List.range rows.length))
    (hrows : ∀ y ∈ b.rows, rows[y.1]? = some y.2) : b.sortedRows = rows := by
  have hperm := List.mergeSort_perm b.rows fun x y => decide (x.1 ≤ y.1)
  have hsorted : (b.rows.mergeSort fun x y => decide (x.1 ≤ y.1)).Pairwise
      fun x y => decide (x.1 ≤ y.1) = true :=
    List.pairwise_mergeSort (by simp; omega) (by simp; omega) b.rows
  unfold sortedRows
  generalize b.rows.mergeSort (fun x y => decide (x.1 ≤ y.1)) = sorted at hperm hsorted
  have hrange : sorted.map (·.1) = List.range rows.length := by
    refine List.Perm.eq_of_pairwise (fun _ _ _ _ => Nat.le_antisymm) ?_ List.pairwise_le_range
      ((hperm.map _).trans hpositions)
    exact List.pairwise_map.mpr (hsorted.imp of_decide_eq_true)
  apply List.ext_getElem?
  intro i
  have hi := congrArg (·[i]?) hrange
  simp only [List.getElem?_map] at hi ⊢
  cases hy : sorted[i]? with
  | none =>
    rw [hy, Option.map_none, eq_comm, List.getElem?_eq_none_iff, List.length_range] at hi
    rw [Option.map_none, List.getElem?_eq_none hi]
  | some y =>
    rw [hy, Option.map_some, eq_comm] at hi
    obtain ⟨_, hyi⟩ := List.getElem?_eq_some_iff.mp hi
    rw [List.getElem_range] at hyi
    rw [Option.map_some, hyi, hrows y (hperm.mem_iff.mp (List.mem_of_getElem? hy))]

/-! ### From the start to the end -/

theorem joins_start (hp : p.obstacle = none) (h : e.Steady p.answer) (k : κ) :
    Joins p h (k, ofDatasets p.datasets) ((start p).run p [.reset]) := by
  have hreset : (start p).run p [.reset] = { start p with place := .launching } := by
    simp [Shift.run, Shift.next, Shift.step?, Shift.reset?, start, hp]
  have hkept := kept_run p [.reset]
  rw [hreset] at hkept ⊢
  exact ⟨hkept, rfl, by simp [Held, ofDatasets], rfl, by simp [ofDatasets], by simp [ofDatasets],
    .nil, slots_start p, rfl⟩

/-- Once nothing waits and nothing is under way, all is done, and the rows are in order. -/
theorem Joins.over (hj : Joins p h c s) (hover : c.2.isOver = true) :
    s.Done p ∧ c.2.sortedRows = p.rows := by
  obtain ⟨hwaiting, hrunning⟩ : c.2.waiting = [] ∧ c.2.running = [] := by
    simpa [isOver] using hover
  have hcount : (ofDatasets p.datasets).waiting.length = p.datasets.length := by simp [ofDatasets]
  have hall : s.launched = p.datasets.length := by
    have hnone := List.drop_eq_nil_iff.mp (hj.waiting.symm.trans hwaiting)
    have hle := hj.kept.launched
    omega
  have hdone : s.Done p := ⟨hall, by rw [hj.slots, hrunning, List.length_nil]⟩
  refine ⟨hdone, ?_⟩
  rw [← hj.kept.rows_eq hdone]
  have hpositions := hj.positions
  rw [hrunning, List.map_nil, List.nil_append, hall, ← hj.kept.rows] at hpositions
  exact sortedRows_eq hpositions fun y hy => (hj.rows y hy).2

structure Commission (κ : Type) where
  executor : Executor κ
  bench : κ → Bench
  setBench : κ → Bench → κ
  state : κ
  workDirectory : Text
  cancelAt : Option Instant
  cleanup : Option (Bench → Bench × Bool)
  parallel : Int
  datasets : List Text

namespace Commission

def report (c : Commission κ) : Report κ :=
  carryOut c.executor c.bench c.setBench c.state c.workDirectory c.cancelAt c.cleanup c.parallel
    c.datasets

def watched (c : Commission κ) : Commission (Watch κ) where
  executor := c.executor.watched
  bench w := c.bench w.inner
  setBench := Watch.setBench c.executor c.setBench
  state := ⟨c.state, [], 0, []⟩
  workDirectory := c.workDirectory
  cancelAt := c.cancelAt
  cleanup := c.cleanup
  parallel := c.parallel
  datasets := c.datasets

/-- The files with an empty work directory, where there is one, and why it is not empty, if so. -/
def emptied (c : Commission κ) : FileTree × Option Workspace.Fault :=
  if c.workDirectory.isEmpty then ((c.bench c.state).files, none)
  else Workspace.reset (c.bench c.state).files c.workDirectory

def plan (c : Commission κ) (answer : Text → Execution) : Plan where
  datasets := c.datasets
  parallel := c.parallel
  answer := answer
  obstacle := c.emptied.2
  tidies := c.cleanup.isSome

/-- The executor with the files as the work directory's emptying left them. -/
def opened (c : Commission κ) : κ := c.setBench c.state { c.bench c.state with files := c.emptied.1 }

def played (c : Commission κ) : κ × List Row := run c.executor c.opened c.parallel c.datasets

def tidied (c : Commission κ) (k : κ) : κ :=
  match c.cleanup with
  | none => k
  | some tidy =>
    let (b, ok) := tidy (c.bench k)
    c.setBench k (if ok then b else b.note .warn "cleanup failed")

variable {c : Commission κ} {answer : Text → Execution}

end Commission

end Regatta.Batch
