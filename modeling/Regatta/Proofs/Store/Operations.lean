import Mathlib.Data.List.Nodup
import Regatta.Proofs.Status
import Regatta.Proofs.Store.Rows

/-! What any series of operations does to a store.

An operation that succeeds does one of four things to the tables, all about one run (`Change`): it
adds a row for a new run, moves the row of a run along an allowed edge, or adds one result or one
line. Everything else follows from that. Where no two rows have the same id, which every operation
keeps so, the store is `Lawful` at every moment: rows stay, an end is final, what belongs to other
runs is left alone, and a move that is not allowed is refused. -/
namespace Regatta

namespace RunRow

/-- What a run was created with. -/
def origin (row : RunRow) : Text × Text × Text × Int × Text :=
  (row.id, row.dataset, row.engines, row.timeoutSeconds, row.createdAt)

/-- A row of the same run, whose status is as it was or has moved along one edge. -/
structure Revises (row row' : RunRow) : Prop where
  origin : row'.origin = row.origin
  status : row'.standing = row.standing ∨ row.standing.allows row'.standing = true

theorem Revises.refl (row : RunRow) : row.Revises row := ⟨rfl, .inl rfl⟩

theorem Revises.of_terminal {row row' : RunRow} (h : row.Revises row')
    (ht : row.standing.terminal = true) : row'.standing = row.standing := by
  rcases h.status with heq | hmove
  · exact heq
  · rw [Status.not_allows_of_terminal ht] at hmove
    cases hmove

theorem id_of_origin {row row' : RunRow} (h : row'.origin = row.origin) : row'.id = row.id :=
  congrArg Prod.fst h

end RunRow

namespace Store

theorem origin_move (now : Instant) (target : Status) (row : RunRow) :
    (move now target row).origin = row.origin := by
  unfold move
  dsimp only
  split
  · rfl
  · split <;> rfl

theorem standing_move (now : Instant) (target : Status) (row : RunRow) :
    (move now target row).standing = target := by
  unfold move
  dsimp only
  split
  · rfl
  · split <;> rfl

/-! ### Rows by their ids -/

/-- No two rows are for the same run. -/
def Keyed (s : Store) : Prop := (s.runs.map (·.id)).Nodup

theorem mem_of_row? {s : Store} {id : Text} {row : RunRow} (h : s.row? id = some row) :
    row ∈ s.runs ∧ row.id = id :=
  ⟨List.mem_of_find?_eq_some h, by simpa using List.find?_some h⟩

theorem row?_eq_none {s : Store} {id : Text} (h : s.row? id = none) :
    ∀ row ∈ s.runs, row.id ≠ id := by
  intro row hrow
  simpa using List.find?_eq_none.mp h row hrow

theorem Keyed.row?_eq {s : Store} (h : s.Keyed) {row : RunRow} (hrow : row ∈ s.runs) :
    s.row? row.id = some row := by
  cases hfound : s.row? row.id with
  | none => exact absurd rfl (row?_eq_none hfound row hrow)
  | some found =>
    obtain ⟨hmem, hid⟩ := mem_of_row? hfound
    rw [List.inj_on_of_nodup_map h hmem hrow hid]

theorem getElem?_replace (s : Store) (id : Text) (f : RunRow → RunRow) (i : Nat) :
    (s.replace id f).runs[i]? =
      s.runs[i]?.map fun row => if row.id == id then f row else row :=
  List.getElem?_map

/-! ### What an operation can do -/

/-- What may happen to a store in an operation on the run `id`. -/
inductive Change (id : Text) (s : Store) : Store → Prop
  | created {row : RunRow} (hid : row.id = id) (hnew : s.row? id = none) :
    Change id s { s with runs := s.runs ++ [row] }
  | revised {row : RunRow} (hrow : s.row? id = some row) {f : RunRow → RunRow}
    (hf : ∀ r, (f r).origin = r.origin) (hstatus : row.Revises (f row)) :
    Change id s (s.replace id f)
  | result {r : ResultRow} (hr : r.run = id) : Change id s { s with results := s.results ++ [r] }
  | line {l : LineRow} (hl : l.run = id) : Change id s { s with lines := s.lines ++ [l] }

/-- How a request to move a run is answered; `same` says whether its status may also stay. -/
def moved (s : Store) (id : Text) (target : Status) (same : Bool) (f : RunRow → RunRow) :
    Except StoreError Store :=
  match s.row? id with
  | none => .error .notFound
  | some row =>
    if (same && row.standing == target) || row.standing.allows target then .ok (s.replace id f)
    else .error (.invalidTransition row.standing target)

theorem updateStatus_eq {s : Store} (h : s.isOpen = true) (now : Instant) (id : Text)
    (target : Status) :
    s.updateStatus now id target = s.moved id target false (move now target) := by
  unfold updateStatus moved
  rw [need_of_open h]
  cases s.row? id with
  | none => rfl
  | some row =>
    dsimp only
    rw [Bool.false_and, Bool.false_or]
    unfold RunRow.standing
    split <;> rfl

theorem updateRun_eq {s : Store} (h : s.isOpen = true) (run : Run) :
    s.updateRun run = s.moved run.id run.status true (overwrite run) := by
  unfold updateRun moved
  rw [need_of_open h]
  cases s.row? run.id with
  | none => rfl
  | some row =>
    dsimp only
    rw [Bool.true_and]
    unfold RunRow.standing
    split <;> rfl

theorem moved_eq_ok {s s' : Store} {id : Text} {target : Status} {same : Bool}
    {f : RunRow → RunRow} (h : s.moved id target same f = .ok s') :
    ∃ row, s.row? id = some row ∧ s' = s.replace id f ∧
      ((same = true ∧ row.standing = target) ∨ row.standing.allows target = true) := by
  unfold moved at h
  cases hrow : s.row? id with
  | none =>
    rw [hrow] at h
    cases h
  | some row =>
    rw [hrow] at h
    dsimp only at h
    split at h
    · rename_i hok
      cases h
      exact ⟨row, rfl, rfl, by simpa using hok⟩
    · cases h

/-- Something that is asked of a store. The time of a write comes with it. -/
inductive Operation where
  | createRun (run : Run)
  | updateStatus (now : Instant) (id : Text) (target : Status)
  | updateRun (run : Run)
  | insertResult (now : Instant) (run : Text) (seq : Int) (r : EngineResult)
  | insertLine (now : Instant) (run : Text) (seq : Int) (line : Text)
  | getRun (id : Text)
  | listRuns (limit offset : Int)
  | stats
  | getResults (run : Text)
  | getLines (run : Text)

namespace Operation

/-- The run that an operation writes about. -/
def about? : Operation → Option Text
  | .createRun run => some run.id
  | .updateStatus _ id _ => some id
  | .updateRun run => some run.id
  | .insertResult _ run _ _ => some run
  | .insertLine _ run _ _ => some run
  | _ => none

def attempt (s : Store) : Operation → Except StoreError Store
  | .createRun run => s.createRun run
  | .updateStatus now id target => s.updateStatus now id target
  | .updateRun run => s.updateRun run
  | .insertResult now run seq r => s.insertResult now run seq r
  | .insertLine now run seq line => s.insertLine now run seq line
  | .getRun id => (s.getRun id).map fun _ => s
  | .listRuns limit offset => (s.listRuns limit offset).map fun _ => s
  | .stats => s.stats.map fun _ => s
  | .getResults run => (s.getResults run).map fun _ => s
  | .getLines run => (s.getLines run).map fun _ => s

/-- What comes of an operation that succeeds. -/
inductive Does (s : Store) : Operation → Store → Prop
  | creates {run : Run} (hnew : s.row? run.id = none) :
    Does s (.createRun run) { s with runs := s.runs ++ [encode run] }
  | moves {now : Instant} {id : Text} {target : Status} {row : RunRow} (hrow : s.row? id = some row)
    (hallows : row.standing.allows target = true) :
    Does s (.updateStatus now id target) (s.replace id (move now target))
  | revises {run : Run} {row : RunRow} (hrow : s.row? run.id = some row)
    (hstatus : row.standing = run.status ∨ row.standing.allows run.status = true) :
    Does s (.updateRun run) (s.replace run.id (overwrite run))
  | adds {now : Instant} {run : Text} {seq : Int} {r : EngineResult} :
    Does s (.insertResult now run seq r)
      { s with results := s.results ++ [Ledger.resultRow now run seq r] }
  | writes {now : Instant} {run : Text} {seq : Int} {line : Text} :
    Does s (.insertLine now run seq line)
      { s with lines := s.lines ++ [⟨s.lines.length + 1, run, seq, line, Stamp.ofInstant now⟩] }
  | reads {op : Operation} (hread : op.about? = none) : Does s op s

theorem does {s s' : Store} (op : Operation) (h : op.attempt s = .ok s') : Does s op s' := by
  have hread : ∀ {α : Type} {answer : Except StoreError α}, op.about? = none →
      answer.map (fun _ => s) = .ok s' → Does s op s' := by
    intro α answer hnone h
    cases answer with
    | error e => cases h
    | ok a =>
      cases h
      exact .reads hnone
  cases op with
  | createRun run =>
    obtain ⟨hnew, rfl⟩ := createRun_eq_ok h
    exact .creates hnew
  | updateStatus now id target =>
    obtain ⟨row, hrow, rfl, hok⟩ :=
      moved_eq_ok ((updateStatus_eq (open_of_ok h).1 now id target).symm.trans h)
    exact .moves hrow (hok.resolve_left fun hsame => by cases hsame.1)
  | updateRun run =>
    obtain ⟨row, hrow, rfl, hok⟩ := moved_eq_ok ((updateRun_eq (open_of_ok h).1 run).symm.trans h)
    exact .revises hrow (hok.imp_left And.right)
  | insertResult now run seq r =>
    cases (open_of_ok h).2
    exact .adds
  | insertLine now run seq line =>
    cases (open_of_ok h).2
    exact .writes
  | _ => exact hread rfl h

theorem Does.change {op : Operation} {s s' : Store} {id : Text} (h : Does s op s')
    (habout : op.about? = some id) : Change id s s' := by
  cases h with
  | creates hnew =>
    cases habout
    exact .created rfl hnew
  | @moves now _ target row hrow hallows =>
    cases habout
    exact .revised hrow (origin_move now target)
      ⟨origin_move now target row, .inr ((standing_move now target row).symm ▸ hallows)⟩
  | revises hrow hstatus =>
    cases habout
    exact .revised hrow (fun _ => rfl) ⟨rfl, hstatus.imp_left Eq.symm⟩
  | adds =>
    cases habout
    exact .result rfl
  | writes =>
    cases habout
    exact .line rfl
  | reads hread =>
    rw [hread] at habout
    cases habout

end Operation

theorem createRun_change {s s' : Store} {run : Run} (h : s.createRun run = .ok s') :
    Change run.id s s' := ((Operation.createRun run).does h).change rfl

/-- The store after an operation. One that fails leaves it as it was. -/
def next (s : Store) (op : Operation) : Store :=
  match op.attempt s with
  | .ok s' => s'
  | .error _ => s

def run (s : Store) (ops : List Operation) : Store := ops.foldl next s

theorem next_does (s : Store) (op : Operation) : s.next op = s ∨ op.Does s (s.next op) := by
  unfold next
  cases h : op.attempt s with
  | error e => exact .inl rfl
  | ok s' => exact .inr (op.does h)

theorem next_change (s : Store) (op : Operation) :
    s.next op = s ∨ ∃ id, op.about? = some id ∧ Change id s (s.next op) := by
  rcases s.next_does op with heq | hdoes
  · exact .inl heq
  · cases habout : op.about? with
    | some id => exact .inr ⟨id, rfl, hdoes.change habout⟩
    | none =>
      generalize s.next op = s' at hdoes
      cases hdoes with
      | reads => exact .inl rfl
      | _ => cases habout

/-! ### What a change leaves as it was -/

/-- What an operation about one run may have done to the tables. -/
structure Alters (about : Option Text) (s s' : Store) : Prop where
  runs : ∀ (i : Nat) (row : RunRow), s.runs[i]? = some row →
    ∃ row', s'.runs[i]? = some row' ∧ row.Revises row' ∧ (about ≠ some row.id → row' = row)
  created : ∀ (i : Nat) (row : RunRow), s.runs[i]? = none → s'.runs[i]? = some row →
    about = some row.id
  results : ∃ more, s'.results = s.results ++ more ∧ ∀ r ∈ more, about = some r.run
  lines : ∃ more, s'.lines = s.lines ++ more ∧ ∀ l ∈ more, about = some l.run

theorem Alters.refl (about : Option Text) (s : Store) : Alters about s s where
  runs _ row h := ⟨row, h, .refl row, fun _ => rfl⟩
  created _ _ hnone hsome := by
    rw [hnone] at hsome
    cases hsome
  results := ⟨[], by simp⟩
  lines := ⟨[], by simp⟩

variable {id : Text} {s s' : Store}

namespace Change
variable (h : Change id s s')
include h

theorem isOpen : s'.isOpen = s.isOpen := by
  cases h <;> rfl

theorem keyed (hkeyed : s.Keyed) : s'.Keyed := by
  cases h with
  | @created row hid hnew =>
    show ((s.runs ++ [row]).map (·.id)).Nodup
    rw [List.map_append, List.nodup_append]
    refine ⟨hkeyed, List.nodup_singleton _, ?_⟩
    intro a ha b hb
    obtain ⟨old, hold, rfl⟩ := List.mem_map.mp ha
    have hb : b = id := (List.mem_singleton.mp hb).trans hid
    rw [hb]
    exact row?_eq_none hnew old hold
  | @revised row hrow f hf =>
    have hids : (s.replace id f).runs.map (·.id) = s.runs.map (·.id) := by
      show (s.runs.map _).map _ = _
      rw [List.map_map]
      refine List.map_congr_left fun r _ => ?_
      show (if r.id == id then f r else r).id = r.id
      split
      · exact RunRow.id_of_origin (hf r)
      · rfl
    unfold Keyed
    rw [hids]
    exact hkeyed
  | result => exact hkeyed
  | line => exact hkeyed

/-- A change leaves the rows of other runs alone. -/
theorem row?_other {other : Text} (hne : other ≠ id) : s'.row? other = s.row? other := by
  cases h with
  | @created row hid =>
    rw [row?_append, if_neg (hid ▸ Ne.symm hne), Option.or_none]
  | revised hrow hf => simp [row?_replace (fun r => RunRow.id_of_origin (hf r)), hne]
  | result => rfl
  | line => rfl

theorem alters (hkeyed : s.Keyed) : Alters (some id) s s' := by
  have hrefl := Alters.refl (some id) s
  cases h with
  | @created row hid =>
    refine { hrefl with runs := ?_, created := ?_ }
    · intro i old hold
      have hin := (List.getElem?_eq_some_iff.mp hold).1
      exact ⟨old, by rw [List.getElem?_append_left hin, hold], .refl old, fun _ => rfl⟩
    · intro i new hnone hsome
      rw [List.getElem?_append_right (List.getElem?_eq_none_iff.mp hnone)] at hsome
      rw [← hid, List.mem_singleton.mp (List.mem_of_getElem? hsome)]
  | @revised row hrow f hf hstatus =>
    refine { hrefl with runs := ?_, created := ?_ }
    · intro i old hold
      rw [getElem?_replace, hold]
      by_cases hid : old.id = id
      · -- the row that was found under the id is the only one with it
        have hold' : s.row? id = some old := by
          rw [← hid]
          exact hkeyed.row?_eq (List.mem_of_getElem? hold)
        have hsame : row = old := Option.some.inj (hrow.symm.trans hold')
        refine ⟨f old, by simp [hid], hsame ▸ hstatus, fun hne => ?_⟩
        exact absurd (congrArg some hid.symm) hne
      · exact ⟨old, by simp [hid], .refl old, fun _ => rfl⟩
    · intro i new hnone hsome
      rw [getElem?_replace, hnone] at hsome
      cases hsome
  | @result r hr => exact { hrefl with results := ⟨[r], rfl, by simp [hr]⟩ }
  | @line l hl => exact { hrefl with lines := ⟨[l], rfl, by simp [hl]⟩ }

end Change

theorem next_isOpen (s : Store) (op : Operation) : (s.next op).isOpen = s.isOpen := by
  rcases s.next_change op with heq | ⟨id, -, hchange⟩
  · rw [heq]
  · exact hchange.isOpen

theorem Keyed.next (h : s.Keyed) (op : Operation) : (s.next op).Keyed := by
  rcases s.next_change op with heq | ⟨id, -, hchange⟩
  · rw [heq]
    exact h
  · exact hchange.keyed h

theorem Keyed.alters (h : s.Keyed) (op : Operation) : Alters op.about? s (s.next op) := by
  rcases s.next_change op with heq | ⟨id, habout, hchange⟩
  · rw [heq]
    exact .refl _ s
  · rw [habout]
    exact hchange.alters h

/-! ### Whole histories -/

/-- What no series of operations changes: rows and what they were created with, the status of a run
that has ended, the results and the lines. -/
structure Keeps (s s' : Store) : Prop where
  runs : ∀ (i : Nat) (row : RunRow), s.runs[i]? = some row →
    ∃ row', s'.runs[i]? = some row' ∧ row'.origin = row.origin ∧
      (row.standing.terminal = true → row'.standing = row.standing)
  results : s.results <+: s'.results
  lines : s.lines <+: s'.lines

theorem Keeps.refl (s : Store) : Keeps s s :=
  ⟨fun _ row h => ⟨row, h, rfl, fun _ => rfl⟩, List.prefix_rfl, List.prefix_rfl⟩

theorem Keeps.trans {s'' : Store} (h : Keeps s s') (h' : Keeps s' s'') : Keeps s s'' where
  runs i row hrow := by
    obtain ⟨row', hrow', horigin, hend⟩ := h.runs i row hrow
    obtain ⟨row'', hrow'', horigin', hend'⟩ := h'.runs i row' hrow'
    refine ⟨row'', hrow'', horigin'.trans horigin, fun ht => ?_⟩
    have heq := hend ht
    rw [hend' (heq ▸ ht), heq]
  results := h.results.trans h'.results
  lines := h.lines.trans h'.lines

theorem Alters.keeps {about : Option Text} (h : Alters about s s') : Keeps s s' where
  runs i row hrow := by
    obtain ⟨row', hrow', hrevises, -⟩ := h.runs i row hrow
    exact ⟨row', hrow', hrevises.origin, hrevises.of_terminal⟩
  results := by
    obtain ⟨more, heq, -⟩ := h.results
    exact ⟨more, heq.symm⟩
  lines := by
    obtain ⟨more, heq, -⟩ := h.lines
    exact ⟨more, heq.symm⟩

theorem run_isOpen (s : Store) (ops : List Operation) : (s.run ops).isOpen = s.isOpen := by
  induction ops generalizing s with
  | nil => rfl
  | cons op rest ih => exact (ih (s.next op)).trans (s.next_isOpen op)

theorem Keyed.run (h : s.Keyed) (ops : List Operation) : (s.run ops).Keyed := by
  induction ops generalizing s with
  | nil => exact h
  | cons op rest ih => exact ih (h.next op)

theorem Keyed.keeps (h : s.Keyed) (ops : List Operation) : Keeps s (s.run ops) := by
  induction ops generalizing s with
  | nil => exact .refl s
  | cons op rest ih => exact (h.alters op).keeps.trans (ih (h.next op))

/-- How a store answers who asks it to move the run `id` to `target`: it knows no such run, or the
status may not go there, or it does. `same` says whether the status may also stay as it is. -/
structure Judges (s : Store) (id : Text) (target : Status) (same : Bool)
    (answer : Except StoreError Store) : Prop where
  unknown : answer = .error .notFound ↔ s.row? id = none
  invalid : ∀ a b, answer = .error (.invalidTransition a b) ↔ ∃ row, s.row? id = some row ∧
    a = row.standing ∧ b = target ∧ row.standing.allows target = false ∧
    (same = true → row.standing ≠ target)
  accepted : (∃ s', answer = .ok s' ∧ ∃ row, s'.row? id = some row ∧ row.standing = target) ↔
    ∃ row, s.row? id = some row ∧
      (row.standing.allows target = true ∨ (same = true ∧ row.standing = target))

theorem judges_moved (s : Store) (id : Text) (target : Status) (same : Bool) {f : RunRow → RunRow}
    (hf : ∀ r, (f r).origin = r.origin) (hstanding : ∀ r, (f r).standing = target) :
    s.Judges id target same (s.moved id target same f) := by
  unfold moved
  cases hrow : s.row? id with
  | none => exact ⟨by simp [hrow], by simp [hrow], by simp [hrow]⟩
  | some row =>
    dsimp only
    split
    · rename_i hok
      have hmoved : (s.replace id f).row? id = some (f row) := by
        simp [row?_replace (fun r => RunRow.id_of_origin (hf r)), hrow]
      have hok : row.standing.allows target = true ∨ (same = true ∧ row.standing = target) := by
        simpa [or_comm] using hok
      refine ⟨by simp [hrow], fun a b => ⟨by simp, ?_⟩, ?_⟩
      · rintro ⟨row', hrow', -, -, hno, hdiffers⟩
        cases hrow.symm.trans hrow'
        rcases hok with hallows | ⟨hsame, heq⟩
        · rw [hno] at hallows
          cases hallows
        · exact absurd heq (hdiffers hsame)
      · exact ⟨fun _ => ⟨row, hrow, hok⟩, fun _ => ⟨_, rfl, f row, hmoved, hstanding row⟩⟩
    · rename_i hno
      have hno : row.standing.allows target = false ∧ (same = true → row.standing ≠ target) := by
        simpa [and_comm] using hno
      refine ⟨by simp [hrow], fun a b => ?_, ⟨?_, ?_⟩⟩
      · constructor
        · intro h
          cases h
          exact ⟨row, hrow, rfl, rfl, hno⟩
        · rintro ⟨row', hrow', rfl, rfl, -⟩
          cases hrow.symm.trans hrow'
          rfl
      · rintro ⟨s', h, -⟩
        cases h
      · rintro ⟨row', hrow', hok⟩
        cases hrow.symm.trans hrow'
        rcases hok with hallows | ⟨hsame, heq⟩
        · rw [hno.1] at hallows
          cases hallows
        · exact absurd heq (hno.2 hsame)

/-- What holds of a store at every moment, whatever is asked of it next. -/
structure Lawful (s : Store) : Prop where
  keeps : ∀ ops, Keeps s (s.run ops)
  alters : ∀ op, Alters op.about? s (s.next op)
  failure : ∀ op e, op.attempt s = .error e → s.next op = s
  /-- A move to the status that the run has already is refused. -/
  updateStatus : ∀ now id target,
    s.Judges id target false ((Operation.updateStatus now id target).attempt s)
  /-- What is written over a run may leave its status. -/
  updateRun : ∀ run, s.Judges run.id run.status true ((Operation.updateRun run).attempt s)

/-- **Every history of a store is lawful**: whatever has been asked of an open store whose rows are
of different runs, it is lawful. -/
theorem lawful_run {s : Store} (hkeyed : s.Keyed) (hopen : s.isOpen = true)
    (before : List Operation) : (s.run before).Lawful where
  keeps ops := (hkeyed.run before).keeps ops
  alters op := (hkeyed.run before).alters op
  failure op e he := by
    unfold next
    rw [he]
  updateStatus now id target := by
    show Judges _ id target false ((s.run before).updateStatus now id target)
    rw [updateStatus_eq ((s.run_isOpen before).trans hopen)]
    exact judges_moved _ id target false (origin_move now target) (standing_move now target)
  updateRun run := by
    show Judges _ run.id run.status true ((s.run before).updateRun run)
    rw [updateRun_eq ((s.run_isOpen before).trans hopen)]
    exact judges_moved _ run.id run.status true (f := overwrite run) (fun _ => rfl) fun _ => rfl

theorem lawful_run_pair :
    let row (id : Text) : RunRow := encode { (default : Run) with id, status := .running }
    Keyed { runs := [row "a", row "b"] } ∧
    (run { runs := [row "a", row "b"] } [.updateStatus 7 "a" .completed, .stats,
      .updateRun { (default : Run) with id := "a", status := .failed }]).Lawful := by
  have hkeyed : Keyed { runs := [encode { (default : Run) with id := "a", status := .running },
      encode { (default : Run) with id := "b", status := .running }] } := by
    unfold Keyed
    decide
  exact ⟨hkeyed, lawful_run hkeyed rfl _⟩

end Store
end Regatta
