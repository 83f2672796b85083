import Regatta.Proofs.Store.Operations
import Regatta.Proofs.Store.Reading

/-! What a store gives back of a run: for each field the value that was last written to it.

A run can be kept (`Run.Storable`) when its engines can be told from their names and its times from
their stamps. Its row is then read back as the run itself (`decode_encode`). What an update does to a
row is what it does to the run that the row was written from (`encode_moved`, `encode_revised`), so a
row is at any time the row of a run, and that run is told by the history of writes, field by field
(`Told.run`). -/
namespace Regatta

/-! ### Fields -/

inductive Run.Field where
  | id
  | status
  | dataset
  | engines
  | timeoutSeconds
  | inputs
  | latches
  | ands
  | verdict
  | engine
  | elapsedMillis
  | error
  | createdAt
  | startedAt
  | finishedAt

namespace Run

def Field.Value : Field → Type
  | .id | .dataset | .error => Text
  | .status => Status
  | .engines => Option (List Engine)
  | .timeoutSeconds => Int
  | .inputs | .latches | .ands | .elapsedMillis => Option Int
  | .verdict => Verdict
  | .engine => Engine
  | .createdAt => Instant
  | .startedAt | .finishedAt => Option Instant

def get (r : Run) : (f : Field) → f.Value
  | .id => r.id
  | .status => r.status
  | .dataset => r.dataset
  | .engines => r.engines
  | .timeoutSeconds => r.timeoutSeconds
  | .inputs => r.inputs
  | .latches => r.latches
  | .ands => r.ands
  | .verdict => r.verdict
  | .engine => r.engine
  | .elapsedMillis => r.elapsedMillis
  | .error => r.error
  | .createdAt => r.createdAt
  | .startedAt => r.startedAt
  | .finishedAt => r.finishedAt

theorem eq_of_get {r r' : Run} (h : ∀ f, r.get f = r'.get f) : r = r' := by
  obtain ⟨_, _, _, _, _, _, _, _, _, _, _, _, _, _, _⟩ := r
  obtain ⟨_, _, _, _, _, _, _, _, _, _, _, _, _, _, _⟩ := r'
  simp only [Run.mk.injEq]
  exact ⟨h .id, h .status, h .dataset, h .engines, h .timeoutSeconds, h .inputs, h .latches, h .ands,
    h .verdict, h .engine, h .elapsedMillis, h .error, h .createdAt, h .startedAt, h .finishedAt⟩

/-- The run as it is given back: a list of engines that was not there is empty. -/
def kept (r : Run) : Run := { r with engines := some (r.engines.getD []) }

/-! ### Runs that can be kept -/

/-- What an update writes of the run can be given back. -/
structure Updatable (r : Run) : Prop where
  engine : r.engine = .none ∨ r.engine.runnable = true
  started : ∀ t, r.startedAt = some t → Stamp.Restored t
  finished : ∀ t, r.finishedAt = some t → Stamp.Restored t

/-- All of the run can be given back: its engines were read from a list of names, if there are any, and
the store gives back its times. -/
structure Storable (r : Run) : Prop extends r.Updatable where
  engines : ∀ es, r.engines = some es → ∃ names, Engine.parseList names = .ok es
  created : Stamp.Restored r.createdAt

theorem Storable.kept {r : Run} (h : r.Storable) : r.kept.Storable := by
  refine { h with engines := fun es hes => ?_ }
  cases hengines : r.engines with
  | none =>
    have hnil : es = [] := by simpa [Run.kept, hengines] using hes.symm
    exact ⟨[], by rw [hnil]; rfl⟩
  | some es' =>
    have hsame : es' = es := by simpa [Run.kept, hengines] using hes
    exact h.engines es (by rw [hengines, hsame])

def moved (now : Instant) (target : Status) (r : Run) : Run :=
  if target == .running then { r with status := target, startedAt := some now }
  else if target.terminal then { r with status := target, finishedAt := some now }
  else { r with status := target }

/-- A run with what can change about it taken from another. -/
def revised (new r : Run) : Run :=
  { r with status := new.status, inputs := new.inputs, latches := new.latches, ands := new.ands
           verdict := new.verdict, engine := new.engine, elapsedMillis := new.elapsedMillis
           error := new.error, startedAt := new.startedAt, finishedAt := new.finishedAt }

theorem Storable.moved {r : Run} (h : r.Storable) {now : Instant} (hnow : Stamp.Restored now)
    (target : Status) : (r.moved now target).Storable := by
  have hsome : ∀ t, some now = some t → Stamp.Restored t := by
    intro t ht
    cases ht
    exact hnow
  unfold Run.moved
  split
  · exact { h with started := hsome }
  · split
    · exact { h with finished := hsome }
    · exact { h with }

theorem Storable.revised {r new : Run} (h : r.Storable) (hnew : new.Updatable) :
    (new.revised r).Storable :=
  { hnew with engines := h.engines, created := h.created }

theorem kept_moved (now : Instant) (target : Status) (r : Run) :
    (r.moved now target).kept = r.kept.moved now target := by
  unfold moved
  split
  · rfl
  · split <;> rfl

end Run

/-! ### Rows -/

namespace Store

theorem time?_restored {t : Option Instant} (h : ∀ x, t = some x → Stamp.Restored x)
    (place column : Text) : time? place column (t.map Stamp.ofInstant) = .ok t := by
  cases t with
  | none => rfl
  | some x =>
    show some <$> time place column (Stamp.ofInstant x) = _
    rw [time_restored (h x rfl)]
    rfl

/-- **A run that can be kept is read back from its row.** -/
theorem decode_encode {r : Run} (h : r.Storable) (place : Text) :
    decode place (encode r) = .ok r.kept := by
  have hengines : splitEngines (joinEngines (r.engines.getD [])) = .ok (r.engines.getD []) := by
    cases hes : r.engines with
    | none => rfl
    | some es =>
      obtain ⟨names, hnames⟩ := h.engines es hes
      exact Engine.splitEngines_joinEngines hnames
  have hengine : Engine.ofText r.engine.name = .ok r.engine :=
    Engine.ofText_name (h.engine.imp_right List.contains_iff_mem.mp)
  exact decode_columns (time_restored h.created place _)
    (time?_restored h.started place _) (time?_restored h.finished place _) hengines hengine

theorem getRun_of_row? {s : Store} (hopen : s.isOpen = true) {id : Text} {row : RunRow}
    (hrow : s.row? id = some row) : s.getRun id = decode "get run" row := by
  unfold getRun
  rw [need_of_open hopen, hrow]
  rfl

theorem encode_moved (now : Instant) (target : Status) (r : Run) :
    encode (r.moved now target) = move now target (encode r) := by
  unfold Run.moved move
  dsimp only
  split
  · rfl
  · split <;> rfl

theorem encode_revised (new r : Run) : encode (new.revised r) = overwrite new (encode r) := rfl

/-! ### Histories -/

/-- Something that is written about a run. -/
inductive Writing where
  | created (run : Run)
  | moved (now : Instant) (target : Status)
  | revised (run : Run)

/-- What a write makes of a field; `none` if it leaves it alone. A move notes when a run started or
ended, and a revision leaves alone what a run was created with. -/
def Writing.value? : Writing → (f : Run.Field) → Option f.Value
  | .created run, f => some (run.kept.get f)
  | .moved _ target, .status => some target
  | .moved now target, .startedAt => if target = .running then some (some now) else none
  | .moved now target, .finishedAt => if target.terminal then some (some now) else none
  | .moved _ _, _ => none
  | .revised _, .id | .revised _, .dataset | .revised _, .engines | .revised _, .timeoutSeconds
  | .revised _, .createdAt => none
  | .revised run, f => some (run.get f)

theorem get_moved (now : Instant) (target : Status) (r : Run) (f : Run.Field) :
    some ((r.moved now target).get f) = ((Writing.moved now target).value? f).or (some (r.get f)) := by
  unfold Run.moved
  split
  · rename_i hrunning
    rw [beq_iff_eq] at hrunning
    subst hrunning
    cases f <;> rfl
  · rename_i hother
    have hnot : target ≠ .running := by simpa using hother
    split
    · rename_i hterminal
      cases f <;> simp [Writing.value?, hnot, hterminal] <;> rfl
    · rename_i hterminal
      cases f <;> simp [Writing.value?, hnot, hterminal] <;> rfl

theorem get_revised (new r : Run) (f : Run.Field) :
    some ((new.revised r).get f) = ((Writing.revised new).value? f).or (some (r.get f)) := by
  cases f <;> rfl

def lastWritten (ws : List Writing) (f : Run.Field) : Option f.Value :=
  (ws.filterMap (·.value? f)).getLast?

theorem lastWritten_concat (ws : List Writing) (w : Writing) (f : Run.Field) :
    lastWritten (ws ++ [w]) f = (w.value? f).or (lastWritten ws f) := by
  unfold lastWritten
  rw [List.filterMap_append]
  cases h : w.value? f with
  | none => simp [h]
  | some v => simp [h]

/-- What an operation would write about a run. -/
def Operation.writing? (id : Text) : Operation → Option Writing
  | .createRun run => if run.id = id then some (.created run) else none
  | .updateStatus now other target => if other = id then some (.moved now target) else none
  | .updateRun run => if run.id = id then some (.revised run) else none
  | _ => none

/-- What an operation writes about a run, which is nothing if it is not accepted. -/
def written (s : Store) (id : Text) (op : Operation) : List Writing :=
  match op.attempt s with
  | .ok _ => (op.writing? id).toList
  | .error _ => []

def history (s : Store) (id : Text) : List Operation → List Writing
  | [] => []
  | op :: rest => s.written id op ++ (s.next op).history id rest

/-- What an operation is to keep can be given back. -/
def Operation.Storable : Operation → Prop
  | .createRun run => run.Storable
  | .updateStatus now _ _ => Stamp.Restored now
  | .updateRun run => run.Updatable
  | _ => True

/-- After these writes about a run, the store has the row of the run `r`. -/
structure Told (id : Text) (s : Store) (ws : List Writing) (r : Run) : Prop where
  row : s.row? id = some (encode r)
  storable : r.Storable
  kept : r.kept = r
  last : ∀ f, lastWritten ws f = some (r.get f)

theorem writing?_eq_none {op : Operation} {id : Text} (h : op.about? ≠ some id) :
    op.writing? id = none := by
  cases op with
  | createRun run | updateStatus now other target | updateRun run =>
    exact if_neg fun heq => h (congrArg some heq)
  | _ => rfl

variable {id : Text} {s s' : Store} {ws : List Writing} {r : Run}

variable {op : Operation}

theorem Told.unwritten (h : Told id s ws r) (hok : op.attempt s = .ok s')
    (hnone : op.writing? id = none) (hrow : s'.row? id = s.row? id) :
    Told id s' (ws ++ s.written id op) r := by
  unfold written
  rw [hok]
  dsimp only
  rw [hnone]
  exact ⟨hrow.trans h.row, h.storable, h.kept, by simpa using h.last⟩

/-- A row that is changed is the row of the run that is changed in the same way. -/
theorem Told.changed (h : Told id s ws r) {f : RunRow → RunRow}
    (hok : op.attempt s = .ok (s.replace id f)) {w : Writing} (hw : op.writing? id = some w) {r' : Run}
    (hf : ∀ row, (f row).id = row.id) (hrow : f (encode r) = encode r') (hstorable : r'.Storable)
    (hkept : r'.kept = r') (hget : ∀ f, some (r'.get f) = (w.value? f).or (some (r.get f))) :
    Told id (s.replace id f) (ws ++ s.written id op) r' := by
  unfold written
  rw [hok]
  dsimp only
  rw [hw]
  refine ⟨?_, hstorable, hkept, fun field => ?_⟩
  · simp [row?_replace hf, h.row, hrow]
  · show lastWritten (ws ++ [w]) field = _
    rw [lastWritten_concat, h.last, hget]

theorem id_move (now : Instant) (target : Status) (row : RunRow) :
    (move now target row).id = row.id :=
  RunRow.id_of_origin (origin_move now target row)

theorem Told.next (h : Told id s ws r) (hop : op.about? = some id → op.Storable) :
    ∃ r', Told id (s.next op) (ws ++ s.written id op) r' := by
  unfold Store.next
  cases hok : op.attempt s with
  | error e =>
    refine ⟨r, ?_⟩
    unfold written
    rw [hok]
    dsimp only
    rw [List.append_nil]
    exact h
  | ok s' =>
    dsimp only
    have hdoes := op.does hok
    by_cases habout : op.about? = some id
    · have hstorable := hop habout
      cases hdoes with
      | creates hnew =>
        -- the id is taken
        cases habout
        cases h.row.symm.trans hnew
      | @moves now _ target =>
        cases habout
        refine ⟨r.moved now target, h.changed hok (if_pos rfl) (id_move now target)
          (encode_moved now target r).symm (h.storable.moved hstorable target) ?_
          (get_moved now target r)⟩
        rw [Run.kept_moved, h.kept]
      | @revises run =>
        cases habout
        refine ⟨run.revised r, h.changed hok (if_pos rfl) (fun _ => rfl)
          (encode_revised run r).symm (h.storable.revised hstorable) ?_ (get_revised run r)⟩
        show run.revised r.kept = _
        rw [h.kept]
      | adds => exact ⟨r, h.unwritten hok rfl rfl⟩
      | writes => exact ⟨r, h.unwritten hok rfl rfl⟩
      | reads hread =>
        rw [hread] at habout
        cases habout
    · refine ⟨r, h.unwritten hok (writing?_eq_none habout) ?_⟩
      cases hother : op.about? with
      | none =>
        cases hdoes with
        | reads => rfl
        | _ => cases hother
      | some other => exact (hdoes.change hother).row?_other fun heq => habout (heq ▸ hother)

theorem told_createRun {run : Run} (hrun : run.Storable) (hok : s.createRun run = .ok s') :
    Told run.id s' [.created run] run.kept := by
  obtain ⟨hnew, rfl⟩ := createRun_eq_ok hok
  refine ⟨?_, hrun.kept, rfl, fun _ => rfl⟩
  rw [row?_append, hnew]
  exact if_pos rfl

theorem Told.getRun (h : Told id s ws r) (hopen : s.isOpen = true) : s.getRun id = .ok r := by
  rw [getRun_of_row? hopen h.row, decode_encode h.storable, h.kept]

/-- The run is the only one with the values that were last written. -/
theorem Told.last_iff (h : Told id s ws r) (r' : Run) :
    (∀ f, lastWritten ws f = some (r'.get f)) ↔ r' = r := by
  constructor
  · intro hlast
    exact Run.eq_of_get fun f => Option.some.inj ((hlast f).symm.trans (h.last f))
  · rintro rfl
    exact h.last

/-- **A run is told by the history of what was written about it.** -/
theorem Told.run (h : Told id s ws r) {ops : List Operation}
    (hops : ∀ op ∈ ops, op.about? = some id → op.Storable) :
    ∃ r', Told id (s.run ops) (ws ++ s.history id ops) r' := by
  induction ops generalizing s ws r with
  | nil => exact ⟨r, (List.append_nil ws).symm ▸ h⟩
  | cons op rest ih =>
    obtain ⟨r', hnext⟩ := h.next (hops op (List.mem_cons_self ..))
    obtain ⟨r'', hrest⟩ := ih hnext fun x hx => hops x (List.mem_cons_of_mem _ hx)
    rw [List.append_assoc] at hrest
    exact ⟨r'', hrest⟩

/-! ### Reading rows back -/

end Store

def RunRow.reading (row : RunRow) : Run :=
  match Store.decode [] row with
  | .ok run => run
  | .error _ => default

/-- The row can be read, for whatever purpose. -/
def RunRow.Readable (row : RunRow) : Prop := ∀ place, Store.decode place row = .ok row.reading

theorem RunRow.reading_eq {row : RunRow} {run : Run} (h : ∀ place, Store.decode place row = .ok run) :
    row.reading = run := by
  unfold RunRow.reading
  rw [h]

theorem RunRow.readable_of_decode {row : RunRow} {run : Run}
    (h : ∀ place, Store.decode place row = .ok run) : row.Readable := by
  intro place
  rw [RunRow.reading_eq h, h]

namespace Store

variable {s : Store}

theorem mapM_decode (rows : List RunRow) (h : ∀ row ∈ rows, row.Readable) (place : Text) :
    rows.mapM (decode place) = .ok (rows.map RunRow.reading) := by
  induction rows with
  | nil => rfl
  | cons row rest ih =>
    rw [List.mapM_cons, h row (List.mem_cons_self ..) place,
      ih fun x hx => h x (List.mem_cons_of_mem _ hx)]
    rfl

theorem getRun_readable (hopen : s.isOpen = true) {id : Text} {row : RunRow}
    (hrow : s.row? id = some row) (h : row.Readable) : s.getRun id = .ok row.reading := by
  rw [getRun_of_row? hopen hrow, h]

theorem mem_of_mem_page {α : Type} {limit offset : Int} {xs : List α} {x : α}
    (h : x ∈ page limit offset xs) : x ∈ xs := by
  unfold page at h
  dsimp only at h
  split at h
  · exact List.mem_of_mem_drop h
  · exact List.mem_of_mem_drop (List.mem_of_mem_take h)

theorem listRuns_readable (hopen : s.isOpen = true) (h : ∀ row ∈ s.runs, row.Readable)
    (limit offset : Int) : s.listRuns limit offset =
      .ok (s.runs.length, (page limit offset (s.runs.mergeSort newer)).map RunRow.reading) := by
  have hrows := mapM_decode (page limit offset (s.runs.mergeSort newer))
    (fun row hrow => h row (List.mem_mergeSort.mp (mem_of_mem_page hrow))) "scan run"
  unfold listRuns
  dsimp only
  rw [need_of_open hopen, hrows]
  rfl

/-! ### Stores that only ever had runs that can be kept -/

/-- Every row is the row of a run that can be kept. -/
def Faithful (s : Store) : Prop := ∀ row ∈ s.runs, ∃ r : Run, r.Storable ∧ row = encode r

namespace Faithful
variable (h : s.Faithful)
include h

theorem readable {row : RunRow} (hrow : row ∈ s.runs) : row.Readable := by
  obtain ⟨r, hr, rfl⟩ := h row hrow
  exact RunRow.readable_of_decode (decode_encode hr)

theorem replace (id : Text) {f : RunRow → RunRow}
    (hf : ∀ r : Run, r.Storable → ∃ r' : Run, r'.Storable ∧ f (encode r) = encode r') :
    (s.replace id f).Faithful := by
  intro row hrow
  obtain ⟨old, hold, rfl⟩ := List.mem_map.mp hrow
  split
  · obtain ⟨r, hr, rfl⟩ := h old hold
    exact hf r hr
  · exact h old hold

theorem next {op : Operation} (hop : op.Storable) : (s.next op).Faithful := by
  rcases s.next_does op with heq | hdoes
  · rw [heq]
    exact h
  · generalize s.next op = s' at hdoes
    cases hdoes with
    | @creates run =>
      intro row hrow
      rcases List.mem_append.mp hrow with hold | hnew
      · exact h row hold
      · exact ⟨run, hop, List.mem_singleton.mp hnew⟩
    | @moves now id target =>
      exact h.replace id fun r hr =>
        ⟨r.moved now target, hr.moved hop target, (encode_moved now target r).symm⟩
    | @revises run =>
      exact h.replace run.id fun r hr =>
        ⟨run.revised r, hr.revised hop, (encode_revised run r).symm⟩
    | adds => exact h
    | writes => exact h
    | reads => exact h

theorem run {ops : List Operation} (hops : ∀ op ∈ ops, op.Storable) : (s.run ops).Faithful := by
  induction ops generalizing s with
  | nil => exact h
  | cons op rest ih =>
    exact ih (h.next (hops op (List.mem_cons_self ..))) fun x hx => hops x (List.mem_cons_of_mem _ hx)

end Faithful

/-- **What is read of a run is what was last written to each of its fields.** A run that is created is
read back as it was, and after any operations its fields have the values that were last written in
those of them that were accepted. Where only such runs were ever written, every run and every list of
runs can be read. -/
theorem getRun_eq_lastWritten :
    (∀ (s s' : Store) (run : Run), run.Storable → s.createRun run = .ok s' →
      s'.getRun run.id = .ok run.kept ∧
      ∀ ops : List Operation, (∀ op ∈ ops, op.about? = some run.id → op.Storable) →
        ∃ r, (s'.run ops).getRun run.id = .ok r ∧ ∀ r' : Run,
          (∀ f, lastWritten (.created run :: s'.history run.id ops) f = some (r'.get f)) ↔ r' = r) ∧
    ∀ (s : Store) (ops : List Operation), s.isOpen = true → s.runs = [] →
      (∀ op ∈ ops, op.Storable) →
      (∀ row ∈ (s.run ops).runs, ∃ r, (s.run ops).getRun row.id = .ok r) ∧
      ∀ limit offset : Int, ∃ runs, (s.run ops).listRuns limit offset = .ok runs := by
  constructor
  · intro s s' run hrun hok
    have hopen : s'.isOpen = true := (createRun_change hok).isOpen.trans (open_of_ok hok).1
    have htold := told_createRun hrun hok
    refine ⟨htold.getRun hopen, fun ops hops => ?_⟩
    obtain ⟨r, hr⟩ := htold.run hops
    exact ⟨r, hr.getRun ((s'.run_isOpen ops).trans hopen), hr.last_iff⟩
  · intro s ops hopen hnone hops
    have hopen' : (s.run ops).isOpen = true := (s.run_isOpen ops).trans hopen
    have hstart : s.Faithful := by
      intro row hrow
      rw [hnone] at hrow
      cases hrow
    have hfaithful := hstart.run hops
    refine ⟨fun row hrow => ?_, fun limit offset => ?_⟩
    · cases hfound : (s.run ops).row? row.id with
      | none => exact absurd rfl (row?_eq_none hfound row hrow)
      | some found =>
        exact ⟨_, getRun_readable hopen' hfound (hfaithful.readable (mem_of_row? hfound).1)⟩
    · exact ⟨_, listRuns_readable hopen' (fun _ => hfaithful.readable) limit offset⟩

/-- A run that is created, started and ended, with an update in between that is refused. -/
theorem getRun_eq_lastWritten_of_ended :
    let first : Run :=
      { (default : Run) with id := "a", status := .pending, engines := some [.pdr, .bmc] }
    let last : Run := { first with status := .completed, verdict := .sat, engine := .bmc }
    let ops : List Operation :=
      [.updateStatus 5 "a" .running, .updateStatus 6 "a" .pending, .updateRun last]
    let s : Store := { runs := [encode first] }
    first.Storable ∧ createRun {} first = .ok s ∧ (∀ op ∈ ops, op.Storable) ∧
    s.history "a" ops = [.moved 5 .running, .revised last] ∧
    (∃ r, (s.run ops).getRun "a" = .ok r ∧ ∀ r' : Run,
      (∀ f, lastWritten (.created first :: s.history "a" ops) f = some (r'.get f)) ↔ r' = r) ∧
    ∃ runs, (Store.run {} (.createRun first :: ops)).listRuns 10 0 = .ok runs := by
  intro first last ops s
  have hfirst : first.Storable := by
    refine ⟨⟨.inl rfl, fun t ht => ?_, fun t ht => ?_⟩, fun es hes => ?_, ?_⟩
    · cases ht
    · cases ht
    · cases hes
      exact ⟨["pdr", "bmc"], by decide⟩
    · exact Stamp.Writable.restored (by decide)
  have hlast : last.Updatable := by
    refine ⟨.inr (by decide), fun t ht => ?_, fun t ht => ?_⟩
    · cases ht
    · cases ht
  have hops : ∀ op ∈ ops, op.Storable := by
    intro op hop
    simp only [ops, List.mem_cons, List.not_mem_nil, or_false] at hop
    rcases hop with rfl | rfl | rfl
    · exact Stamp.Writable.restored (by decide)
    · exact Stamp.Writable.restored (by decide)
    · exact hlast
  have hcreated : createRun {} first = .ok s := rfl
  refine ⟨hfirst, hcreated, hops, rfl, ?_, ?_⟩
  · exact (getRun_eq_lastWritten.1 {} s first hfirst hcreated).2 ops fun op hop _ => hops op hop
  · refine (getRun_eq_lastWritten.2 {} (.createRun first :: ops) rfl rfl ?_).2 10 0
    intro op hop
    rcases List.mem_cons.mp hop with rfl | hop
    · exact hfirst
    · exact hops op hop

end Store
end Regatta
