import Regatta.Store.Ledger

/-! What the store's operations do to its rows.

A store that is open and refuses nothing (`Willing`) carries out what is asked of it. Changing a run
changes one row (`Rewrites`), and inserting a result adds one row to those of its run. -/
namespace Regatta

def RunRow.standing (row : RunRow) : Status := ⟨row.status⟩

def Ledger.resultRow (now : Instant) (run : Text) (seq : Int) (r : EngineResult) : ResultRow :=
  ⟨run, seq, r.engine.name, r.verdict.text, r.elapsed.map Store.millis, Stamp.ofInstant now⟩

namespace Store

variable {f : RunRow → RunRow}

theorem row?_replace (hf : ∀ r, (f r).id = r.id) (s : Store) (id other : Text) :
    (s.replace id f).row? other = (s.row? other).map fun r => if other = id then f r else r := by
  have hid : ∀ r : RunRow, ((if r.id == id then f r else r).id == other) = (r.id == other) := by
    intro r
    split
    · rw [hf]
    · rfl
  unfold row? replace
  rw [List.find?_map]
  simp only [Function.comp_def, hid]
  refine Option.map_congr fun r hr => ?_
  have hother : r.id = other := by simpa using List.find?_some hr
  simp [hother]

theorem row?_append (s : Store) (row : RunRow) (id : Text) :
    row? { s with runs := s.runs ++ [row] } id =
      (s.row? id).or (if row.id = id then some row else none) := by
  simp [row?, List.find?_append, List.find?_singleton]

theorem need_of_open {s : Store} (h : s.isOpen = true) (action : Text) :
    s.need action = .ok () := by
  rw [need, if_pos h]

theorem open_of_ok {α : Type} {s : Store} {action : Text} {f : Unit → Except StoreError α} {a : α}
    (h : (s.need action >>= f) = .ok a) : s.isOpen = true ∧ f () = .ok a := by
  unfold need at h
  split at h
  · exact ⟨‹_›, h⟩
  · cases h

theorem createRun_eq_ok {s s' : Store} {run : Run} (h : s.createRun run = .ok s') :
    s.row? run.id = none ∧ s' = { s with runs := s.runs ++ [encode run] } := by
  have hok := (open_of_ok h).2
  cases hrow : s.row? run.id with
  | none =>
    rw [hrow] at hok
    cases hok
    exact ⟨rfl, rfl⟩
  | some row =>
    rw [hrow] at hok
    cases hok

theorem insertLine_eq {s : Store} (h : s.isOpen = true) (now : Instant) (run : Text) (seq : Int)
    (line : Text) : s.insertLine now run seq line =
      .ok { s with lines := s.lines ++ [⟨s.lines.length + 1, run, seq, line, Stamp.ofInstant now⟩] } := by
  rw [insertLine, need_of_open h]
  rfl

theorem insertResult_eq {s : Store} (h : s.isOpen = true) (now : Instant) (run : Text) (seq : Int)
    (r : EngineResult) : s.insertResult now run seq r =
      .ok { s with results := s.results ++ [Ledger.resultRow now run seq r] } := by
  rw [insertResult, need_of_open h]
  rfl

def resultsOf (s : Store) (run : Text) : List ResultRow := s.results.filter (·.run == run)

end Store

namespace Ledger

structure Willing (l : Ledger) : Prop where
  refusals : l.refusals = []
  isOpen : l.store.isOpen = true

variable {l : Ledger} {row : RunRow}

theorem Willing.attempt {α : Type} (h : l.Willing) (operation : String)
    (f : Store → Except StoreError α) : l.attempt operation f = f l.store := by
  simp [Ledger.attempt, h.refusals]

theorem Willing.change (h : l.Willing) (operation : String) (f : Store → Except StoreError Store) :
    l.change operation f = (f l.store).map fun store => { l with store } := by
  rw [Ledger.change, h.attempt]

theorem Willing.need (h : l.Willing) (action : Text) :
    l.store.need action = .ok () := Store.need_of_open h.isOpen action

/-- The row of one run is another, and all else is as it was. -/
structure Rewrites (id : Text) (row : RunRow) (l l' : Ledger) : Prop where
  willing : l'.Willing
  row : l'.store.row? id = some row
  others : ∀ other, other ≠ id → l'.store.row? other = l.store.row? other
  results : l'.store.results = l.store.results

theorem rewrites_replace (h : l.Willing) {id : Text}
    (hrow : l.store.row? id = some row) {f : RunRow → RunRow} (hf : ∀ r, (f r).id = r.id) :
    Rewrites id (f row) l { l with store := l.store.replace id f } where
  willing := ⟨h.refusals, h.isOpen⟩
  row := by simp [Store.row?_replace hf, hrow]
  others _ hne := by simp [Store.row?_replace hf, hne]
  results := rfl

theorem updateStatus_ok (h : l.Willing) {id : Text}
    (hrow : l.store.row? id = some row) (now : Instant) {target : Status}
    (ht : Status.allows ⟨row.status⟩ target = true) :
    ∃ l', l.updateStatus now id target = .ok l' ∧ Rewrites id (Store.move now target row) l l' := by
  refine ⟨_, ?_, rewrites_replace h hrow (f := Store.move now target) fun r => ?_⟩
  · unfold Ledger.updateStatus Store.updateStatus
    rw [h.change, h.need, hrow]
    dsimp only
    rw [ht]
    rfl
  · unfold Store.move
    dsimp only
    split
    · rfl
    · split <;> rfl

theorem updateRun_ok (h : l.Willing) {run : Run}
    (hrow : l.store.row? run.id = some row) (ht : Status.allows ⟨row.status⟩ run.status = true) :
    ∃ l', l.updateRun run = .ok l' ∧ Rewrites run.id (Store.overwrite run row) l l' := by
  refine ⟨_, ?_, rewrites_replace h hrow (f := Store.overwrite run) fun r => rfl⟩
  unfold Ledger.updateRun Store.updateRun
  rw [h.change, h.need, hrow]
  dsimp only
  rw [ht, Bool.or_true]
  rfl

/-- All rows of runs are as they were, and these results came to those that are kept. -/
structure Gains (rows : List ResultRow) (l l' : Ledger) : Prop where
  willing : l'.Willing
  runs : ∀ id, l'.store.row? id = l.store.row? id
  results : l'.store.results = l.store.results ++ rows

theorem insertLine_ok (h : l.Willing) (now : Instant) (run : Text) (seq : Int)
    (line : Text) : ∃ l', l.insertLine now run seq line = .ok l' ∧ Gains [] l l' := by
  have hinsert := h.change "InsertLogLine" (·.insertLine now run seq line)
  rw [Store.insertLine_eq h.isOpen] at hinsert
  exact ⟨_, hinsert, ⟨h.refusals, h.isOpen⟩, fun _ => rfl, (List.append_nil _).symm⟩

theorem insertResult_ok (h : l.Willing) (now : Instant) (run : Text) (seq : Int)
    (r : EngineResult) : ∃ l', l.insertResult now run seq r = .ok l' ∧
      Gains [resultRow now run seq r] l l' := by
  have hinsert := h.change "InsertEngineResult" (·.insertResult now run seq r)
  rw [Store.insertResult_eq h.isOpen] at hinsert
  exact ⟨_, hinsert, ⟨h.refusals, h.isOpen⟩, fun _ => rfl, rfl⟩

theorem change_eq_ok {l' : Ledger} {operation : String}
    {f : Store → Except StoreError Store} (h : l.change operation f = .ok l') :
    f l.store = .ok l'.store ∧ l'.refusals = l.refusals := by
  unfold change attempt at h
  split at h
  · cases h
  · cases hf : f l.store with
    | error e =>
      rw [hf] at h
      cases h
    | ok store =>
      rw [hf] at h
      cases h
      exact ⟨rfl, rfl⟩

theorem store_createRun {l' : Ledger} {interrupted : Bool} {run : Run}
    (h : l.createRun interrupted run = .ok l') : l.store.createRun run = .ok l'.store := by
  have hcreate := (Store.open_of_ok (change_eq_ok h).1).2
  cases interrupted with
  | true => cases hcreate
  | false => exact hcreate

theorem createRun_eq_ok {l' : Ledger} (h : l.Willing) {interrupted : Bool} {run : Run}
    (hc : l.createRun interrupted run = .ok l') :
    l.store.row? run.id = none ∧ Rewrites run.id (Store.encode run) l l' := by
  obtain ⟨hnew, hstore⟩ := Store.createRun_eq_ok (store_createRun hc)
  have hfind := l.store.row?_append (Store.encode run)
  rw [← hstore] at hfind
  refine ⟨hnew, ⟨(change_eq_ok hc).2.trans h.refusals, ?_⟩, ?_, fun other hne => ?_, ?_⟩
  · rw [hstore]
    exact h.isOpen
  · rw [hfind, hnew]
    exact if_pos rfl
  · have hid : (Store.encode run).id ≠ other := Ne.symm hne
    rw [hfind, if_neg hid, Option.or_none]
  · rw [hstore]

end Ledger
end Regatta
