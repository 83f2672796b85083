import Mathlib.Data.List.Perm.Basic
import Regatta.Proofs.Store.Operations
import Regatta.Proofs.Store.Reading

/-! The lines and the results that a store keeps for a run.

A row goes to the end of its table, whoever keeps it and whatever its number; only reading puts the
rows of a run in order, and loses none (`read_sorted`). Where the numbers of lines are those from zero
on, what is read back is the lines in the order of their numbers (`getLines_of_perm`). Where no number
comes twice it does not matter in which order rows are inserted, nor what is inserted for other runs
(`inserted_read_back`). -/
namespace Regatta

namespace Store

/-! ### Reading in order -/

section Order
variable {ρ τ α : Type} {decode : ρ → Except StoreError τ} {number : ρ → Int} {view : τ → Int × α}
  {rows : List ρ} {xs ys zs : List (Int × α)}

/-- The same in the order of its numbers, none of which comes twice. -/
structure Sorts (xs ys : List (Int × α)) : Prop where
  perm : xs.Perm ys
  rising : xs.Pairwise fun a b => a.1 < b.1

theorem Sorts.unique (h : Sorts xs zs) (h' : Sorts ys zs) : xs = ys :=
  List.Perm.eq_of_pairwise (fun _ _ _ _ hab hba => absurd hab (Int.not_lt.mpr (Int.le_of_lt hba)))
    h.rising h'.rising (h.perm.trans h'.perm.symm)

/-- What is read off a row has the row's number. -/
def Reads (decode : ρ → Except StoreError τ) (number : ρ → Int) (view : τ → Int × α) (row : ρ)
    (x : Int × α) : Prop := number row = x.1 ∧ ∃ y, decode row = .ok y ∧ view y = x

theorem mapM_reads (h : List.Forall₂ (Reads decode number view) rows xs) :
    rows.map number = xs.map Prod.fst ∧ ∃ out, rows.mapM decode = .ok out ∧ out.map view = xs := by
  induction h with
  | nil => exact ⟨rfl, [], rfl, rfl⟩
  | cons hrow _ ih =>
    obtain ⟨hnumber, y, hy, rfl⟩ := hrow
    obtain ⟨hnumbers, out, hout, rfl⟩ := ih
    refine ⟨by rw [List.map_cons, hnumber, hnumbers]; rfl, y :: out, ?_, rfl⟩
    rw [List.mapM_cons, hy, hout]
    rfl

theorem read_sorted (h : List.Forall₂ (Reads decode number view) rows xs)
    (hnodup : (xs.map Prod.fst).Nodup) :
    ∃ out, (rows.mergeSort fun a b => number a ≤ number b).mapM decode = .ok out ∧
      Sorts (out.map view) xs := by
  obtain ⟨ys, hys, hperm⟩ := List.perm_comp_forall₂
    (List.mergeSort_perm rows fun a b => number a ≤ number b) h
  obtain ⟨hnumbers, out, hout, rfl⟩ := mapM_reads hys
  have hle : ((out.map view).map Prod.fst).Pairwise (· ≤ ·) := by
    rw [← hnumbers, List.pairwise_map]
    refine (List.pairwise_mergeSort (fun a b c hab hbc => ?_) (fun a b => ?_) rows).imp
      fun hle => by simpa using hle
    · simp only [decide_eq_true_eq] at hab hbc ⊢
      omega
    · simp only [Bool.or_eq_true, decide_eq_true_eq]
      omega
  have hne : ((out.map view).map Prod.fst).Nodup := (hperm.map _).nodup_iff.mpr hnodup
  refine ⟨out, hout, hperm, List.pairwise_map.mp ?_⟩
  exact hle.imp₂ (fun _ _ hle hne => Int.lt_iff_le_and_ne.mpr ⟨hle, hne⟩) hne

end Order

/-- The lines that are kept for a run, in the order in which they came in. -/
def linesOf (s : Store) (run : Text) : List LineRow := s.lines.filter (·.run == run)

def readLine (r : LineRow) : Except StoreError LogLine := do
  return ⟨r.id, r.run, r.seq, r.line, ← time "scan log line" "created_at" r.createdAt⟩

theorem getLines_eq {s : Store} (h : s.isOpen = true) (run : Text) : s.getLines run =
    ((s.linesOf run).mergeSort fun a b => a.seq ≤ b.seq).mapM readLine := by
  rw [getLines, need_of_open h]
  rfl

theorem readLine_dated {t : Instant} (ht : Stamp.Writable t) (id : Nat) (run : Text) (seq : Int)
    (line : Text) : readLine ⟨id, run, seq, line, Stamp.ofInstant t⟩ = .ok ⟨id, run, seq, line, t⟩ := by
  unfold readLine
  rw [time_ofInstant ht]
  rfl

/-- Only what is inserted for a run adds to its rows. -/
theorem rowsOf_next {s : Store} {op : Operation} {id : Text} :
    ((∀ now seq line, op ≠ .insertLine now id seq line) →
      (s.next op).linesOf id = s.linesOf id) ∧
    ((∀ now seq r, op ≠ .insertResult now id seq r) →
      (s.next op).resultsOf id = s.resultsOf id) := by
  rcases s.next_does op with heq | hdoes
  · rw [heq]
    exact ⟨fun _ => rfl, fun _ => rfl⟩
  · generalize s.next op = s' at hdoes
    cases hdoes with
    | @writes now run seq line =>
      refine ⟨fun h => ?_, fun _ => rfl⟩
      have hother : run ≠ id := fun hid => h now seq line (hid ▸ rfl)
      simp [linesOf, hother]
    | @adds now run seq r =>
      refine ⟨fun _ => rfl, fun h => ?_⟩
      have hother : run ≠ id := fun hid => h now seq r (hid ▸ rfl)
      simp [resultsOf, Ledger.resultRow, hother]
    | _ => exact ⟨fun _ => rfl, fun _ => rfl⟩

/-! ### Numbers from zero on -/

def Dated (row : LineRow) : Prop := ∃ t, Stamp.Writable t ∧ row.createdAt = Stamp.ofInstant t

def inOrder (texts : List Text) : List (Int × Text) :=
  texts.zipIdx.map fun x => ((x.2 : Int), x.1)

section InOrder
variable (texts : List Text)

theorem map_fst_inOrder :
    (inOrder texts).map (·.1) = (List.range texts.length).map fun i : Nat => (i : Int) := by
  rw [List.range_eq_range', ← List.zipIdx_map_snd 0 texts, inOrder, List.map_map, List.map_map]
  rfl

theorem map_snd_inOrder : (inOrder texts).map (·.2) = texts := by
  rw [inOrder, List.map_map]
  exact List.zipIdx_map_fst 0 texts

theorem rising_inOrder : ((inOrder texts).map (·.1)).Pairwise (· < ·) := by
  rw [map_fst_inOrder, List.pairwise_map]
  exact List.pairwise_lt_range.imp fun hlt => Int.ofNat_lt.mpr hlt

end InOrder
end Store

namespace Ledger.Willing

variable {l : Ledger} (h : l.Willing)
include h

/-- A line that is kept comes last among those of its run. -/
theorem insertLine (now : Instant) (run : Text) (seq : Int) (line : Text) :
    ∃ l' row, l.insertLine now run seq line = .ok l' ∧ l'.Willing ∧
      l'.store.linesOf run = l.store.linesOf run ++ [row] ∧
      (row.seq, row.line) = (seq, line) ∧ row.createdAt = Stamp.ofInstant now := by
  have hinsert := h.change "InsertLogLine" (·.insertLine now run seq line)
  rw [Store.insertLine_eq h.isOpen] at hinsert
  exact ⟨_, ⟨l.store.lines.length + 1, run, seq, line, Stamp.ofInstant now⟩, hinsert,
    ⟨h.refusals, h.isOpen⟩, by simp [Store.linesOf], rfl, rfl⟩

theorem getLines_of_perm {id : Text} {texts : List Text}
    (hperm : ((l.store.linesOf id).map fun row => (row.seq, row.line)).Perm (Store.inOrder texts))
    (hdated : ∀ row ∈ l.store.linesOf id, Store.Dated row) :
    ∃ rows, l.getLines id = .ok rows ∧ rows.map (fun r => (r.seq, r.line)) = Store.inOrder texts := by
  have hreads : List.Forall₂ (Store.Reads Store.readLine LineRow.seq fun l => (l.seq, l.line))
      (l.store.linesOf id) ((l.store.linesOf id).map fun row => (row.seq, row.line)) := by
    rw [List.forall₂_map_right_iff, List.forall₂_same]
    intro row hrow
    obtain ⟨t, ht, hstamp⟩ := hdated row hrow
    obtain ⟨id, run, seq, line, stamp⟩ := row
    cases hstamp
    exact ⟨rfl, _, Store.readLine_dated ht .., rfl⟩
  have hrising := Store.rising_inOrder texts
  obtain ⟨out, hout, hsorts⟩ :=
    Store.read_sorted hreads ((hperm.map _).nodup_iff.mpr (hrising.imp Int.ne_of_lt))
  refine ⟨out, ?_, hsorts.unique ⟨hperm.symm, List.pairwise_map.mp hrising⟩⟩
  rw [← hout, Ledger.getLines, h.attempt, Store.getLines_eq h.isOpen]

end Ledger.Willing

/-! ### Insertions -/

/-- What a line tells beside its row's id and its time: its number, its run and its text. -/
abbrev LineEntry := Int × Text × Text

abbrev ResultEntry := Int × Text × Engine × Verdict × Option Int

def LogLine.entry (l : LogLine) : LineEntry := (l.seq, l.run, l.line)

def ResultRecord.entry (r : ResultRecord) : ResultEntry := (r.seq, r.run, r.told)

namespace Store
namespace Operation

/-- An insertion at a time that can be written down; the engine of a result has a name, or there is
none. -/
def Inserts : Operation → Prop
  | .insertLine now .. => Stamp.Writable now
  | .insertResult now _ _ r => Stamp.Writable now ∧ (r.engine = .none ∨ r.engine ∈ Engine.all)
  | _ => False

/-- The line that is inserted for a run. -/
def lineFor? (id : Text) : Operation → Option LineEntry
  | .insertLine _ run seq line => if run = id then some (seq, run, line) else none
  | _ => none

/-- The result that is inserted for a run, its time in whole milliseconds. -/
def resultFor? (id : Text) : Operation → Option ResultEntry
  | .insertResult _ run seq r =>
    if run = id then some (seq, run, r.engine, r.verdict, r.elapsed.map (Int.tdiv · 1000000)) else none
  | _ => none

end Operation

section Insertions
variable {id : Text} {lines : List LineEntry} {results : List ResultEntry} {s : Store}

/-- The store has kept these lines and these results for a run, in this order. -/
structure Holds (id : Text) (lines : List LineEntry) (results : List ResultEntry) (s : Store) :
    Prop where
  isOpen : s.isOpen = true
  lines : List.Forall₂ (Reads readLine LineRow.seq LogLine.entry) (s.linesOf id) lines
  results : List.Forall₂ (Reads decodeResult ResultRow.seq ResultRecord.entry) (s.resultsOf id) results

/-- What is read back for a run, the ids of rows and the times apart. -/
def Shows (s : Store) (id : Text) (lines : List LineEntry) (results : List ResultEntry) : Prop :=
  ∃ ls rs, s.getLines id = .ok ls ∧ s.getResults id = .ok rs ∧ ls.map LogLine.entry = lines ∧
    rs.map ResultRecord.entry = results

namespace Holds
variable (h : Holds id lines results s)
include h

theorem attempt {op : Operation} (hop : op.Inserts) : ∃ s', op.attempt s = .ok s' ∧
      Holds id (lines ++ (op.lineFor? id).toList) (results ++ (op.resultFor? id).toList) s' := by
  cases op with
  | insertLine now run seq line =>
    refine ⟨_, insertLine_eq h.isOpen .., h.isOpen, ?_, (List.append_nil results).symm ▸ h.results⟩
    rw [linesOf, List.filter_append]
    refine List.rel_append h.lines ?_
    by_cases hrun : run = id
    · simp [Operation.lineFor?, hrun, Reads, readLine_dated hop, LogLine.entry]
    · simp [Operation.lineFor?, hrun]
  | insertResult now run seq r =>
    refine ⟨_, insertResult_eq h.isOpen .., h.isOpen, (List.append_nil lines).symm ▸ h.lines, ?_⟩
    rw [resultsOf, List.filter_append]
    refine List.rel_append h.results ?_
    have hreads : Reads decodeResult ResultRow.seq ResultRecord.entry
        (Ledger.resultRow now run seq r)
        (seq, run, r.engine, r.verdict, r.elapsed.map (Int.tdiv · 1000000)) :=
      ⟨rfl, _, decodeResult_resultRow hop.1 hop.2 run seq, rfl⟩
    by_cases hrun : run = id
    · simpa [Operation.resultFor?, hrun, Ledger.resultRow] using hreads
    · simp [Operation.resultFor?, hrun, Ledger.resultRow]
  | _ => exact hop.elim

theorem attempts {ops : List Operation}
    (hops : ∀ op ∈ ops, op.Inserts) : ∃ s', ops.foldlM Operation.attempt s = .ok s' ∧
      Holds id (lines ++ ops.filterMap (·.lineFor? id)) (results ++ ops.filterMap (·.resultFor? id))
        s' := by
  induction ops generalizing lines results s with
  | nil => exact ⟨s, rfl, by simpa using h⟩
  | cons op rest ih =>
    obtain ⟨hop, hrest⟩ := List.forall_mem_cons.mp hops
    obtain ⟨s₁, hs₁, hfirst⟩ := h.attempt hop
    obtain ⟨s', hs', hlast⟩ := ih hfirst hrest
    refine ⟨s', ?_, ?_⟩
    · rw [List.foldlM_cons, hs₁]
      exact hs'
    · cases hline : op.lineFor? id <;> cases hresult : op.resultFor? id <;>
        simpa [hline, hresult] using hlast

theorem shows (hlines : (lines.map Prod.fst).Nodup) (hresults : (results.map Prod.fst).Nodup) :
    ∃ lines' results', s.Shows id lines' results' ∧ Sorts lines' lines ∧ Sorts results' results := by
  obtain ⟨ls, hls, hline⟩ := read_sorted h.lines hlines
  obtain ⟨rs, hrs, hresult⟩ := read_sorted h.results hresults
  exact ⟨_, _, ⟨ls, rs, (getLines_eq h.isOpen id).trans hls, (getResults_eq h.isOpen id).trans hrs,
    rfl, rfl⟩, hline, hresult⟩

end Holds

/-- Neither what is read of a run nor whether it is refused depends on what is written of others. -/
theorem read_next {op : Operation} (h : op.about? ≠ some id) :
    (s.next op).getLines id = s.getLines id ∧ (s.next op).getResults id = s.getResults id := by
  have hlines : (s.next op).linesOf id = s.linesOf id :=
    rowsOf_next.1 fun now seq line heq => h (heq ▸ rfl)
  have hresults : (s.next op).resultsOf id = s.resultsOf id :=
    rowsOf_next.2 fun now seq r heq => h (heq ▸ rfl)
  unfold linesOf at hlines
  unfold resultsOf at hresults
  unfold getLines getResults need
  rw [next_isOpen, hlines, hresults]
  exact ⟨rfl, rfl⟩

end Insertions

/-- **What is inserted for a run is read back by number, whatever the order of the insertions.** No line
and no result is lost, and each comes once; the answers are those of any other series that inserts the
same for the run, and no operation on another run changes them. -/
theorem inserted_read_back {id : Text} {s : Store} (hs : Holds id [] [] s) {ops : List Operation}
    (hops : ∀ op ∈ ops, op.Inserts)
    (hlines : ((ops.filterMap (·.lineFor? id)).map Prod.fst).Nodup)
    (hresults : ((ops.filterMap (·.resultFor? id)).map Prod.fst).Nodup) :
    ∃ s' lines results, ops.foldlM Operation.attempt s = .ok s' ∧ s'.Shows id lines results ∧
      Sorts lines (ops.filterMap (·.lineFor? id)) ∧ Sorts results (ops.filterMap (·.resultFor? id)) ∧
      (∀ (t : Store) (others : List Operation), Holds id [] [] t → (∀ op ∈ others, op.Inserts) →
        (others.filterMap (·.lineFor? id)).Perm (ops.filterMap (·.lineFor? id)) →
        (others.filterMap (·.resultFor? id)).Perm (ops.filterMap (·.resultFor? id)) →
        ∃ t', others.foldlM Operation.attempt t = .ok t' ∧ t'.Shows id lines results) ∧
      ∀ (t : Store) (op : Operation), op.about? ≠ some id →
        (t.next op).getLines id = t.getLines id ∧ (t.next op).getResults id = t.getResults id := by
  obtain ⟨s', hs', hholds⟩ := hs.attempts hops
  obtain ⟨lines, results, hshows, hline, hresult⟩ := hholds.shows hlines hresults
  refine ⟨s', lines, results, hs', hshows, hline, hresult, ?_, fun t op => read_next⟩
  intro t others ht hothers hsame hsameResults
  obtain ⟨t', ht', hheld⟩ := ht.attempts hothers
  obtain ⟨lines', results', hshown, hline', hresult'⟩ := hheld.shows
    ((hsame.map _).nodup_iff.mpr hlines) ((hsameResults.map _).nodup_iff.mpr hresults)
  have heq : lines' = lines := Sorts.unique ⟨hline'.perm.trans hsame, hline'.rising⟩ hline
  have heqResults : results' = results :=
    Sorts.unique ⟨hresult'.perm.trans hsameResults, hresult'.rising⟩ hresult
  exact ⟨t', ht', heq ▸ heqResults ▸ hshown⟩

/-- Later numbers come first, and a line of another run has one of them. -/
def mixed : List Operation :=
  [.insertLine 20 "a" 7 "late", .insertResult 10 "a" 3 ⟨.unsat, .pdr, some 1999999⟩,
    .insertLine 5 "b" 7 "other", .insertResult 30 "a" (-1) ⟨.unknown, .none, none⟩,
    .insertLine 1 "a" 2 "early"]

theorem inserted_read_back_mixed : ∃ s', mixed.foldlM Operation.attempt ⟨[], [], [], true⟩ = .ok s' ∧
    s'.Shows "a" [(2, "a", "early"), (7, "a", "late")]
      [(-1, "a", .none, .unknown, none), (3, "a", .pdr, .unsat, some 1)] := by
  have hops : ∀ op ∈ mixed, op.Inserts := by
    simp only [mixed, List.forall_mem_cons, List.not_mem_nil, false_implies, implies_true,
      Operation.Inserts]
    decide
  have hs : Holds "a" [] [] ⟨[], [], [], true⟩ := ⟨rfl, .nil, .nil⟩
  obtain ⟨s', lines, results, hs', hshows, hline, hresult, -⟩ :=
    inserted_read_back hs hops (by decide) (by decide)
  have hfirst : lines = ([(2, "a", "early"), (7, "a", "late")] : List LineEntry) :=
    hline.unique ⟨by decide, by decide⟩
  have hsecond : results = ([(-1, "a", .none, .unknown, none), (3, "a", .pdr, .unsat, some 1)] :
      List ResultEntry) := hresult.unique ⟨by decide, by decide⟩
  exact ⟨s', hs', hfirst ▸ hsecond ▸ hshows⟩

end Store
end Regatta
