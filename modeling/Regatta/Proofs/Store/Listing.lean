import Regatta.Proofs.Store.Fields
import Regatta.Proofs.Text.Order
import Regatta.Proofs.Time.Chronology

/-! Runs are listed newest first, page by page.

Rows are sorted by the texts of their times. A text says the year first and the fraction last, each
number with all its digits except for the zeros that end a fraction, and what follows a fraction sorts
before every digit. So earlier instants have earlier texts (`Stamp.below_ofInstant`), rows are sorted
by the instants at which their runs were created (`pairwise_newer`), and each page has the runs that
stand at its positions. -/
namespace Regatta

/-! ### The order of stamps -/

theorem Calendar.Lex.imp {a b : Int} {p q : Prop} (h : Lex a b p) (hpq : p → q) : Lex a b q :=
  Or.imp_right (And.imp_right hpq) h

namespace Stamp

/-- A number that is written with all its digits decides, and what follows it where it is the same. -/
theorem below_part {w m n : Nat} (hw : 0 < w) (hn : n < Number.tenTo w) {t u : Text}
    (h : Calendar.Lex m n (Text.Below t u)) :
    Text.Below (Text.padded w m ++ t) (Text.padded w n ++ u) := by
  rcases h with hlt | ⟨heq, hbelow⟩
  · exact (Text.below_padded hw hn (Int.ofNat_lt.mp hlt)).append t u
  · rw [Int.ofNat_inj.mp heq]
    exact hbelow.prepend _

theorem below_fraction {c c' : Calendar} (hnanos : c'.nanos < Number.tenTo 9)
    (h : c.nanos < c'.nanos) :
    Text.Below (c.fractionText ++ zone) (c'.fractionText ++ zone) := by
  have htext : ∀ c : Calendar, c.nanos ≠ 0 → c.fractionText =
      46 :: ((Text.padded 9 c.nanos).reverse.dropWhile (· == 48)).reverse := by
    intro c hc
    simp only [Calendar.fractionText, beq_iff_eq, hc, if_false]
    rfl
  have hzone : zone = 32 :: zone.drop 1 := by decide
  rw [htext c' (by omega)]
  by_cases hzero : c.nanos = 0
  · -- no fraction: the blank that follows sorts before a point
    have hnone : c.fractionText = [] := by simp [Calendar.fractionText, hzero]
    rw [hnone, hzone]
    exact .here (by decide)
  · obtain ⟨k, hk⟩ := exists_significant c.nanos
    obtain ⟨l, hl⟩ := exists_significant c'.nanos
    have hbelow : Text.Below (Text.padded 9 c.nanos) (Text.padded 9 c'.nanos) :=
      Text.below_padded (by decide) hnanos h
    have hdigits : ∀ {n k : Nat} {ds : Text}, Text.padded 9 n = ds ++ List.replicate k 48 →
        ∀ b ∈ ds, Text.isDigit b = true :=
      fun h b hb => Text.isDigit_of_mem_padded (h ▸ List.mem_append_left _ hb)
    rw [htext c hzero, hzone]
    generalize ((Text.padded 9 c.nanos).reverse.dropWhile (· == 48)).reverse = ds at hk
    generalize ((Text.padded 9 c'.nanos).reverse.dropWhile (· == 48)).reverse = es at hl
    rw [hk, hl] at hbelow
    exact .there (hbelow.trimmed (hdigits hk) (hdigits hl) (by decide) _)

/-- **An earlier instant has an earlier stamp.** -/
theorem below_ofInstant {t u : Instant} (ht : Writable t) (hu : Writable u) (h : t < u) :
    Text.Below (ofInstant t) (ofInstant u) := by
  have hbefore := Calendar.before_ofInstant h
  obtain ⟨hmonth, hday, hhour, hminute, hsecond, hnanos⟩ := Calendar.valid_ofInstant u
  have hdays := Calendar.daysIn_le (Calendar.ofInstant u).year (Calendar.ofInstant u).month
  unfold Writable at ht hu
  unfold ofInstant
  dsimp only
  generalize Calendar.ofInstant t = c at *
  generalize Calendar.ofInstant u = c' at *
  have hyear : ∀ c : Calendar, 0 ≤ c.year → Calendar.yearText c.year = Text.padded 4 c.year.toNat := by
    intro c hc
    unfold Calendar.yearText
    rw [if_neg (by omega)]
  unfold Calendar.Before Calendar.DateLex at hbefore
  rw [← Int.toNat_of_nonneg ht.1, ← Int.toNat_of_nonneg hu.1] at hbefore
  simp only [Calendar.dateText, Calendar.clockText, hyear c ht.1, hyear c' hu.1, List.append_assoc]
  have htwo : ∀ n, n < 100 → n < Number.tenTo 2 := fun _ hn => hn
  refine below_part (by decide) (show _ < 10000 by omega) (hbefore.imp fun h => ?_)
  refine .prepend "-" (below_part (by decide) (htwo _ (by omega)) (h.imp fun h => ?_))
  refine .prepend "-" (below_part (by decide) (htwo _ (by omega)) (h.imp fun h => ?_))
  refine .prepend " " (below_part (by decide) (htwo _ (by omega)) (h.imp fun h => ?_))
  refine .prepend ":" (below_part (by decide) (htwo _ (by omega)) (h.imp fun h => ?_))
  refine .prepend ":" (below_part (by decide) (htwo _ (by omega)) (h.imp fun h => ?_))
  exact below_fraction hnanos h

theorem ofInstant_inj {t u : Instant} (ht : Writable t) (hu : Writable u)
    (h : ofInstant t = ofInstant u) : t = u := by
  have hread := toInstant?_ofInstant ht
  rw [h, toInstant?_ofInstant hu] at hread
  exact (Option.some.inj hread).symm

theorem lt_of_le_ofInstant {t u : Instant} (ht : Writable t) (hu : Writable u)
    (hle : Text.le (ofInstant t) (ofInstant u) = true) (hne : ofInstant t ≠ ofInstant u) : t < u := by
  rcases Int.lt_trichotomy t u with hlt | heq | hgt
  · exact hlt
  · exact absurd (congrArg ofInstant heq) hne
  · have hback := below_ofInstant hu ht hgt
    exact absurd (Text.le_antisymm hle hback.le) hne

end Stamp

/-! ### The order of rows -/

namespace Store

theorem newer_iff {a b : RunRow} : newer a b = true ↔
    (a.createdAt = b.createdAt ∧ Text.le b.id a.id = true) ∨
      (a.createdAt ≠ b.createdAt ∧ Text.le b.createdAt a.createdAt = true) := by
  unfold newer
  by_cases h : a.createdAt = b.createdAt <;> simp [h]

theorem newer_total (a b : RunRow) : (newer a b || newer b a) = true := by
  rw [Bool.or_eq_true, newer_iff, newer_iff]
  by_cases h : a.createdAt = b.createdAt
  · rcases Text.le_total b.id a.id with hle | hle
    · exact .inl (.inl ⟨h, hle⟩)
    · exact .inr (.inl ⟨h.symm, hle⟩)
  · rcases Text.le_total b.createdAt a.createdAt with hle | hle
    · exact .inl (.inr ⟨h, hle⟩)
    · exact .inr (.inr ⟨Ne.symm h, hle⟩)

theorem newer_trans (a b c : RunRow) (hab : newer a b = true) (hbc : newer b c = true) :
    newer a c = true := by
  rw [newer_iff] at hab hbc ⊢
  rcases hab with ⟨hab, hid⟩ | ⟨hab, hle⟩
  · rw [hab]
    exact hbc.imp_left fun h => ⟨h.1, Text.le_trans h.2 hid⟩
  · rcases hbc with ⟨hbc, -⟩ | ⟨hbc, hle'⟩
    · rw [← hbc]
      exact .inr ⟨hab, hle⟩
    · refine .inr ⟨fun hac => ?_, Text.le_trans hle' hle⟩
      -- otherwise the one in between has the same text
      rw [← hac] at hle' hbc
      exact hbc (Text.le_antisymm hle hle')

end Store

/-! ### Rows that can be listed -/

/-- Every column can be read, and the run was created in a year of four digits. -/
structure RunRow.Intact (row : RunRow) : Prop where
  engines : ∃ es, Store.splitEngines row.engines = .ok es
  engine : ∃ e, Engine.ofText row.engine = .ok e
  created : ∃ t, Stamp.Writable t ∧ row.createdAt = Stamp.ofInstant t
  started : ∀ stamp, row.startedAt = some stamp → ∃ t, Stamp.toInstant? stamp = some t
  finished : ∀ stamp, row.finishedAt = some stamp → ∃ t, Stamp.toInstant? stamp = some t

/-- The run was created after another, or at the same instant and has the larger id. -/
def Run.Newer (a b : Run) : Prop :=
  b.createdAt < a.createdAt ∨
    (a.createdAt = b.createdAt ∧ Text.le b.id a.id = true ∧ b.id ≠ a.id)

namespace RunRow.Intact

variable {row row' : RunRow}

theorem decode (h : row.Intact) : ∃ run : Run, (∀ place, Store.decode place row = .ok run) ∧
    run.id = row.id ∧ Stamp.Writable run.createdAt ∧ Stamp.ofInstant run.createdAt = row.createdAt := by
  have htime? : ∀ stamp : Option Text, (∀ x, stamp = some x → ∃ t, Stamp.toInstant? x = some t) →
      ∃ t, ∀ place column, Store.time? place column stamp = .ok t := by
    intro stamp hstamp
    cases stamp with
    | none => exact ⟨none, fun _ _ => rfl⟩
    | some x =>
      obtain ⟨t, ht⟩ := hstamp x rfl
      refine ⟨some t, fun place column => ?_⟩
      show some <$> Store.time place column x = _
      unfold Store.time
      rw [ht]
      rfl
  obtain ⟨es, hes⟩ := h.engines
  obtain ⟨e, he⟩ := h.engine
  obtain ⟨created, hwritable, hcreated⟩ := h.created
  obtain ⟨started, hstarted⟩ := htime? _ h.started
  obtain ⟨finished, hfinished⟩ := htime? _ h.finished
  have htime : ∀ place column, Store.time place column row.createdAt = .ok created := by
    rw [hcreated]
    exact Store.time_ofInstant hwritable
  exact ⟨_, fun place => Store.decode_columns (htime place _) (hstarted place _) (hfinished place _) hes
    he, rfl, hwritable, hcreated.symm⟩

theorem readable (h : row.Intact) : row.Readable := by
  obtain ⟨run, hrun, -⟩ := h.decode
  exact readable_of_decode hrun

theorem id_reading (h : row.Intact) : row.reading.id = row.id := by
  obtain ⟨run, hrun, hid, -⟩ := h.decode
  rw [reading_eq hrun, hid]

theorem createdAt_reading (h : row.Intact) : Stamp.Writable row.reading.createdAt ∧
    Stamp.ofInstant row.reading.createdAt = row.createdAt := by
  obtain ⟨run, hrun, -, hcreated⟩ := h.decode
  rw [reading_eq hrun]
  exact hcreated

theorem newer (h : row.Intact) (h' : row'.Intact) (hne : row.id ≠ row'.id)
    (hnewer : Store.newer row row' = true) : row.reading.Newer row'.reading := by
  obtain ⟨hwritable, hstamp⟩ := h.createdAt_reading
  obtain ⟨hwritable', hstamp'⟩ := h'.createdAt_reading
  unfold Run.Newer
  rw [h.id_reading, h'.id_reading]
  rw [Store.newer_iff, ← hstamp, ← hstamp'] at hnewer
  rcases hnewer with ⟨heq, hid⟩ | ⟨hdiffers, hle⟩
  · exact .inr ⟨Stamp.ofInstant_inj hwritable hwritable' heq, hid, hne.symm⟩
  · exact .inl (Stamp.lt_of_le_ofInstant hwritable' hwritable hle hdiffers.symm)

end RunRow.Intact

/-! ### Pages -/

namespace Store

variable {s : Store}

/-- All runs of a store, in the order in which they are listed. -/
structure Ranks (s : Store) (all : List Run) : Prop where
  complete : (all.map (·.id)).Perm (s.runs.map (·.id))
  read : ∀ run ∈ all, s.getRun run.id = .ok run
  order : all.Pairwise Run.Newer

theorem pairwise_newer (hkeyed : s.Keyed) (h : ∀ row ∈ s.runs, row.Intact) :
    ((s.runs.mergeSort newer).map RunRow.reading).Pairwise Run.Newer := by
  have hsorted : (s.runs.mergeSort newer).Pairwise fun a b => newer a b = true :=
    List.pairwise_mergeSort newer_trans newer_total s.runs
  have hids : (s.runs.mergeSort newer).Pairwise fun a b => a.id ≠ b.id := by
    rw [← List.pairwise_map]
    exact ((List.mergeSort_perm s.runs newer).map _).nodup_iff.mpr hkeyed
  rw [List.pairwise_map]
  refine (hsorted.and hids).imp_of_mem fun ha hb hab => ?_
  exact (h _ (List.mem_mergeSort.mp ha)).newer (h _ (List.mem_mergeSort.mp hb)) hab.2 hab.1

theorem ranks_mergeSort (hopen : s.isOpen = true) (hkeyed : s.Keyed)
    (h : ∀ row ∈ s.runs, row.Intact) :
    s.Ranks ((s.runs.mergeSort newer).map RunRow.reading) where
  complete := by
    have hids : ((s.runs.mergeSort newer).map RunRow.reading).map (·.id) =
        (s.runs.mergeSort newer).map (·.id) := by
      rw [List.map_map]
      exact List.map_congr_left fun row hrow => (h row (List.mem_mergeSort.mp hrow)).id_reading
    rw [hids]
    exact (List.mergeSort_perm s.runs newer).map _
  read run hrun := by
    obtain ⟨row, hrow, rfl⟩ := List.mem_map.mp hrun
    have hmem := List.mem_mergeSort.mp hrow
    rw [(h row hmem).id_reading]
    exact getRun_readable hopen (hkeyed.row?_eq hmem) (h row hmem).readable
  order := pairwise_newer hkeyed h

theorem page_ofNat {α : Type} (limit offset : Nat) (xs : List α) :
    page limit offset xs = (xs.drop offset).take limit := by
  unfold page
  rw [if_neg (Int.not_lt.mpr (Int.natCast_nonneg limit)), Int.toNat_natCast, Int.toNat_natCast]

/-- Pages of one size, one after the other, have everything up to where the last one ends. -/
theorem flatMap_pages {α : Type} (xs : List α) (size count : Nat) :
    (List.range count).flatMap (fun i => (xs.drop (i * size)).take size) = xs.take (count * size) := by
  induction count with
  | zero => simp
  | succ count ih =>
    rw [List.range_succ, List.flatMap_append, ih, Nat.succ_mul, List.take_add, List.flatMap_singleton]

/-- **Runs are listed newest first, and page by page none is left out or repeated.** -/
theorem listRuns_pages (s : Store) (hopen : s.isOpen = true) (hkeyed : s.Keyed)
    (hrows : ∀ row ∈ s.runs, row.Intact) :
    ∃ all : List Run, s.Ranks all ∧
      (∀ limit offset : Nat,
        s.listRuns limit offset = .ok (s.runs.length, (all.drop offset).take limit)) ∧
      ∀ size : Nat, 1 ≤ size → ∃ pages : Nat → List Run,
        (∀ i : Nat, s.listRuns size (i * size : Nat) = .ok (s.runs.length, pages i)) ∧
        ∀ count : Nat, s.runs.length ≤ count * size → (List.range count).flatMap pages = all := by
  have hlist : ∀ limit offset : Nat, s.listRuns limit offset = .ok (s.runs.length,
      (((s.runs.mergeSort newer).map RunRow.reading).drop offset).take limit) := by
    intro limit offset
    rw [listRuns_readable hopen fun row hrow => (hrows row hrow).readable, page_ofNat, List.map_take,
      List.map_drop]
  refine ⟨_, ranks_mergeSort hopen hkeyed hrows, hlist, fun size hsize => ?_⟩
  refine ⟨_, fun i => hlist size (i * size), fun count hcount => ?_⟩
  rw [flatMap_pages]
  refine List.take_of_length_le ?_
  rw [List.length_map, List.length_mergeSort]
  exact hcount

/-- Two runs of the same instant, and two within the same second with fractions of one and of two
digits. -/
theorem listRuns_pages_fractions :
    let row (id : Text) (t : Instant) : RunRow := encode { (default : Run) with id, createdAt := t }
    let s : Store :=
      { runs := [row "a" 0, row "b" 0, row "c" 500000000, row "d" 250000000] }
    s.Keyed ∧ (∀ row ∈ s.runs, row.Intact) ∧
    (∃ all : List Run, s.Ranks all ∧
      (∀ limit offset : Nat, s.listRuns limit offset = .ok (4, (all.drop offset).take limit)) ∧
      ∀ size : Nat, 1 ≤ size → ∃ pages : Nat → List Run,
        (∀ i : Nat, s.listRuns size (i * size : Nat) = .ok (4, pages i)) ∧
        ∀ count : Nat, 4 ≤ count * size → (List.range count).flatMap pages = all) := by
  intro row s
  have hkeyed : s.Keyed := by
    unfold Keyed
    decide +kernel
  have hintact : ∀ (id : Text) (t : Instant), Stamp.Writable t → (row id t).Intact := by
    intro id t ht
    refine ⟨⟨[], rfl⟩, ⟨.none, rfl⟩, ⟨t, ht, rfl⟩, fun _ h => ?_, fun _ h => ?_⟩
    · cases h
    · cases h
  have hrows : ∀ row ∈ s.runs, row.Intact := by
    intro x hx
    simp only [s, List.mem_cons, List.not_mem_nil, or_false] at hx
    rcases hx with rfl | rfl | rfl | rfl <;> exact hintact _ _ (by decide)
  exact ⟨hkeyed, hrows, listRuns_pages s rfl hkeyed hrows⟩

end Store
end Regatta
