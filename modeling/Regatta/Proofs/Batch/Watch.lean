import Regatta.Proofs.Batch.Rounds

/-! Watching an executor.

A watched executor does what it did before, and keeps a book beside it: which datasets were started,
how many were under way at most, and how things stood whenever its bench was exchanged. `erase_run`
says that watching changes nothing; `Tallied` is what the book says after any acts of a batch. -/
namespace Regatta

/-- An executor's state with a book about it. -/
structure Watch (κ : Type) where
  inner : κ
  /-- The tickets that were given out, and their datasets. -/
  tickets : List (Nat × Text) := []
  peak : Nat := 0
  /-- How many datasets had been started and how many were under way, each time the bench was
  exchanged. -/
  exchanges : List (Nat × Nat) := []

namespace Watch

variable {κ : Type} (e : Executor κ)

def busy (w : Watch κ) : Nat :=
  (w.tickets.filter fun x => (e.poll w.inner x.1).isNone).length

def come (w : Watch κ) (k : κ) : Watch κ :=
  let w := { w with inner := k }
  { w with peak := max w.peak (w.busy e) }

def setBench (set : κ → Bench → κ) (w : Watch κ) (b : Bench) : Watch κ :=
  { w with
    inner := set w.inner b
    exchanges := w.exchanges ++ [(w.tickets.length, w.busy e)] }

end Watch

/-- The executor, watched at each of its steps. -/
def Executor.watched {κ : Type} (e : Executor κ) : Executor (Watch κ) where
  start w d :=
    let (k, t) := e.start w.inner d
    ({ w with tickets := w.tickets ++ [(t, d)] }.come e k, t)
  poll w := e.poll w.inner
  settle w := w.come e (e.settle w.inner)
  wake w := e.wake w.inner
  setNow w t := w.come e (e.setNow w.inner t)
  note w level message := w.come e (e.note w.inner level message)

namespace Batch

variable {κ : Type} {e : Executor κ} {n : Nat}

/-! ### Watching changes nothing -/

def erase (s : Watch κ × Batch) : κ × Batch := (s.1.inner, s.2)

end Batch

/-! ### What the book says -/

variable {κ : Type} {e : Executor κ} {answer : Text → Execution}

theorem Executor.Change.inner {w w' : Watch κ} (h : e.watched.Change w w') :
    e.Change w.inner w'.inner := by
  cases h with
  | start d => exact .start _ d
  | note level message => exact .note _ level message
  | settle => exact .settle _
  | turn hwake => exact .turn hwake

def Executor.Steady.watched (h : e.Steady answer) : e.watched.Steady answer where
  Holds w := h.Holds w.inner
  left w := h.left w.inner
  started w := h.started w.inner
  kept hc := h.kept hc.inner
  answers := h.answers
  lasting hc := h.lasting hc.inner
  settles w := h.settles w.inner
  turns := h.turns
  wakes := h.wakes

namespace Watch

variable (h : e.Steady answer)

/-- All tickets but these belong to datasets that have ended. -/
def AllBut (w : Watch κ) (under : List (Nat × Text)) : Prop :=
  ∃ gone, w.tickets.Perm (under ++ gone) ∧
    ∀ y ∈ gone, h.Holds w.inner y.1 y.2 ∧ (e.poll w.inner y.1).isSome = true

variable {h} {w : Watch κ} {under : List (Nat × Text)}

theorem AllBut.busy_le (hw : w.AllBut h under) : w.busy e ≤ under.length := by
  obtain ⟨gone, hperm, hgone⟩ := hw
  have hnone : gone.filter (fun x => (e.poll w.inner x.1).isNone) = [] := by
    refine List.filter_eq_nil_iff.mpr fun y hy => ?_
    simp [Option.isNone_iff_eq_none, Option.isSome_iff_ne_none.mp (hgone y hy).2]
  calc w.busy e
      = ((under ++ gone).filter fun x => (e.poll w.inner x.1).isNone).length :=
        (hperm.filter _).length_eq
    _ = (under.filter fun x => (e.poll w.inner x.1).isNone).length := by
        rw [List.filter_append, hnone, List.append_nil]
    _ ≤ under.length := List.length_filter_le _ _

theorem AllBut.come (hw : w.AllBut h under) {k : κ} (hc : e.Change w.inner k) :
    (w.come e k).AllBut h under := by
  obtain ⟨gone, hperm, hgone⟩ := hw
  exact ⟨gone, hperm, fun y hy =>
    ⟨h.kept hc (hgone y hy).1, h.lasting hc (hgone y hy).1 (hgone y hy).2⟩⟩

theorem AllBut.peak_come {k : κ} (hw : (w.come e k).AllBut h under) {n : Nat} (hpeak : w.peak ≤ n)
    (hn : under.length ≤ n) : (w.come e k).peak ≤ n :=
  Nat.max_le.mpr ⟨hpeak, Nat.le_trans hw.busy_le hn⟩

theorem AllBut.ended {before after : List (Nat × Text)} {y : Nat × Text}
    (hw : w.AllBut h (before ++ y :: after)) (hy : h.Holds w.inner y.1 y.2)
    (hended : (e.poll w.inner y.1).isSome = true) : w.AllBut h (before ++ after) := by
  obtain ⟨gone, hperm, hgone⟩ := hw
  refine ⟨y :: gone, hperm.trans ?_, List.forall_mem_cons.mpr ⟨⟨hy, hended⟩, hgone⟩⟩
  have hout : (before ++ y :: (after ++ gone)).Perm (y :: (before ++ after ++ gone)) := by
    rw [List.append_assoc]
    exact List.perm_middle
  rw [List.append_assoc, List.cons_append]
  exact hout.trans List.perm_middle.symm

theorem AllBut.issue (hw : w.AllBut h under) (y : Nat × Text) :
    { w with tickets := w.tickets ++ [y] }.AllBut h (under ++ [y]) := by
  obtain ⟨gone, hperm, hgone⟩ := hw
  refine ⟨gone, (hperm.append_right [y]).trans ?_, hgone⟩
  rw [List.append_assoc, List.append_assoc]
  exact List.perm_append_comm.append_left under

end Watch

namespace Batch

variable {n : Nat} {h : e.Steady answer} {datasets : List Text} {exchanges : List (Nat × Nat)}

structure Tallied (h : e.Steady answer) (n : Nat) (datasets : List Text)
    (exchanges : List (Nat × Nat)) (s : Watch κ × Batch) : Prop where
  held : Held h (erase s)
  under : s.1.AllBut h (s.2.running.map fun x => (x.2.2, x.2.1))
  begun : s.1.tickets.map (·.2) ++ s.2.waiting.map (·.2) = datasets
  room : s.2.running.length ≤ n
  peak : s.1.peak ≤ n
  exchanges : s.1.exchanges = exchanges

theorem Tallied.act {s s' : Watch κ × Batch} (ht : Tallied h n datasets exchanges s)
    (hact : Act e.watched n s s') : Tallied h n datasets exchanges s' := by
  have hheld : Held h (erase s') := Held.act h.watched (s := s) ht.held hact
  obtain ⟨hheld', hunder, hbegun, hroom, hpeak, hexchanges⟩ := ht
  cases hact with
  | @collect w x ended waiting before after rows hx =>
    have hx' : (e.poll w.inner x.2.2).isSome = true := by
      rw [show e.poll w.inner x.2.2 = some ended from hx]
      rfl
    have hholds : h.Holds w.inner x.2.2 x.2.1 :=
      hheld' x (List.mem_append_right _ List.mem_cons_self)
    simp only [List.map_append, List.map_cons] at hunder
    have hleft := (hunder.ended hholds hx').come (.note _ (row x.2.1 ended).2.1 (row x.2.1 ended).2.2)
    have hlen : (before ++ after).length ≤ n := by
      simp only [List.length_append, List.length_cons] at hroom ⊢
      omega
    refine ⟨hheld, ?_, hbegun, hlen, hleft.peak_come hpeak ?_, hexchanges⟩
    · rw [List.map_append]
      exact hleft
    · rw [← List.map_append, List.length_map]
      exact hlen
  | @launch w x waiting running rows hless =>
    have hnoted := hunder.come (.note _ .info "running dataset")
    have hpeak' := hnoted.peak_come hpeak (by simpa using hroom)
    have hissued := hnoted.issue ((e.start (e.note w.inner .info "running dataset") x.2).2, x.2)
    have hstarted := hissued.come (.start _ x.2)
    refine ⟨hheld, ?_, ?_, ?_, hstarted.peak_come hpeak' ?_, hexchanges⟩
    · simp only [launch, List.map_append, List.map_cons, List.map_nil]
      exact hstarted
    · rw [← hbegun]
      simp [launch, Executor.watched, Watch.come]
    · simpa [launch] using Nat.succ_le_of_lt hless
    · simpa using Nat.succ_le_of_lt hless
  | settle w b =>
    have hcome := hunder.come (.settle _)
    exact ⟨hheld, hcome, hbegun, hroom, hcome.peak_come hpeak (by simpa using hroom), hexchanges⟩
  | turn b hwake =>
    have hcome := hunder.come (.turn hwake)
    exact ⟨hheld, hcome, hbegun, hroom, hcome.peak_come hpeak (by simpa using hroom), hexchanges⟩

theorem Tallied.acts {s s' : Watch κ × Batch} (ht : Tallied h n datasets exchanges s)
    (hacts : Acts e.watched n s s') : Tallied h n datasets exchanges s' := by
  induction hacts with
  | refl => exact ht
  | tail _ hact ih => exact ih.act hact

end Batch
end Regatta
