import Regatta.Proofs.Report.Layout

/-! Reports for a sink that has room for so many bytes and no more.

A table is laid out at its end, but also before that where a cell has a line break, and what the sink
refuses then is not noticed: the lines stay, with the widths that they had. But the sink is spent by
then, and there is a complete line that is to be written once more (`Lost`). So the last layout is
refused, and does not come to a cell that is wider than its column (`Lost.flush`). -/
namespace Regatta

namespace Table

/-! ### Lines that are kept back -/

/-- What is kept back has no width where there is no text. -/
structure State.Sound (t : State) : Prop where
  complete : ∀ l ∈ t.complete, ∀ c ∈ l, c.Sound
  current : ∀ c ∈ t.current, c.Sound
  pending : t.pending = [] → t.width = 0 ∧ t.unmeasured = []

section
variable {t : State} {s s' : Sink} {b : UInt8}

theorem State.Sound.endCell (h : t.Sound) : t.measured.endCell.Sound where
  complete := h.complete
  current := by
    refine List.forall_mem_cons.mpr ⟨fun htext => ?_, h.current⟩
    obtain ⟨hwidth, hunmeasured⟩ := h.pending (List.reverse_eq_nil_iff.mp htext)
    show t.width + Text.width t.unmeasured.reverse = 0
    rw [hwidth, hunmeasured]
    rfl
  pending _ := ⟨rfl, rfl⟩

theorem State.Sound.next (h : t.Sound) (b : UInt8) : (t.next b).Sound := by
  unfold State.next
  dsimp only
  split
  · split <;> exact ⟨h.complete, h.current, fun hnil => by cases hnil⟩
  · split
    · exact ⟨h.complete, h.current, fun hnil => by cases hnil⟩
    · split
      · exact h.endCell
      · split
        · refine ⟨List.forall_mem_cons.mpr ⟨fun c hc => ?_, h.complete⟩, ?_, h.endCell.pending⟩
          · exact h.endCell.current c (List.mem_reverse.mp hc)
          · exact fun c hc => absurd hc List.not_mem_nil
        · exact ⟨h.complete, h.current, fun hnil => by cases hnil⟩

theorem widths_next (t : State) (b : UInt8) : (t.next b).widths = t.widths := by
  unfold State.next
  dsimp only
  repeat' split
  all_goals rfl

theorem complete_next (t : State) (b : UInt8) : t.complete <:+ (t.next b).complete := by
  unfold State.next
  dsimp only
  repeat' split
  all_goals first
    | exact List.suffix_rfl
    | exact List.suffix_cons ..

theorem complete_of_flushes (h : t.flushes b = true) : (t.next b).complete ≠ [] := by
  obtain ⟨hverbatim, hb⟩ := Bool.and_eq_true_iff.mp h
  rw [Bool.not_eq_true'] at hverbatim
  have hend : b = 10 ∨ b = 12 := by
    rw [Bool.or_eq_true, Bool.and_eq_true, beq_iff_eq, beq_iff_eq] at hb
    exact hb.elim .inr fun h => .inl h.1
  unfold State.next
  rw [hverbatim]
  rcases hend with rfl | rfl <;> simp

/-- A table that cannot be completed any more. -/
structure Lost (t : State) (s : Sink) : Prop where
  sound : t.Sound
  complete : t.complete ≠ []
  spent : s.room = some 0

theorem Lost.flush (h : Lost t s) :
    ∃ s' widths, t.flush s = .error (.full s' widths) ∧ s'.room = some 0 :=
  (guarded_orders h.sound.complete h.complete).refused h.spent

theorem Lost.next (h : Lost t s) (b : UInt8) : Lost (t.next b) s :=
  ⟨h.sound.next b, fun hnil => h.complete (List.suffix_nil.mp (hnil ▸ complete_next t b)), h.spent⟩

theorem Lost.take (h : Lost t s) (text : Text) : ∃ t' s', t.take s text = .ok (t', s') ∧ Lost t' s' := by
  induction text generalizing t s with
  | nil => exact ⟨t, s, rfl, h⟩
  | cons b rest ih =>
    have hnext := h.next b
    rw [State.take]
    split
    · obtain ⟨s', widths, hflush, hspent⟩ := hnext.flush
      rw [hflush]
      exact ⟨_, s', rfl, ⟨hnext.sound.complete, hnext.sound.current, hnext.sound.pending⟩,
        hnext.complete, hspent⟩
    · exact ih hnext

end

/-! ### Piece by piece -/

/-- What the lines and the cells that are kept back look like when they are laid out. -/
def State.output (t : State) : Text := told (orders t.laidOut)

/-- What a table keeps back and what it has written, after one more byte. -/
def advance (x : State × Text) (b : UInt8) : State × Text :=
  if x.1.flushes b then (State.empty, x.2 ++ (x.1.next b).output) else (x.1.next b, x.2)

/-- A sink takes all that is laid out, or it has no room for that and the table is lost. -/
def KeepsUp (limit : Option Nat) (x : State × Text) (out : Except Break (State × Sink)) : Prop :=
  (∃ s, out = .ok (x.1, s) ∧ s.Took limit x.2) ∨
    ¬ Sink.Fits limit x.2 ∧ ∃ t s, out = .ok (t, s) ∧ Lost t s

/-- What is kept back has not been laid out before. -/
structure Fresh (t : State) : Prop extends t.Sound where
  widths : t.widths = []

section Course
variable {limit : Option Nat} {taken : Text} {t : State} {s : Sink} {x : State × Text}

theorem fresh_empty : Fresh State.empty where
  complete _ hl := absurd hl List.not_mem_nil
  current _ hc := absurd hc List.not_mem_nil
  pending _ := ⟨rfl, rfl⟩
  widths := rfl

theorem Fresh.next (h : Fresh t) (b : UInt8) : Fresh (t.next b) :=
  ⟨h.toSound.next b, (widths_next t b).trans h.widths⟩

theorem Fresh.foldl_advance (h : Fresh x.1) (text : Text) : Fresh (text.foldl advance x).1 := by
  induction text generalizing x with
  | nil => exact h
  | cons b rest ih =>
    refine ih ?_
    unfold advance
    split
    · exact fresh_empty
    · exact h.next b

theorem prefix_foldl_advance (x : State × Text) (text : Text) : x.2 <+: (text.foldl advance x).2 := by
  induction text generalizing x with
  | nil => exact List.prefix_rfl
  | cons b rest ih =>
    refine List.IsPrefix.trans ?_ (ih (advance x b))
    unfold advance
    split
    · exact List.prefix_append _ _
    · exact List.prefix_rfl

theorem not_fits_foldl_advance (h : ¬ Sink.Fits limit x.2) (text : Text) :
    ¬ Sink.Fits limit (text.foldl advance x).2 := by
  obtain ⟨more, hmore⟩ := prefix_foldl_advance x text
  exact fun hfits => h (Sink.Fits.of_append (hmore.symm ▸ hfits))

theorem flush_took (ht : Fresh t) (hs : s.Took limit taken) :
    (∃ s', t.flush s = .ok s' ∧ s'.Took limit (taken ++ t.output)) ∨
      (∃ s' widths, t.flush s = .error (.full s' widths) ∧ s'.room = some 0) ∧
        ¬ Sink.Fits limit (taken ++ t.output) :=
  obey_took hs (burst_not_mem_laidOut ht.widths)

theorem take_took (hx : Fresh x.1) (hs : s.Took limit x.2) (text : Text) :
    KeepsUp limit (text.foldl advance x) (x.1.take s text) := by
  induction text generalizing x s with
  | nil => exact .inl ⟨s, rfl, hs⟩
  | cons b rest ih =>
    have hnext := hx.next b
    rw [State.take, List.foldl_cons, advance]
    cases hb : x.1.flushes b with
    | true =>
      rw [if_pos rfl, if_pos rfl]
      rcases flush_took hnext hs with ⟨s₁, hflush, hs₁⟩ | ⟨⟨s₁, widths, hflush, hspent⟩, hlong⟩
      · rw [hflush]
        exact ih (x := (State.empty, _)) fresh_empty hs₁
      · -- the first refusal: all that follows in this piece is lost
        rw [hflush]
        exact .inr ⟨not_fits_foldl_advance (x := (State.empty, _)) hlong rest, _, s₁, rfl,
          ⟨hnext.complete, hnext.current, hnext.pending⟩, complete_of_flushes hb, hspent⟩
    | false =>
      rw [if_neg Bool.false_ne_true, if_neg Bool.false_ne_true]
      exact ih (x := (x.1.next b, x.2)) hnext hs

variable {out : Except Break (State × Sink)}

theorem KeepsUp.take (h : KeepsUp limit x out) (hx : Fresh x.1) (text : Text) :
    KeepsUp limit (text.foldl advance x) (out >>= fun y => y.1.take y.2 text) := by
  rcases h with ⟨s, rfl, hs⟩ | ⟨hlong, t, s, rfl, hlost⟩
  · exact take_took hx hs text
  · exact .inr ⟨not_fits_foldl_advance hlong text, hlost.take text⟩

theorem KeepsUp.pieces (h : KeepsUp limit x out)
    (hx : Fresh x.1) (ps : List Text) : KeepsUp limit (ps.flatten.foldl advance x)
      (out >>= fun y => ps.foldlM (fun y p => y.1.take y.2 p) y) := by
  induction ps generalizing x out with
  | nil =>
    cases out <;> exact h
  | cons p ps ih =>
    have hrest := ih (h.take hx p) (hx.foldl_advance p)
    rw [bind_assoc] at hrest
    rw [List.flatten_cons, List.foldl_append]
    simp only [List.foldlM_cons]
    exact hrest

/-- The last layout decides, and where the table was lost before it, it is refused. -/
theorem KeepsUp.decided (h : KeepsUp limit x out) (hx : Fresh x.1) :
    Sink.Decided limit (x.2 ++ x.1.output) (· ≠ .overrun) (out >>= fun y => y.1.flush y.2) := by
  rcases h with ⟨s, rfl, htook⟩ | ⟨hlong, t, s, rfl, hlost⟩
  · rcases flush_took hx htook with ⟨s', hflush, hs'⟩ | ⟨⟨s', widths, hflush, -⟩, hlong⟩
    · exact .inl ⟨hs'.fits, s', hflush, hs'.received⟩
    · exact .inr ⟨hlong, _, hflush, fun h => by cases h⟩
  · obtain ⟨s', widths, hflush, -⟩ := hlost.flush
    exact .inr ⟨fun hfits => hlong hfits.of_append, _, hflush, fun h => by cases h⟩

end Course

end Table

namespace Report

/-! ### Reports -/

/-- How writing a report fails when the sink refuses. -/
def refusals (format : ReportFormat) : List Fault :=
  if format = .json then [.json] else if format = .text then [.text] else [.csvRow, .csvFlush]

end Report
end Regatta
