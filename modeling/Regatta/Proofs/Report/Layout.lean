import Mathlib.Data.List.SplitBy
import Regatta.Proofs.Report.Csv

/-! Sinks that have room for so many bytes, and the orders that a table gives them.

A sink obeys as long as it has room (`obey_took`). From a fresh start no cell is wider than its column
(`burst_not_mem_laidOut`). With widths that were left behind one may be, but it has a text, which is
put first: a sink that is spent refuses that before anything breaks down (`Guarded`). -/
namespace Regatta

/-! ### Sinks -/

namespace Sink

/-- Whether a sink of this size has room for the text; `none` is no limit. -/
def Fits (limit : Option Nat) (t : Text) : Prop := ∀ n ∈ limit, t.length ≤ n

/-- A sink of this size that has taken the text. -/
structure Took (limit : Option Nat) (taken : Text) (s : Sink) : Prop where
  received : s.received = taken
  fits : Fits limit taken
  room : s.room = limit.map (· - taken.length)

/-- All of a text is written to a sink of this size, or there is an error: its length decides. -/
def Decided {ε : Type} (limit : Option Nat) (complete : Text) (P : ε → Prop) (out : Except ε Sink) :
    Prop :=
  (Fits limit complete ∧ ∃ s, out = .ok s ∧ s.received = complete) ∨
    ¬ Fits limit complete ∧ ∃ x, out = .error x ∧ P x

variable {limit : Option Nat} {taken chunk : Text} {s s' : Sink}

theorem Fits.of_append {t u : Text} (h : Fits limit (t ++ u)) : Fits limit t := by
  intro n hn
  have hle := h n hn
  rw [List.length_append] at hle
  omega

/-- A sink has room for what it takes. -/
theorem room_of_write {r : Nat} (h : s.write chunk = .ok s') (hroom : s.room = some r) :
    chunk.length ≤ r ∧ s'.room = some (r - chunk.length) := by
  unfold Sink.write at h
  rw [hroom] at h
  dsimp only at h
  split at h
  · rename_i hle
    cases h
    exact ⟨hle, rfl⟩
  · cases h

/-- A sink that refuses had too little room, and has none any more. -/
theorem room_of_refused (h : s.write chunk = .error s') :
    (∃ r, s.room = some r ∧ r < chunk.length) ∧ s'.room = some 0 := by
  unfold Sink.write at h
  split at h
  · cases h
  · rename_i r hroom
    split at h
    · cases h
    · rename_i hlong
      cases h
      exact ⟨⟨r, hroom, Nat.not_le.mp hlong⟩, rfl⟩

theorem write_spent (h : s.room = some 0) (hchunk : chunk ≠ []) :
    ∃ s', s.write chunk = .error s' ∧ s'.room = some 0 := by
  cases hwrite : s.write chunk with
  | ok s' => exact absurd (room_of_write hwrite h).1 (by simpa using hchunk)
  | error s' => exact ⟨s', rfl, (room_of_refused hwrite).2⟩

theorem Took.write (h : Took limit taken s) (hwrite : s.write chunk = .ok s') :
    Took limit (taken ++ chunk) s' := by
  have hreceived := (received_write hwrite).trans (congrArg (· ++ chunk) h.received)
  have hroom := h.room
  cases limit with
  | none =>
    unfold Sink.write at hwrite
    rw [hroom] at hwrite
    cases hwrite
    exact ⟨hreceived, fun _ hn => (by cases hn), rfl⟩
  | some n =>
    have hfits := h.fits n rfl
    obtain ⟨hle, hroom'⟩ := room_of_write hwrite hroom
    dsimp only at hle
    refine ⟨hreceived, ?_, ?_⟩
    · rintro _ ⟨⟩
      rw [List.length_append]
      omega
    · rw [hroom', Option.map_some, List.length_append, Nat.sub_sub]

theorem Took.not_fits (h : Took limit taken s) (hwrite : s.write chunk = .error s') :
    ¬ Fits limit (taken ++ chunk) := by
  obtain ⟨⟨r, hr, hlong⟩, -⟩ := room_of_refused hwrite
  obtain ⟨n, hn, rfl⟩ := Option.map_eq_some_iff.mp (h.room.symm.trans hr)
  intro hfits
  have hle := hfits n hn
  rw [List.length_append] at hle
  omega

end Sink

namespace Table

/-! ### Obedience -/

def Order.chunk : Order → Text
  | put chunk => chunk
  | burst => []

def told (os : List (List Nat × Order)) : Text := os.flatMap fun o => o.2.chunk

section Obedience
variable {limit : Option Nat} {taken chunk : Text} {s s' : Sink} {os : List (List Nat × Order)}
  {widths : List Nat}

/-- The length of what is put decides whether a sink takes it. -/
theorem obey_took (h : s.Took limit taken) (hos : ∀ o ∈ os, o.2 ≠ .burst) :
    (∃ s', obey s os = .ok s' ∧ s'.Took limit (taken ++ told os)) ∨
      (∃ s' widths, obey s os = .error (.full s' widths) ∧ s'.room = some 0) ∧
        ¬ Sink.Fits limit (taken ++ told os) := by
  induction os generalizing s taken with
  | nil => exact .inl ⟨s, rfl, (List.append_nil taken).symm ▸ h⟩
  | cons o os ih =>
    obtain ⟨ho, hrest⟩ := List.forall_mem_cons.mp hos
    obtain ⟨widths, _ | _⟩ := o
    · rename_i chunk
      have htold : taken ++ told ((widths, .put chunk) :: os) = taken ++ chunk ++ told os :=
        (List.append_assoc _ _ _).symm
      rw [htold, obey]
      cases hwrite : s.write chunk with
      | ok s₁ => exact ih (h.write hwrite) hrest
      | error s₁ =>
        exact .inr ⟨⟨s₁, widths, rfl, (Sink.room_of_refused hwrite).2⟩,
          fun hfits => h.not_fits hwrite hfits.of_append⟩
    · exact absurd rfl ho

/-- The first order that says anything is a text to put. -/
inductive Guarded : List (List Nat × Order) → Prop
  | first {widths : List Nat} {chunk : Text} {rest : List (List Nat × Order)} (h : chunk ≠ []) :
    Guarded ((widths, .put chunk) :: rest)
  | blank {widths : List Nat} {rest : List (List Nat × Order)} (h : Guarded rest) :
    Guarded ((widths, .put []) :: rest)

theorem Guarded.put (h : Guarded os) (widths : List Nat) (chunk : Text) :
    Guarded ((widths, .put chunk) :: os) := by
  by_cases hchunk : chunk = []
  · rw [hchunk]
    exact .blank h
  · exact .first hchunk

theorem Guarded.refused (h : Guarded os) (hs : s.room = some 0) :
    ∃ s' widths, obey s os = .error (.full s' widths) ∧ s'.room = some 0 := by
  induction h generalizing s with
  | @first widths chunk rest hchunk =>
    obtain ⟨s', hwrite, hspent⟩ := Sink.write_spent hs hchunk
    refine ⟨s', widths, ?_, hspent⟩
    rw [obey, hwrite]
  | @blank widths rest h ih =>
    have hwrite : s.write [] = .ok ⟨some 0, [] :: s.chunks⟩ := by
      unfold Sink.write
      rw [hs]
      rfl
    rw [obey, hwrite]
    exact ih rfl

end Obedience

/-! ### Layouts -/

/-- No cell of the line is wider than its column. -/
def Spacious (l : Line) (widths : List Nat) : Prop :=
  ∀ (j w : Nat) (c : Cell), widths[j]? = some w → l[j]? = some c → c.width ≤ w

/-- How lines are laid out that have these widths to begin with. -/
structure Placed (widths : List Nat) (lines : List Line) (x : Line × List Nat) : Prop where
  mem : x.1 ∈ lines
  begins : widths <+: x.2
  spacious : Spacious x.1 widths → Spacious x.1 x.2

section Layout
variable {widths : List Nat} {lines block : List Line} {l : Line}

/-- Every line is laid out, in order. -/
theorem map_fst_layout (depth : Nat) (widths : List Nat) (lines : List Line) :
    (layout depth widths lines).map Prod.fst = lines := by
  have hsame (widths : List Nat) (lines : List Line) :
      (lines.map (·, widths)).map Prod.fst = lines := by
    rw [List.map_map]
    exact List.map_id lines
  induction depth generalizing widths lines with
  | zero => exact hsame widths lines
  | succ depth ih =>
    rw [layout, List.map_flatMap]
    simp only [apply_ite (List.map Prod.fst), ih, hsame, ite_self]
    rw [List.flatMap_id', List.flatten_splitBy]

theorem le_foldl_max {xs : List Nat} {x : Nat} (h : x ∈ xs) (least : Nat) : x ≤ xs.foldl max least := by
  have hleast (xs : List Nat) (least : Nat) : least ≤ xs.foldl max least := by
    induction xs generalizing least with
    | nil => exact Nat.le_refl least
    | cons y ys ih => exact (Nat.le_max_left least y).trans (ih (max least y))
  induction xs generalizing least with
  | nil => cases h
  | cons y ys ih =>
    rcases List.mem_cons.mp h with rfl | h
    · exact (Nat.le_max_right least x).trans (hleast ys (max least x))
    · exact ih h (max least y)

theorem width_le_blockWidth (hl : l ∈ block) {column : Nat} {c : Cell} (hc : l[column]? = some c) :
    c.width ≤ blockWidth column block := by
  have hle := le_foldl_max (List.mem_map_of_mem hl
    (f := fun l : Line => (l[column]?.map Cell.width).getD 0 + padding)) 0
  simp only [hc, Option.map_some, Option.getD_some] at hle
  exact (Nat.le_add_right _ _).trans hle

theorem Spacious.append (h : Spacious l widths) (hl : l ∈ block) :
    Spacious l (widths ++ [blockWidth widths.length block]) := by
  intro j w c hw hc
  by_cases hj : j < widths.length
  · rw [List.getElem?_append_left hj] at hw
    exact h j w c hw hc
  · rw [List.getElem?_append_right (Nat.not_lt.mp hj)] at hw
    obtain ⟨hlast, rfl⟩ := List.getElem?_eq_some_iff.mp hw
    have hlength : j = widths.length := by
      rw [List.length_singleton] at hlast
      omega
    subst hlength
    simpa using width_le_blockWidth hl hc

theorem placed_layout (depth : Nat) (widths : List Nat) (lines : List Line) :
    ∀ x ∈ layout depth widths lines, Placed widths lines x := by
  have hsame {widths : List Nat} {lines : List Line} :
      ∀ x ∈ lines.map (·, widths), Placed widths lines x := by
    intro x hx
    obtain ⟨l, hl, rfl⟩ := List.mem_map.mp hx
    exact ⟨hl, List.prefix_rfl, id⟩
  induction depth generalizing widths lines with
  | zero => exact hsame
  | succ depth ih =>
    intro x hx
    rw [layout] at hx
    obtain ⟨block, hblock, hx⟩ := List.mem_flatMap.mp hx
    have hlines : ∀ l ∈ block, l ∈ lines := fun l hl =>
      List.flatten_splitBy _ lines ▸ List.mem_flatten_of_mem hblock hl
    split at hx
    · have hplaced := ih _ _ x hx
      exact ⟨hlines _ hplaced.mem, (List.prefix_append _ _).trans hplaced.begins,
        fun h => hplaced.spacious (h.append hplaced.mem)⟩
    · have hplaced := hsame x hx
      exact { hplaced with mem := hlines _ hplaced.mem }

end Layout

/-! ### The orders of a layout -/

section Orders
variable {widths : List Nat} {l : Line} {o : Order} {t : State}

theorem burst_not_mem_lineOrders (h : Spacious l widths) : .burst ∉ lineOrders l widths := by
  intro hmem
  obtain ⟨⟨c, j⟩, hc, hmem⟩ := List.mem_flatMap.mp hmem
  have hc : l[j]? = some c := List.mem_zipIdx_iff_getElem?.mp hc
  unfold cellOrders at hmem
  cases hw : widths[j]? with
  | none => cases hempty : c.text.isEmpty <;> simp [hw, hempty] at hmem
  | some w =>
    have hle : ¬ w < c.width := Nat.not_lt.mpr (h j w c hw hc)
    cases hempty : c.text.isEmpty <;> simp [hw, hempty, hle] at hmem

/-- Every order is about one of the lines. -/
theorem exists_of_mem_orders (h : (widths, o) ∈ orders t.laidOut) :
    ∃ x ∈ t.laidOut, o ∈ lineOrders x.1 x.2 ++ [.put "\n"] := by
  rcases List.mem_append.mp h with h | h
  · obtain ⟨x, hx, h⟩ := List.mem_flatMap.mp h
    obtain ⟨o', ho', heq⟩ := List.mem_map.mp h
    cases heq
    exact ⟨x, List.dropLast_subset _ hx, ho'⟩
  · obtain ⟨x, hx, h⟩ := List.mem_flatMap.mp h
    obtain ⟨o', ho', heq⟩ := List.mem_map.mp h
    cases heq
    exact ⟨x, List.mem_of_getLast? (Option.mem_toList.mp hx), List.mem_append_left _ ho'⟩

theorem placed_laidOut {x : Line × List Nat} (hx : x ∈ t.laidOut) :
    Placed t.widths (t.complete.reverse ++ [t.lastLine]) x :=
  placed_layout _ _ _ x hx

theorem map_fst_laidOut (t : State) : t.laidOut.map Prod.fst = t.complete.reverse ++ [t.lastLine] :=
  map_fst_layout _ _ _

theorem map_fst_dropLast (t : State) : t.laidOut.dropLast.map Prod.fst = t.complete.reverse := by
  rw [List.map_dropLast, map_fst_laidOut, List.dropLast_concat]

/-- A layout that begins with no widths never overruns. -/
theorem burst_not_mem_laidOut (ht : t.widths = []) : ∀ o ∈ orders t.laidOut, o.2 ≠ .burst := by
  rintro ⟨widths, o⟩ ho rfl
  obtain ⟨x, hx, hmem⟩ := exists_of_mem_orders ho
  have hspacious : Spacious x.1 x.2 :=
    (placed_laidOut hx).spacious fun j w c hw => by rw [ht] at hw; cases hw
  exact burst_not_mem_lineOrders hspacious (by simpa using hmem)

/-! ### Cells -/

/-- What has no text has no width. -/
def Cell.Sound (c : Cell) : Prop := c.text = [] → c.width = 0

theorem guarded_cellOrders {c : Cell} {rest : List (List Nat × Order)} (hc : c.Sound)
    (width : Option Nat) (h : Guarded rest) :
    Guarded ((cellOrders c width).map (widths, ·) ++ rest) := by
  have hputs (chunks : List Text) :
      Guarded ((chunks.map Order.put).map (widths, ·) ++ rest) := by
    induction chunks with
    | nil => exact h
    | cons chunk chunks ih => exact ih.put widths chunk
  unfold cellOrders
  by_cases htext : c.text = []
  · cases width with
    | none => simpa [htext] using h
    | some w => simpa [htext, hc htext] using hputs (blanks w)
  · rw [if_neg (by simpa using htext)]
    exact .first htext

theorem guarded_lineOrders {rest : List (List Nat × Order)} (hl : ∀ c ∈ l, c.Sound)
    (h : Guarded rest) : Guarded ((lineOrders l widths).map (widths, ·) ++ rest) := by
  have hcells : ∀ cells : List (Cell × Nat), (∀ x ∈ cells, x.1.Sound) →
      Guarded ((cells.flatMap fun x => cellOrders x.1 widths[x.2]?).map (widths, ·) ++ rest) := by
    intro cells hcells
    induction cells with
    | nil => exact h
    | cons x cells ih =>
      obtain ⟨hx, hcells⟩ := List.forall_mem_cons.mp hcells
      rw [List.flatMap_cons, List.map_append, List.append_assoc]
      exact guarded_cellOrders hx _ (ih hcells)
  exact hcells l.zipIdx fun x hx => hl x.1 (List.fst_mem_of_mem_zipIdx hx)

/-- A table with a complete line has something to put before anything can overrun. -/
theorem guarded_orders (hcells : ∀ l ∈ t.complete, ∀ c ∈ l, c.Sound) (hne : t.complete ≠ []) :
    Guarded (orders t.laidOut) := by
  have hfirst := map_fst_dropLast t
  unfold orders
  cases hlaid : t.laidOut.dropLast with
  | nil =>
    rw [hlaid, eq_comm, List.map_nil, List.reverse_eq_nil_iff] at hfirst
    exact absurd hfirst hne
  | cons x rest =>
    obtain ⟨l, widths⟩ := x
    have hl : l ∈ t.complete := by
      rw [← List.mem_reverse, ← hfirst, hlaid]
      exact List.mem_cons_self
    rw [List.flatMap_cons]
    dsimp only
    rw [List.map_append, List.append_assoc, List.append_assoc]
    exact guarded_lineOrders (hcells l hl) (.first (by decide))

end Orders

end Table
end Regatta
