import Regatta.Proofs.Text.Boundary
import Regatta.Text.Blank

/-! White space around a text.

A text is white space, what is left of it when trimmed, and white space again (`exists_trim`).
Nothing is trimmed off a text that neither begins nor ends with white space (`trim_of_bare`), so
trimming twice is trimming once. White space that is put before or after a text is trimmed off again
(`trim_blank_append`, `trim_append_blank`). -/
namespace Regatta.Text

def stripped (rs : List Rune) : List Rune :=
  ((rs.dropWhile Rune.isBlank).reverse.dropWhile Rune.isBlank).reverse

theorem trim_eq (t : Text) : t.trim = ofRunes (stripped t.runes) := rfl

structure Bare (rs : List Rune) : Prop where
  first : ∀ r ∈ rs.head?, r.isBlank = false
  last : ∀ r ∈ rs.getLast?, r.isBlank = false

variable {front m back rs : List Rune}

theorem dropWhile_of_head (h : ∀ r ∈ rs.head?, r.isBlank = false) :
    rs.dropWhile Rune.isBlank = rs := by
  cases rs with
  | nil => rfl
  | cons r rest => exact List.dropWhile_cons_of_neg (by simp [h r rfl])

theorem stripped_of_bare (h : Bare m) (hfront : ∀ r ∈ front, r.isBlank = true)
    (hback : ∀ r ∈ back, r.isBlank = true) : stripped (front ++ m ++ back) = m := by
  unfold stripped
  rw [List.append_assoc, List.dropWhile_append_of_pos hfront]
  by_cases hm : m = []
  · rw [hm, List.nil_append, ← List.append_nil back, List.dropWhile_append_of_pos hback]
    rfl
  · obtain ⟨r, rest, rfl⟩ := List.exists_cons_of_ne_nil hm
    have hfirst : ∀ x ∈ (r :: rest ++ back).head?, x.isBlank = false := h.first
    have hlast : ∀ x ∈ (r :: rest).reverse.head?, x.isBlank = false := by
      rw [List.head?_reverse]
      exact h.last
    rw [dropWhile_of_head hfirst, List.reverse_append,
      List.dropWhile_append_of_pos fun x hx => hback x (List.mem_reverse.mp hx),
      dropWhile_of_head hlast, List.reverse_reverse]

theorem head_dropWhile (rs : List Rune) :
    ∀ r ∈ (rs.dropWhile Rune.isBlank).head?, r.isBlank = false := by
  induction rs with
  | nil => simp
  | cons x rest ih =>
    by_cases hx : x.isBlank = true
    · rwa [List.dropWhile_cons_of_pos hx]
    · rw [List.dropWhile_cons_of_neg hx]
      simpa using hx

theorem mem_takeWhile (rs : List Rune) : ∀ r ∈ rs.takeWhile Rune.isBlank, r.isBlank = true :=
  fun r hr => List.all_eq_true.mp List.all_takeWhile r hr

theorem exists_stripped (rs : List Rune) : ∃ front back, rs = front ++ stripped rs ++ back ∧
    (∀ r ∈ front, r.isBlank = true) ∧ (∀ r ∈ back, r.isBlank = true) ∧ Bare (stripped rs) := by
  have hrest : rs.dropWhile Rune.isBlank =
      stripped rs ++ ((rs.dropWhile Rune.isBlank).reverse.takeWhile Rune.isBlank).reverse := by
    unfold stripped
    rw [← List.reverse_append, List.takeWhile_append_dropWhile, List.reverse_reverse]
  refine ⟨rs.takeWhile Rune.isBlank,
    ((rs.dropWhile Rune.isBlank).reverse.takeWhile Rune.isBlank).reverse, ?_, mem_takeWhile rs,
    fun r hr => mem_takeWhile _ r (List.mem_reverse.mp hr), fun r hr => ?_, fun r hr => ?_⟩
  · rw [List.append_assoc, ← hrest, List.takeWhile_append_dropWhile]
  · -- what is left begins where the white space in front ends
    refine head_dropWhile rs r ?_
    rw [hrest, List.head?_append, hr]
    rfl
  · refine head_dropWhile (rs.dropWhile Rune.isBlank).reverse r ?_
    rwa [stripped, List.getLast?_reverse] at hr

theorem runes_trim (t : Text) : runes t.trim = stripped t.runes := by
  obtain ⟨front, back, hsplit, -⟩ := exists_stripped t.runes
  have hfront := (runes_cut hsplit).1
  rw [trim_eq]
  exact (runes_cut hfront).2

/-- Nothing is trimmed off a text that neither begins nor ends with white space. -/
theorem trim_of_bare {t : Text} (h : Bare t.runes) : t.trim = t := by
  have hstripped : stripped ([] ++ t.runes ++ []) = t.runes :=
    stripped_of_bare h (by simp) (by simp)
  rw [List.nil_append, List.append_nil] at hstripped
  rw [trim_eq, hstripped, ofRunes_runes]

theorem bare_trim (t : Text) : Bare t.trim.runes := by
  obtain ⟨front, back, -, -, -, hbare⟩ := exists_stripped t.runes
  rwa [runes_trim]

theorem trim_trim (t : Text) : t.trim.trim = t.trim := trim_of_bare (bare_trim t)

/-! ### White space before and after -/

def Blank (t : Text) : Prop := ∀ r ∈ t.runes, r.isBlank = true

variable {t w : Text}

theorem exists_trim (t : Text) :
    ∃ front back, t = front ++ t.trim ++ back ∧ Blank front ∧ Blank back := by
  obtain ⟨front, back, hsplit, hfront, hback, -⟩ := exists_stripped t.runes
  obtain ⟨hleft, hright⟩ := runes_cut hsplit
  refine ⟨ofRunes front, ofRunes back, ?_, ?_, ?_⟩
  · rw [trim_eq, ← ofRunes_append, ← ofRunes_append, ← hsplit, ofRunes_runes]
  · rwa [Blank, (runes_cut hleft).1]
  · rwa [Blank, hright]

theorem mem_of_mem_trim {b : UInt8} (h : b ∈ t.trim) : b ∈ t := by
  obtain ⟨front, back, hsplit, -⟩ := exists_trim t
  rw [hsplit]
  exact List.mem_append_left _ (List.mem_append_right _ h)

theorem Blank.no_stray (h : Blank w) (b : UInt8) : .stray b ∉ runes w := fun hmem => by
  cases h _ hmem

theorem runes_blank_append (h : Blank w) (t : Text) : runes (w ++ t) = runes w ++ runes t :=
  runes_append_of_chars h.no_stray t

theorem runes_append_blank (t : Text) (h : Blank w) : runes (t ++ w) = runes t ++ runes w := by
  cases w with
  | nil => rw [List.append_nil]; exact (List.append_nil _).symm
  | cons b rest =>
    rcases heads_headRune b rest with ⟨more, after, c, -, hencodes⟩ | hstray
    · exact runes_append_lead t hencodes.lead rest
    · exact absurd (runes_stray hstray ▸ List.mem_cons_self ..) (h.no_stray b)

theorem trim_blank_append (h : Blank w) (t : Text) : (w ++ t).trim = t.trim := by
  obtain ⟨front, back, hsplit, hfront, hback, hbare⟩ := exists_stripped t.runes
  have hwhole : runes w ++ runes t = (runes w ++ front) ++ stripped t.runes ++ back :=
    (congrArg (runes w ++ ·) hsplit).trans (by simp only [List.append_assoc])
  rw [trim_eq, trim_eq, runes_blank_append h, hwhole, stripped_of_bare hbare _ hback]
  exact List.forall_mem_append.mpr ⟨h, hfront⟩

theorem trim_append_blank (t : Text) (h : Blank w) : (t ++ w).trim = t.trim := by
  obtain ⟨front, back, hsplit, hfront, hback, hbare⟩ := exists_stripped t.runes
  have hwhole : runes t ++ runes w = front ++ stripped t.runes ++ (back ++ runes w) :=
    (congrArg (· ++ runes w) hsplit).trans (by simp only [List.append_assoc])
  rw [trim_eq, trim_eq, runes_append_blank t h, hwhole, stripped_of_bare hbare hfront]
  exact List.forall_mem_append.mpr ⟨hback, h⟩

/-! ### ASCII characters -/

/-- A byte that is a character by itself, and not white space. -/
structure Mark (b : UInt8) : Prop where
  ascii : b < 0x80
  visible : Char.isBlank (Char.ofNat b.toNat) = false

variable {b : UInt8}

theorem mem_runes_of_ascii (hb : b < 0x80) (h : b ∈ t) :
    .char (Char.ofNat b.toNat) ∈ runes t := by
  induction t using reading_induct with
  | nil => cases h
  | char x more rest c hencodes ih =>
    rw [runes_encoded hencodes]
    rcases List.mem_cons.mp h with rfl | h
    · have hreads := hencodes.reads rest
      rw [headRune_of_ascii hb] at hreads
      rw [(Prod.mk.inj hreads).1]
      exact List.mem_cons_self ..
    · rcases List.mem_append.mp h with hmore | hrest
      · have hhigh := (isContinuation_iff.mp (hencodes.continuation b hmore)).1
        exact absurd hb (Nat.not_lt.mpr hhigh)
      · exact List.mem_cons_of_mem _ (ih hrest)
  | stray x rest hstray ih =>
    rw [runes_stray hstray]
    rcases List.mem_cons.mp h with rfl | h
    · rw [headRune_of_ascii hb] at hstray
      cases hstray
    · exact List.mem_cons_of_mem _ (ih h)

theorem Blank.not_mem (h : Blank w) (hb : Mark b) : b ∉ w := fun hmem => by
  have hblank := h _ (mem_runes_of_ascii hb.ascii hmem)
  rw [Rune.isBlank, hb.visible] at hblank
  cases hblank

theorem runes_mark (hb : Mark b) (t : Text) :
    runes (b :: t) = .char (Char.ofNat b.toNat) :: runes t :=
  runes_encoded (encodes_ascii hb.ascii) t

theorem trim_append_mark {a : UInt8} (ha : Mark a) (hb : Mark b) (w t : Text) :
    trim (a :: w ++ b :: t) = a :: w ++ trim (b :: t) := by
  obtain ⟨front, back, hsplit, hfront, hback, hbare⟩ := exists_stripped (runes (b :: t))
  have htrim := trim_eq (b :: t)
  generalize stripped (runes (b :: t)) = m at hsplit hbare htrim
  rw [runes_mark hb] at hsplit
  have hvisible : ¬ Rune.isBlank (.char (Char.ofNat b.toNat)) = true := by
    simp [Rune.isBlank, hb.visible]
  obtain rfl : front = [] := by
    cases front with
    | nil => rfl
    | cons r front =>
      obtain ⟨rfl, -⟩ := List.cons.inj hsplit
      exact absurd (hfront _ (List.mem_cons_self ..)) hvisible
  have hm : m ≠ [] := by
    rintro rfl
    refine absurd (hback (.char (Char.ofNat b.toNat)) ?_) hvisible
    rw [List.append_nil, List.nil_append] at hsplit
    exact hsplit ▸ List.mem_cons_self ..
  have hwhole : runes (a :: w ++ b :: t) = [] ++ (runes (a :: w) ++ m) ++ back := by
    rw [runes_append_lead _ (encodes_ascii hb.ascii).lead, runes_mark hb, hsplit]
    simp only [List.nil_append, List.append_assoc]
  have hbare' : Bare (runes (a :: w) ++ m) := by
    refine ⟨fun r hr => ?_, fun r hr => hbare.last r ?_⟩
    · rw [runes_mark ha] at hr
      cases hr
      exact ha.visible
    · rw [List.getLast?_append, List.getLast?_eq_some_getLast hm, Option.some_or] at hr
      rwa [List.getLast?_eq_some_getLast hm]
  rw [trim_eq, hwhole, stripped_of_bare hbare' (by simp) hback, ofRunes_append, ofRunes_runes,
    htrim]

/-- What ends a text is what ends the part after a visible character, if there is anything. -/
theorem getLast?_runes_mark (hb : Mark b) (t u : Text) :
    (runes (t ++ b :: u)).getLast? = (runes u).getLast?.or (some (.char (Char.ofNat b.toNat))) := by
  rw [runes_append_lead _ (encodes_ascii hb.ascii).lead, runes_mark hb, ← List.singleton_append,
    List.getLast?_append, List.getLast?_append, Option.or_assoc]
  rfl

end Regatta.Text
