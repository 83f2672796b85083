import Regatta.Proofs.Text.Padded
import Regatta.Proofs.Time.Calendar
import Regatta.Store.Stamp

/-! What is written of a time is read back as that time.

A date with a year of four digits is read off its text, whatever comes after it that could not be
part of a fraction (`readCalendar_text`), so a stamp stands for the instant it was written from
(`toInstant?_ofInstant`). -/
namespace Regatta.Stamp

theorem digits_padded {w n : Nat} (hw : 0 < w) (h : n < Number.tenTo w) (rest : Text) :
    digits w (Text.padded w n ++ rest) = some (n, rest) := by
  have hlength := Text.length_padded hw h
  have htake : (Text.padded w n ++ rest).take w = Text.padded w n := by
    rw [List.take_append_of_le_length (Nat.le_of_eq hlength.symm)]
    exact List.take_of_length_le (Nat.le_of_eq hlength)
  have hdrop : (Text.padded w n ++ rest).drop w = rest := by
    rw [List.drop_append_of_le_length (Nat.le_of_eq hlength.symm),
      List.drop_of_length_le (Nat.le_of_eq hlength), List.nil_append]
  have hall : (Text.padded w n).all Text.isDigit = true :=
    List.all_eq_true.mpr fun b hb => Text.isDigit_of_mem_padded hb
  unfold digits
  simp [htake, hdrop, hlength, hall, Text.digitsValue_padded]

theorem stripPrefix?_append (front rest : Text) :
    Text.stripPrefix? front (front ++ rest) = some rest := by
  simp [Text.stripPrefix?]

/-- What may follow a fraction: nothing that could belong to it. -/
def Bounded (rest : Text) : Prop :=
  ∀ b ∈ rest.head?, Text.isDigit b = false ∧ b ≠ 46

variable {c : Calendar} {rest : Text}

theorem Bounded.takeWhile (h : Bounded rest) : rest.takeWhile Text.isDigit = [] := by
  cases rest with
  | nil => rfl
  | cons b rest => rw [List.takeWhile_cons, (h b rfl).1, if_neg (by decide)]

theorem exists_significant (n : Nat) : ∃ k, Text.padded 9 n =
    ((Text.padded 9 n).reverse.dropWhile (· == 48)).reverse ++ List.replicate k 48 := by
  have hsplit := List.takeWhile_append_dropWhile (p := (· == 48)) (l := (Text.padded 9 n).reverse)
  have hzeros : (Text.padded 9 n).reverse.takeWhile (· == 48) =
      List.replicate ((Text.padded 9 n).reverse.takeWhile (· == 48)).length 48 :=
    List.eq_replicate_of_mem fun b hb => by simpa using List.all_eq_true.mp List.all_takeWhile b hb
  refine ⟨((Text.padded 9 n).reverse.takeWhile (· == 48)).length, ?_⟩
  rw [← List.reverse_replicate, ← hzeros, ← List.reverse_append, hsplit, List.reverse_reverse]

theorem fraction_text (h : c.nanos < Number.tenTo 9)
    (hrest : Bounded rest) : fraction (c.fractionText ++ rest) = some (c.nanos, rest) := by
  by_cases hzero : c.nanos = 0
  · have htext : c.fractionText = [] := by simp [Calendar.fractionText, hzero]
    rw [htext, hzero, List.nil_append]
    unfold fraction
    split
    · exact absurd rfl (hrest 46 rfl).2
    · rfl
  · obtain ⟨k, hk⟩ := exists_significant c.nanos
    generalize hds : ((Text.padded 9 c.nanos).reverse.dropWhile (· == 48)).reverse = ds at hk
    have htext : c.fractionText ++ rest = 46 :: (ds ++ rest) := by
      simp only [Calendar.fractionText, beq_iff_eq, hzero, if_false, hds]
      rfl
    have hlength : ds.length + k = 9 := by
      have := Text.length_padded (by decide) h
      rw [hk, List.length_append, List.length_replicate] at this
      exact this
    have hvalue : Text.digitsValue ds * Number.tenTo k = c.nanos := by
      rw [← Text.digitsValue_zeros_behind, ← hk, Text.digitsValue_padded]
    have hnonempty : ds ≠ [] := by
      rintro rfl
      rw [show Text.digitsValue [] = 0 from rfl, Nat.zero_mul] at hvalue
      exact hzero hvalue.symm
    have hdigits : (ds ++ rest).takeWhile Text.isDigit = ds := by
      rw [List.takeWhile_append_of_pos, hrest.takeWhile, List.append_nil]
      intro b hb
      exact Text.isDigit_of_mem_padded (hk ▸ List.mem_append_left _ hb)
    rw [htext]
    unfold fraction
    simp only [hdigits, List.drop_left]
    rw [if_neg (by simp [hnonempty]; omega), show 9 - ds.length = k by omega, hvalue]

/-- **A date is read off its text.** -/
theorem readCalendar_text (hc : c.Valid) (hyear : 0 ≤ c.year ∧ c.year < 10000)
    (between : Text) (hrest : Bounded rest) :
    readCalendar between (c.dateText ++ between ++ c.clockText ++ c.fractionText ++ rest) =
      some (c, rest) := by
  obtain ⟨hmonth, hday, hhour, hminute, hsecond, hnanos⟩ := hc
  have hcast : ((c.year.toNat : Nat) : Int) = c.year := Int.toNat_of_nonneg hyear.1
  have hyearText : Calendar.yearText c.year = Text.padded 4 c.year.toNat := by
    unfold Calendar.yearText
    rw [if_neg (by omega)]
  have hyears := digits_padded (w := 4) (by decide)
    (show c.year.toNat < Number.tenTo 4 by show _ < 10000; omega)
  have hdays := Calendar.daysIn_le c.year c.month
  have htwo : ∀ n, n < 100 → ∀ rest, digits 2 (Text.padded 2 n ++ rest) = some (n, rest) :=
    fun n hn => digits_padded (by decide) hn
  unfold readCalendar
  simp only [Calendar.dateText, Calendar.clockText, hyearText, List.append_assoc, hyears,
    htwo c.month (by omega), htwo c.day (by omega), htwo c.hour (by omega),
    htwo c.minute (by omega), htwo c.second (by omega), stripPrefix?_append,
    fraction_text hnanos hrest, Option.bind_eq_bind, Option.bind_some, hcast]
  rw [if_pos (by simp [hmonth, hday, hhour, hminute, hsecond])]

theorem bounded_zone : Bounded zone := by
  intro b hb
  rw [show zone.head? = some 32 by decide] at hb
  cases hb
  decide

/-- The instants whose years have four digits. -/
def Writable (t : Instant) : Prop :=
  0 ≤ (Calendar.ofInstant t).year ∧ (Calendar.ofInstant t).year < 10000

instance (t : Instant) : Decidable (Writable t) := inferInstanceAs (Decidable (_ ∧ _))

/-- **A stamp stands for the instant it was written from.** -/
theorem toInstant?_ofInstant {t : Instant} (h : Writable t) :
    toInstant? (ofInstant t) = some t := by
  have hread := readCalendar_text (Calendar.valid_ofInstant t) h " " bounded_zone
  unfold toInstant? ofInstant
  dsimp only
  rw [hread]
  simp [Calendar.toInstant_ofInstant]

end Regatta.Stamp
