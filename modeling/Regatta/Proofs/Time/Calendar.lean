import Regatta.Time.Instant

/-! The calendar form of an instant says everything about it.

A day of the 400-year era has a place (`Place`): a century, a four-year cycle in it, a year in that
and a day in that, where years begin in March so that a leap day comes last. Both directions of the
calendar agree with it, so that `toInstant_ofInstant` holds, and every date that comes out exists
(`Valid`). -/
namespace Regatta.Calendar

/-! ### Days of an era -/

/-- The place of a day in its era: century `c`, cycle `q`, year `r` of the cycle, day `d`. Only the
last year of a cycle can have 366 days, and the last cycle of a century lacks the extra day unless
it ends the era. -/
structure Place (doe c q r d : Nat) : Prop where
  century : c ≤ 3
  cycle : q ≤ 24
  year : r ≤ 3
  doe : doe = 36524 * c + 1461 * q + 365 * r + d
  day : d ≤ 364 ∨ (d = 365 ∧ r = 3 ∧ (q < 24 ∨ c = 3))

theorem exists_place {doe : Nat} (h : doe < 146097) : ∃ c q r d, Place doe c q r d := by
  obtain ⟨c, hc, hle, hlt⟩ : ∃ c, c ≤ 3 ∧ 36524 * c ≤ doe ∧
      (doe < 36524 * (c + 1) ∨ (c = 3 ∧ doe ≤ 36524 * 4)) :=
    ⟨min (doe / 36524) 3, by omega⟩
  have hq : (doe - 36524 * c) / 1461 ≤ 24 := by omega
  obtain ⟨r, hr, hler, hltr⟩ : ∃ r, r ≤ 3 ∧ 365 * r ≤ (doe - 36524 * c) % 1461 ∧
      ((doe - 36524 * c) % 1461 < 365 * (r + 1) ∨ (r = 3 ∧ (doe - 36524 * c) % 1461 ≤ 1460)) :=
    ⟨min ((doe - 36524 * c) % 1461 / 365) 3, by omega⟩
  refine ⟨c, (doe - 36524 * c) / 1461, r, (doe - 36524 * c) % 1461 - 365 * r, hc, hq, hr, ?_, ?_⟩
  · omega
  · omega

variable {doe c q r d : Nat}

namespace Place
variable (h : Place doe c q r d)
include h

theorem year_lt : 100 * c + 4 * q + r < 400 := by
  have := h.century
  have := h.cycle
  have := h.year
  omega

theorem day_le : d ≤ 365 := by
  have := h.day
  omega

theorem yearOfEra :
    (doe - doe / 1460 + doe / 36524 - doe / 146096) / 365 = 100 * c + 4 * q + r := by
  obtain ⟨hc, hq, hr, hdoe, hd⟩ := h
  have hrest : 1461 * q + 365 * r + d < 36524 ∨ (c = 3 ∧ 1461 * q + 365 * r + d = 36524) := by
    omega
  have hcentury : doe / 36524 = c + doe / 146096 := by
    rcases hrest with hrest | ⟨rfl, hrest⟩
    · rw [Nat.div_eq_of_lt (show doe < 146096 by omega), Nat.div_eq_iff (by omega)]
      omega
    · rw [show doe = 146096 by omega]
  -- a cycle has one day more than four times 365, so the quotient may be ahead by one
  have hcycle : doe / 1460 = 25 * c + q ∧ d ≤ 364 ∨
      doe / 1460 = 25 * c + q + 1 ∧ 1 ≤ d ∧ d ≤ 365 := by omega
  have hyear : doe - doe / 1460 + doe / 36524 - doe / 146096 = doe + c - doe / 1460 := by omega
  rw [hyear, Nat.div_eq_iff (by omega)]
  omega

theorem dayOfYear : doe - (365 * (100 * c + 4 * q + r) +
    (100 * c + 4 * q + r) / 4 - (100 * c + 4 * q + r) / 100) = d := by
  obtain ⟨hc, hq, hr, rfl, -⟩ := h
  omega

/-- A year that starts in March and has 366 days ends in a leap year. -/
theorem isLeap (hd : d = 365) (era : Int) :
    isLeap (((100 * c + 4 * q + r : Nat) : Int) + era * 400 + 1) = true := by
  obtain ⟨hc, hq, hr, -, hday⟩ := h
  have hmod : (((100 * c + 4 * q + r : Nat) : Int) + era * 400 + 1) % 4 = 0 := by omega
  have hor : (((100 * c + 4 * q + r : Nat) : Int) + era * 400 + 1) % 100 ≠ 0 ∨
      (((100 * c + 4 * q + r : Nat) : Int) + era * 400 + 1) % 400 = 0 := by omega
  unfold Calendar.isLeap
  simp only [Bool.and_eq_true, Bool.or_eq_true, beq_iff_eq, bne_iff_ne]
  exact ⟨hmod, hor⟩

end Place

/-! ### Dates -/

/-- The date of a day of a year that starts in March. -/
def civil (era : Int) (yearOfEra dayOfYear : Nat) : Int × Nat × Nat :=
  let mp := (5 * dayOfYear + 2) / 153
  let month := if mp < 10 then mp + 3 else mp - 9
  let year := (yearOfEra : Int) + era * 400
  (if month ≤ 2 then year + 1 else year, month, dayOfYear - (153 * mp + 2) / 5 + 1)

theorem civilFromDays_eq {days era : Int} (hdays : days + 719468 = era * 146097 + doe)
    (h : Place doe c q r d) : civilFromDays days = civil era (100 * c + 4 * q + r) d := by
  have hdoe : doe < 146097 := by
    obtain ⟨hc, hq, hr, rfl, hday⟩ := h
    omega
  have hera : (days + 719468).fdiv 146097 = era := by
    rw [hdays, Int.fdiv_eq_ediv_of_nonneg _ (by omega)]
    omega
  have hrest : (days + 719468 - era * 146097).toNat = doe := by omega
  unfold civilFromDays
  dsimp only
  rw [hera, hrest, h.yearOfEra, h.dayOfYear]
  rfl

variable {doy : Nat} (era : Int) (yoe : Nat) (days : Int) (t : Instant)

theorem daysFromCivil_civil {yoe : Nat} (hyoe : yoe < 400) (hdoy : doy ≤ 365) :
    daysFromCivil (civil era yoe doy).1 (civil era yoe doy).2.1 (civil era yoe doy).2.2 =
      era * 146097 + ((yoe * 365 + yoe / 4 - yoe / 100 + doy : Nat) : Int) - 719468 := by
  unfold civil daysFromCivil
  dsimp only
  obtain ⟨mp, hmp⟩ : ∃ mp, mp = (5 * doy + 2) / 153 := ⟨_, rfl⟩
  have hmp_le : mp ≤ 11 := by omega
  rw [← hmp]
  have hyear : ∀ month : Nat, (if month ≤ 2 then
      (if month ≤ 2 then (yoe : Int) + era * 400 + 1 else (yoe : Int) + era * 400) - 1
      else (if month ≤ 2 then (yoe : Int) + era * 400 + 1 else (yoe : Int) + era * 400)) =
      (yoe : Int) + era * 400 := by
    intro month
    split <;> omega
  have hmonth : ((if mp < 10 then mp + 3 else mp - 9) + 9) % 12 = mp := by
    split <;> omega
  have hera : ((yoe : Int) + era * 400).fdiv 400 = era := by
    rw [Int.fdiv_eq_ediv_of_nonneg _ (by omega)]
    omega
  have hrest : ((yoe : Int) + era * 400 - era * 400).toNat = yoe := by omega
  have hday : (153 * mp + 2) / 5 + (doy - (153 * mp + 2) / 5 + 1) - 1 = doy := by omega
  rw [hyear, hmonth, hera, hrest, hday]

structure Valid (c : Calendar) : Prop where
  month : 1 ≤ c.month ∧ c.month ≤ 12
  day : 1 ≤ c.day ∧ c.day ≤ daysIn c.year c.month
  hour : c.hour < 24
  minute : c.minute < 60
  second : c.second < 60
  nanos : c.nanos < 1000000000

theorem daysIn_le (year : Int) (month : Nat) : daysIn year month ≤ 31 := by
  unfold daysIn
  split
  · split <;> omega
  all_goals omega

theorem civil_month (hdoy : doy ≤ 365) :
    1 ≤ (civil era yoe doy).2.1 ∧ (civil era yoe doy).2.1 ≤ 12 := by
  unfold civil
  dsimp only
  split <;> omega

theorem civil_day (hdoy : doy ≤ 365)
    (hleap : doy = 365 → isLeap ((yoe : Int) + era * 400 + 1) = true) :
    1 ≤ (civil era yoe doy).2.2 ∧
      (civil era yoe doy).2.2 ≤ daysIn (civil era yoe doy).1 (civil era yoe doy).2.1 := by
  unfold civil
  dsimp only
  obtain ⟨mp, hmp⟩ : ∃ mp, mp = (5 * doy + 2) / 153 := ⟨_, rfl⟩
  rw [← hmp]
  refine ⟨by omega, ?_⟩
  by_cases hfebruary : mp = 11
  · subst hfebruary
    show doy - 337 + 1 ≤ if isLeap ((yoe : Int) + era * 400 + 1) then 29 else 28
    split
    · omega
    · rename_i hcommon
      have : doy ≠ 365 := fun h => hcommon (hleap h)
      omega
  · -- the lengths of the other months do not depend on the year
    have hcases : mp = 0 ∨ mp = 1 ∨ mp = 2 ∨ mp = 3 ∨ mp = 4 ∨ mp = 5 ∨ mp = 6 ∨ mp = 7 ∨
        mp = 8 ∨ mp = 9 ∨ mp = 10 := by omega
    rcases hcases with rfl | rfl | rfl | rfl | rfl | rfl | rfl | rfl | rfl | rfl | rfl <;>
      simp only [daysIn, Nat.reduceLT, if_true, if_false, Nat.reduceAdd, Nat.reduceSub] <;> omega

/-! ### Instants -/

theorem exists_place_days : ∃ era doe c q r d,
    days + 719468 = era * 146097 + ((doe : Nat) : Int) ∧ Place doe c q r d := by
  obtain ⟨c, q, r, d, hplace⟩ :=
    exists_place (show ((days + 719468) % 146097).toNat < 146097 by omega)
  exact ⟨(days + 719468) / 146097, _, c, q, r, d, by omega, hplace⟩

theorem daysFromCivil_civilFromDays :
    daysFromCivil (civilFromDays days).1 (civilFromDays days).2.1 (civilFromDays days).2.2 =
      days := by
  obtain ⟨era, doe, c, q, r, d, hdays, hplace⟩ := exists_place_days days
  rw [civilFromDays_eq hdays hplace, daysFromCivil_civil era hplace.year_lt hplace.day_le]
  obtain ⟨hc, hq, hr, rfl, -⟩ := hplace
  omega

/-- **The calendar form of an instant is a date that exists.** -/
theorem valid_ofInstant : (ofInstant t).Valid := by
  obtain ⟨era, doe, c, q, r, d, hdays, hplace⟩ := exists_place_days ((t.fdiv 1000000000).fdiv 86400)
  have hday := civil_day era _ hplace.day_le fun h => hplace.isLeap h era
  have hmonth := civil_month era (100 * c + 4 * q + r) hplace.day_le
  rw [← civilFromDays_eq hdays hplace] at hday hmonth
  have hseconds : ((t.fdiv 1000000000).fmod 86400).toNat < 86400 := by
    rw [Int.fmod_eq_emod_of_nonneg _ (by omega)]
    omega
  have hnanos : (t.fmod 1000000000).toNat < 1000000000 := by
    rw [Int.fmod_eq_emod_of_nonneg _ (by omega)]
    omega
  refine ⟨hmonth, hday, ?_, ?_, ?_, hnanos⟩
  · show _ / 3600 < 24
    omega
  · show _ / 60 % 60 < 60
    omega
  · show _ % 60 < 60
    omega

theorem recombine (t : Int) :
    (t.fdiv 1000000000).fdiv 86400 * 86400 +
      ((((t.fdiv 1000000000).fmod 86400).toNat / 3600 : Nat) : Int) * 3600 +
      ((((t.fdiv 1000000000).fmod 86400).toNat / 60 % 60 : Nat) : Int) * 60 +
      ((((t.fdiv 1000000000).fmod 86400).toNat % 60 : Nat) : Int) = t.fdiv 1000000000 ∧
    t.fdiv 1000000000 * 1000000000 + ((t.fmod 1000000000).toNat : Int) = t := by
  simp only [Int.fdiv_eq_ediv_of_nonneg _ (show (0 : Int) ≤ 1000000000 by omega),
    Int.fdiv_eq_ediv_of_nonneg _ (show (0 : Int) ≤ 86400 by omega),
    Int.fmod_eq_emod_of_nonneg _ (show (0 : Int) ≤ 1000000000 by omega),
    Int.fmod_eq_emod_of_nonneg _ (show (0 : Int) ≤ 86400 by omega)]
  omega

/-- **An instant is what its calendar form stands for.** -/
theorem toInstant_ofInstant : (ofInstant t).toInstant = t := by
  obtain ⟨hseconds, hnanos⟩ := recombine t
  unfold toInstant ofInstant
  dsimp only
  rw [daysFromCivil_civilFromDays, hseconds, hnanos]

end Regatta.Calendar
