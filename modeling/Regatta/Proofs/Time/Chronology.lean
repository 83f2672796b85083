import Regatta.Proofs.Time.Calendar

/-! Dates are in the order of the instants they stand for.

Dates and times of day are compared part by part, the year first (`Before`). A date that exists stands
for an earlier instant than any date after it (`toInstant_lt`), and since the calendar form of an
instant stands for that instant, an earlier instant has an earlier date (`before_ofInstant`). -/
namespace Regatta.Calendar

/-- The first part decides, and `next` where it is the same. -/
def Lex (a b : Int) (next : Prop) : Prop := a < b ∨ (a = b ∧ next)

/-- The date of `c` comes before that of `c'`, or they are the same and `next` holds. -/
def DateLex (c c' : Calendar) (next : Prop) : Prop :=
  Lex c.year c'.year (Lex c.month c'.month (Lex c.day c'.day next))

def ClockBefore (c c' : Calendar) : Prop :=
  Lex c.hour c'.hour (Lex c.minute c'.minute (Lex c.second c'.second (c.nanos < c'.nanos)))

def Before (c c' : Calendar) : Prop := DateLex c c' (ClockBefore c c')

/-! ### Days

Years are counted from March to March, as in the day count itself, so that a leap day comes last. -/

def marchDays (year : Int) : Int := 365 * year + year / 4 - year / 100 + year / 400

theorem marchDays_mono {y y' : Int} (h : y ≤ y') : marchDays y ≤ marchDays y' := by
  unfold marchDays
  omega

/-- From one March to the next there are 365 days, and one more where the February between them has a
leap day. -/
theorem marchDays_step (year : Int) :
    marchDays (year - 1) + (if isLeap year then 366 else 365) ≤ marchDays year := by
  unfold marchDays
  split
  · rename_i h
    simp only [isLeap, Bool.and_eq_true, Bool.or_eq_true, beq_iff_eq, bne_iff_ne] at h
    omega
  · omega

/-- The days from March to the month with this number, March being zero. -/
def monthDays (k : Nat) : Nat := (153 * k + 2) / 5

def dayOfYear (month day : Nat) : Nat := monthDays ((month + 9) % 12) + day - 1

theorem daysFromCivil_eq (year : Int) (month day : Nat) : daysFromCivil year month day =
    marchDays (if month ≤ 2 then year - 1 else year) + dayOfYear month day - 719468 := by
  unfold daysFromCivil marchDays dayOfYear monthDays
  dsimp only
  generalize (if month ≤ 2 then year - 1 else year) = y
  rw [Int.fdiv_eq_ediv_of_nonneg _ (by omega)]
  omega

/-- The days of a month come before those of the next. Only February depends on the year. -/
theorem dayOfYear_lt {year : Int} {month day : Nat} (hmonth : 1 ≤ month ∧ month ≤ 12)
    (hother : month ≠ 2) (hday : 1 ≤ day ∧ day ≤ daysIn year month) :
    dayOfYear month day < monthDays ((month + 9) % 12 + 1) := by
  obtain ⟨hfirst, hlast⟩ := hday
  unfold dayOfYear monthDays
  have hcases : month = 1 ∨ month = 3 ∨ month = 4 ∨ month = 5 ∨ month = 6 ∨ month = 7 ∨ month = 8 ∨
      month = 9 ∨ month = 10 ∨ month = 11 ∨ month = 12 := by omega
  rcases hcases with rfl | rfl | rfl | rfl | rfl | rfl | rfl | rfl | rfl | rfl | rfl <;>
    simp only [daysIn] at hlast <;> omega

theorem le_dayOfYear (month : Nat) {day : Nat} (h : 1 ≤ day) :
    monthDays ((month + 9) % 12) ≤ dayOfYear month day := by
  unfold dayOfYear
  omega

/-- A date with its month and its day in range. -/
structure IsDate (year : Int) (month day : Nat) : Prop where
  months : 1 ≤ month ∧ month ≤ 12
  days : 1 ≤ day ∧ day ≤ daysIn year month

section Days
variable {year year' : Int} {month month' day day' : Nat}

theorem IsDate.early (h : IsDate year month day) (hmonth : month ≤ 2) :
    marchDays (year - 1) + 306 ≤ daysFromCivil year month day + 719468 ∧
      daysFromCivil year month day + 719468 < marchDays year := by
  obtain ⟨⟨hlow, -⟩, hfirst, hlast⟩ := h
  have hstep := marchDays_step year
  rw [daysFromCivil_eq, if_pos hmonth]
  unfold dayOfYear monthDays
  have hcases : month = 1 ∨ month = 2 := by omega
  rcases hcases with rfl | rfl
  · have hlast' : day ≤ 31 := hlast
    split at hstep <;> omega
  · -- the last day of February is the last one before March
    have hlast' : day ≤ if isLeap year then 29 else 28 := hlast
    cases hleap : isLeap year <;>
      simp only [hleap, if_true, Bool.false_eq_true, if_false] at hlast' hstep <;> omega

theorem IsDate.late (h : IsDate year month day) (hmonth : 3 ≤ month) :
    marchDays year ≤ daysFromCivil year month day + 719468 ∧
      daysFromCivil year month day + 719468 < marchDays year + 306 := by
  have hbound := dayOfYear_lt h.months (by omega) h.days
  have hmonths := h.months
  rw [daysFromCivil_eq, if_neg (by omega)]
  unfold monthDays at hbound
  omega

theorem daysFromCivil_lt_of_year (h : IsDate year month day) (h' : IsDate year' month' day')
    (hlt : year < year') : daysFromCivil year month day < daysFromCivil year' month' day' := by
  have hmono := marchDays_mono (show year ≤ year' - 1 by omega)
  have hstep := marchDays_step year'
  have hleft : daysFromCivil year month day + 719468 < marchDays year + 306 := by
    by_cases hmonth : month ≤ 2
    · have := (h.early hmonth).2
      omega
    · exact (h.late (by omega)).2
  have hright : marchDays (year' - 1) + 306 ≤ daysFromCivil year' month' day' + 719468 := by
    by_cases hmonth : month' ≤ 2
    · exact (h'.early hmonth).1
    · have := (h'.late (by omega)).1
      split at hstep <;> omega
  omega

theorem daysFromCivil_lt_of_month (h : IsDate year month day) (h' : IsDate year month' day')
    (hlt : month < month') : daysFromCivil year month day < daysFromCivil year month' day' := by
  have hmonths := h.months
  have hmonths' := h'.months
  by_cases hmarch : month ≤ 2 ∧ 3 ≤ month'
  · have := (h.early hmarch.1).2
    have := (h'.late hmarch.2).1
    omega
  · -- both months are on the same side of March
    have hbound := dayOfYear_lt h.months (by omega) h.days
    have hstart := le_dayOfYear month' h'.days.1
    have hside : (if month ≤ 2 then year - 1 else year) = if month' ≤ 2 then year - 1 else year := by
      split <;> split <;> omega
    rw [daysFromCivil_eq, daysFromCivil_eq, hside]
    unfold monthDays at hbound hstart
    omega

theorem daysFromCivil_lt_of_day (h : 1 ≤ day) (hlt : day < day') :
    daysFromCivil year month day < daysFromCivil year month day' := by
  rw [daysFromCivil_eq, daysFromCivil_eq]
  unfold dayOfYear
  omega

end Days

/-! ### Instants -/

variable {c c' : Calendar}

theorem Valid.isDate (h : c.Valid) : IsDate c.year c.month c.day := ⟨h.month, h.day⟩

/-- A date that comes before another is of a day before, or it is the same date. -/
theorem DateLex.days {next : Prop} (h : DateLex c c' next) (hc : c.Valid) (hc' : c'.Valid) :
    Lex (daysFromCivil c.year c.month c.day) (daysFromCivil c'.year c'.month c'.day) next := by
  rcases h with hyear | ⟨hyear, hmonth | ⟨hmonth, hday | ⟨hday, hnext⟩⟩⟩
  · exact .inl (daysFromCivil_lt_of_year hc.isDate hc'.isDate hyear)
  · have hdate := hc'.isDate
    rw [← hyear] at hdate ⊢
    exact .inl (daysFromCivil_lt_of_month hc.isDate hdate (Int.ofNat_lt.mp hmonth))
  · rw [← hyear, ← Int.ofNat_inj.mp hmonth]
    exact .inl (daysFromCivil_lt_of_day hc.day.1 (Int.ofNat_lt.mp hday))
  · rw [← hyear, ← Int.ofNat_inj.mp hmonth, ← Int.ofNat_inj.mp hday]
    exact .inr ⟨rfl, hnext⟩

/-- **A date before another stands for an earlier instant.** -/
theorem toInstant_lt (hc : c.Valid) (hc' : c'.Valid) (h : Before c c') :
    c.toInstant < c'.toInstant := by
  have hdays := h.days hc hc'
  obtain ⟨-, -, hhour, hminute, hsecond, hnanos⟩ := hc
  obtain ⟨-, -, hhour', hminute', hsecond', hnanos'⟩ := hc'
  unfold toInstant
  generalize daysFromCivil c.year c.month c.day = days at hdays ⊢
  generalize daysFromCivil c'.year c'.month c'.day = days' at hdays ⊢
  unfold ClockBefore Lex at hdays
  show (_ : Int) < _
  omega

theorem before_trichotomy (c c' : Calendar) : Before c c' ∨ c = c' ∨ Before c' c := by
  obtain ⟨year, month, day, hour, minute, second, nanos⟩ := c
  obtain ⟨year', month', day', hour', minute', second', nanos'⟩ := c'
  simp only [Before, DateLex, ClockBefore, Lex, Calendar.mk.injEq]
  omega

/-- **An earlier instant has an earlier date.** -/
theorem before_ofInstant {t u : Instant} (h : t < u) : Before (ofInstant t) (ofInstant u) := by
  rcases before_trichotomy (ofInstant t) (ofInstant u) with hbefore | heq | hafter
  · exact hbefore
  · rw [← toInstant_ofInstant t, heq, toInstant_ofInstant u] at h
    exact absurd h (Int.lt_irrefl u)
  · have hlt := toInstant_lt (valid_ofInstant u) (valid_ofInstant t) hafter
    rw [toInstant_ofInstant, toInstant_ofInstant] at hlt
    exact absurd h (Int.lt_asymm hlt)

end Regatta.Calendar
