import Regatta.Cli.Race
import Regatta.Proofs.Decimal.Nearest

/-! Elapsed times with two decimals, as a race shows them and as a report does.

A race leaves the rounding to the notation, which takes the nearest hundredth of the seconds, and
the even one of two. A report multiplies by a hundred first, takes the nearest whole number, the
larger one of two, and divides again. That comes to the same unless the product is rounded to a half
that the notation rounds down (`Duration.Teeters`), and then the report is ahead by a hundredth
(`Row.time_eq_shownTime_iff`). -/
namespace Regatta

open Double (Amounts Nearest)
open Decimal (hundredthsText)

/-! ### Seconds -/

namespace Duration

variable {n : Nat} {f v : ℚ}

def fraction (n : Nat) : Double :=
  (Double.ofInt (n % 1000000000 : Nat)).div (Double.ofInt (1000000000 : Nat))

theorem nearest_fraction (n : Nat) :
    Nearest ((n % 1000000000 : Nat) / (1000000000 : Nat)) (fraction n) := by
  refine Double.nearest_div (Double.amounts_ofInt ?_) (Double.amounts_ofInt ?_) ?_
  · omega
  · norm_num
  · norm_num

theorem fraction_le_one (n : Nat) : ((n % 1000000000 : Nat) : ℚ) / (1000000000 : Nat) ≤ 1 := by
  rw [div_le_one (by norm_num)]
  exact_mod_cast (Nat.mod_lt n (by decide)).le

theorem exists_fraction (n : Nat) : ∃ f, Amounts (fraction n) f ∧ f ≤ 1 := by
  have hnearest := nearest_fraction n
  have hone := fraction_le_one n
  obtain ⟨f, hf⟩ := hnearest.exists_amounts (hone.trans_lt (by norm_num))
  have hle := hnearest.le_natCast hf (n := 1) (by norm_num) (by simpa using hone)
  exact ⟨f, hf, by simpa using hle⟩

theorem seconds_natCast (n : Nat) :
    seconds n = (Double.ofInt (n / 1000000000 : Nat)).add (fraction n) := by
  have hdiv : Int.tdiv n 1000000000 = (n / 1000000000 : Nat) := (Int.ofNat_tdiv n 1000000000).symm
  have hmod : Int.tmod n 1000000000 = (n % 1000000000 : Nat) := (Int.ofNat_tmod n 1000000000).symm
  unfold seconds second
  rw [hdiv, hmod]
  rfl

theorem nearest_seconds (hn : n < Number.wordLimit) (hf : Amounts (fraction n) f) :
    Nearest ((n / 1000000000 : Nat) + f) (seconds n) := by
  have hlimit : n < 9223372036854775808 := hn
  rw [seconds_natCast]
  exact Double.nearest_add (Double.amounts_ofInt (by omega)) hf

theorem exists_seconds (hn : n < Number.wordLimit) :
    ∃ v, Amounts (seconds n) v ∧ v ≤ (n / 1000000000 + 1 : Nat) := by
  have hlimit : n < 9223372036854775808 := hn
  obtain ⟨f, hf, hle⟩ := exists_fraction n
  have hnearest := nearest_seconds hn hf
  have hsum : ((n / 1000000000 : Nat) : ℚ) + f ≤ (n / 1000000000 + 1 : Nat) := by
    rw [Nat.cast_add_one]
    linarith
  have hwhole : n / 1000000000 + 1 < 2 ^ 53 := by omega
  obtain ⟨v, hv⟩ := hnearest.exists_amounts (hsum.trans_lt (by exact_mod_cast hwhole))
  exact ⟨v, hv, hnearest.le_natCast hv hwhole hsum⟩

theorem sizable_fraction (n : Nat) :
    Double.Sizable (-30) ((n % 1000000000 : Nat) / (1000000000 : Nat)) :=
  Double.sizable_ratio _ (by decide) (by norm_num)

theorem sizable_sum (hf : Amounts (fraction n) f) :
    Double.Sizable (-31) ((n / 1000000000 : Nat) + f) := by
  rcases Nat.eq_zero_or_pos (n / 1000000000) with hzero | hpos
  · rw [hzero, Nat.cast_zero, zero_add]
    exact (nearest_fraction n).sizable hf (by decide) (sizable_fraction n)
  · have hone : (1 : ℚ) ≤ (n / 1000000000 : Nat) := by exact_mod_cast hpos
    refine .inr (le_trans ?_ (hone.trans (le_add_of_nonneg_right hf.nonneg)))
    norm_num

theorem sizable_seconds (hn : n < Number.wordLimit) (hv : Amounts (seconds n) v) :
    Double.Sizable (-32) v := by
  obtain ⟨f, hf, -⟩ := exists_fraction n
  exact (nearest_seconds hn hf).sizable hv (by decide) (sizable_sum hf)

theorem cast_div_billion (n : Nat) : (n : ℚ) / 1000000000 =
    (n / 1000000000 : Nat) + (n % 1000000000 : Nat) / (1000000000 : Nat) := by
  have hsplit : (n : ℚ) = 1000000000 * (n / 1000000000 : Nat) + (n % 1000000000 : Nat) := by
    exact_mod_cast (Nat.div_add_mod n 1000000000).symm
  rw [Nat.cast_ofNat, div_eq_iff (by norm_num), add_mul, div_mul_cancel₀ _ (by norm_num), mul_comm]
  exact hsplit

theorem seconds_error (hn : n < Number.wordLimit) (hv : Amounts (seconds n) v) :
    |v - n / 1000000000| ≤ ((n / 1000000000 : Nat) + 2) / 2 ^ 53 := by
  obtain ⟨f, hf, hle⟩ := exists_fraction n
  have hone := fraction_le_one n
  have hpart := (nearest_fraction n).error hf ((sizable_fraction n).mono (by decide))
  have hsum := (nearest_seconds hn hf).error hv ((sizable_sum hf).mono (by decide))
  rw [cast_div_billion]
  obtain ⟨q, hq⟩ : ∃ q, ((n % 1000000000 : Nat) : ℚ) / (1000000000 : Nat) = q := ⟨_, rfl⟩
  rw [hq] at hone hpart ⊢
  generalize ((n / 1000000000 : Nat) : ℚ) = w at *
  calc |v - (w + q)| = |(v - (w + f)) + (f - q)| := by ring_nf
    _ ≤ |v - (w + f)| + |f - q| := abs_add_le _ _
    _ ≤ (w + f) / 2 ^ 53 + q / 2 ^ 53 := add_le_add hsum hpart
    _ ≤ (w + 2) / 2 ^ 53 := by linarith

/-- Whole eighths of a second are not rounded. -/
theorem amounts_seconds_of_dvd (hn : n < Number.wordLimit) (h : 125000000 ∣ n) :
    Amounts (seconds n) (n / 1000000000) := by
  have hlimit : n < 9223372036854775808 := hn
  obtain ⟨z, hz⟩ : ∃ z, n % 1000000000 = 125000000 * z := ⟨n % 1000000000 / 125000000, by omega⟩
  have hq : ((n % 1000000000 : Nat) : ℚ) / (1000000000 : Nat) = (z : Int) * 2 ^ (-3 : Int) := by
    rw [hz]
    push_cast
    ring
  have hone := fraction_le_one n
  have hpart : Amounts (fraction n) ((n % 1000000000 : Nat) / (1000000000 : Nat)) :=
    (nearest_fraction n).exact (by decide) (by decide) (hone.trans_lt (by norm_num)) hq
  have hsum := nearest_seconds hn hpart
  have hwhole : n / 1000000000 + 1 < 2 ^ 50 := by omega
  rw [cast_div_billion]
  rw [hq] at hsum hone ⊢
  generalize n / 1000000000 = w at *
  refine hsum.exact (g := -3) (z := (8 * w + z : Nat)) (by decide) (by decide) ?_ ?_
  · have hcast : (w : ℚ) + 1 < 2 ^ 50 := by exact_mod_cast hwhole
    exact lt_of_le_of_lt (by linarith) hcast
  · push_cast
    ring

end Duration

/-! ### Hundredths -/

namespace Row

variable {s : Double} {v p : ℚ}

theorem amounts_hundred : Amounts (Double.ofInt 100) 100 := by
  exact_mod_cast Double.amounts_ofInt (n := 100) (by norm_num)

/-- A product by a hundred is rounded to the same side of every half. -/
theorem exists_product (hv : Amounts s v) (hle : v ≤ 2 ^ 40) :
    ∃ p, Amounts (s.mul (Double.ofInt 100)) p ∧ p < 2 ^ 50 ∧
      ∀ z : Int, (v * 100 ≤ z / 2 → p ≤ z / 2) ∧ (z / 2 ≤ v * 100 → z / 2 ≤ p) := by
  have hnearest := Double.nearest_mul hv amounts_hundred
  obtain ⟨p, hp, hgrid⟩ := hnearest.grid (g := -1) (by decide) (by decide) (by norm_num; linarith)
  have hsmall : p ≤ (2 ^ 49 : Nat) :=
    hnearest.le_natCast hp (by norm_num) (by push_cast; linarith)
  refine ⟨p, hp, hsmall.trans_lt (by norm_num), fun z => ?_⟩
  have hz := hgrid z
  rwa [zpow_neg_one, ← div_eq_mul_inv] at hz

/-- What a report shows: the nearest number of hundredths, the larger one of two. -/
theorem fixed_hundredths (hp : Amounts (s.mul (Double.ofInt 100)) p) (hless : p < 2 ^ 50) :
    ∃ k : Nat, ⌊p + 1 / 2⌋ = k ∧ Decimal.fixed 2 (Row.hundredths s) = hundredthsText k := by
  have hpos : 0 ≤ ⌊p + 1 / 2⌋ := Int.floor_nonneg.mpr (by linarith [hp.nonneg])
  obtain ⟨k, hk⟩ := Int.eq_ofNat_of_zero_le hpos
  have hround := Double.amounts_round hp (hless.trans (by norm_num))
  rw [hk, Int.cast_natCast] at hround
  have hsmall : (k : ℚ) < 2 ^ 51 := by
    have hfloor := Int.floor_le (p + 1 / 2)
    rw [hk, Int.cast_natCast] at hfloor
    linarith
  have hquotient := Double.nearest_div hround amounts_hundred (by norm_num)
  obtain ⟨u, hu⟩ := hquotient.exists_amounts (by linarith)
  have hsizable : Double.Sizable (-7) (k / (100 : Nat)) :=
    Double.sizable_ratio k (by decide) (by norm_num)
  rw [Nat.cast_ofNat] at hsizable
  have herror := hquotient.error hu (hsizable.mono (by decide))
  -- the quotient is off by too little to change the hundredths
  have hnearest : HalfEven (u * 100) k := by
    have hscaled : (k : ℚ) - u * 100 = -((u - k / 100) * 100) := by ring
    rw [HalfEven, hscaled, abs_neg, abs_mul, abs_of_pos (by norm_num : (0 : ℚ) < 100)]
    left
    linarith
  obtain ⟨k', hk', htext⟩ := Decimal.fixed_two hu
  rw [← hnearest.unique hk'] at htext
  exact ⟨k, hk, htext⟩

theorem floor_add_half {q : ℚ} {n : Nat} (h : HalfEven q n)
    (hgrid : ∀ z : Int, (q ≤ z / 2 → p ≤ z / 2) ∧ (z / 2 ≤ q → z / 2 ≤ p)) :
    ⌊p + 1 / 2⌋ = n ∧ p ≠ n + 1 / 2 ∨ ⌊p + 1 / 2⌋ = n + 1 ∧ p = n + 1 / 2 := by
  obtain ⟨hbelow, habove⟩ := abs_le.mp h.error
  have hle := (hgrid (2 * n + 1)).1
  have hge := (hgrid (2 * n - 1)).2
  push_cast at hle hge
  have hp : p ≤ n + 1 / 2 := by linarith [hle (by linarith)]
  have hp' : n - 1 / 2 ≤ p := by linarith [hge (by linarith)]
  rcases hp.lt_or_eq with hlt | heq
  · refine .inl ⟨Int.floor_eq_iff.mpr ⟨?_, ?_⟩, hlt.ne⟩
    · push_cast
      linarith
    · push_cast
      linarith
  · refine .inr ⟨Int.floor_eq_iff.mpr ⟨?_, ?_⟩, heq⟩
    · push_cast
      linarith
    · push_cast
      linarith

end Row

/-! ### The two texts -/

namespace Duration

variable {n : Nat}

/-- The nearest number of hundredths is below a half, but times a hundred the seconds are rounded to
that half. -/
def Teeters (d : Duration) : Prop :=
  ∃ (v : ℚ) (j : Nat), Amounts d.seconds v ∧ HalfEven (v * 100) j ∧
    Amounts (d.seconds.mul (Double.ofInt 100)) (j + 1 / 2)

theorem fixed_cases (hn : n < Number.wordLimit) : ∃ j : Nat,
    Decimal.fixed 2 (seconds n) = hundredthsText j ∧
      (¬ Teeters n ∧ Decimal.fixed 2 (Row.hundredths (seconds n)) = hundredthsText j ∨
        Teeters n ∧ Decimal.fixed 2 (Row.hundredths (seconds n)) = hundredthsText (j + 1)) := by
  have hlimit : n < 9223372036854775808 := hn
  obtain ⟨v, hv, hle⟩ := exists_seconds hn
  have hwhole : n / 1000000000 + 1 ≤ 2 ^ 40 := by omega
  obtain ⟨p, hp, hless, hgrid⟩ := Row.exists_product hv (hle.trans (by exact_mod_cast hwhole))
  obtain ⟨j, hj, htext⟩ := Decimal.fixed_two hv
  obtain ⟨k, hk, hreport⟩ := Row.fixed_hundredths hp hless
  refine ⟨j, htext, ?_⟩
  rw [hreport]
  rcases Row.floor_add_half hj hgrid with ⟨hfloor, hne⟩ | ⟨hfloor, heq⟩
  · refine .inl ⟨?_, ?_⟩
    · rintro ⟨v', j', hv', hj', hp'⟩
      rw [hv'.unique hv] at hj'
      rw [hj'.unique hj] at hp'
      exact hne (hp.unique hp')
    · have hkj : k = j := by omega
      rw [hkj]
  · refine .inr ⟨⟨v, j, hv, hj, heq ▸ hp⟩, ?_⟩
    have hkj : k = j + 1 := by omega
    rw [hkj]

theorem product_error {v p : ℚ} (hn : n < Number.wordLimit) (hv : Amounts (seconds n) v)
    (hp : Amounts ((seconds n).mul (Double.ofInt 100)) p) : |p - v * 100| ≤ v * 100 / 2 ^ 53 := by
  refine (Double.nearest_mul hv Row.amounts_hundred).error hp ?_
  rcases (sizable_seconds hn hv).mono (by decide : (-1022 : Int) ≤ -32) with rfl | hle
  · exact .inl (zero_mul _)
  · exact .inr (hle.trans (le_mul_of_one_le_right hv.nonneg (by norm_num)))

/-- Up to some weeks only odd multiples of five milliseconds teeter. -/
theorem Teeters.odd (h : Teeters n) (hn : n < 4000000000000000) : n % 10000000 = 5000000 := by
  obtain ⟨v, j, hv, -, hp⟩ := h
  have hfits : n < Number.wordLimit := hn.trans (by decide)
  have hproduct := product_error hfits hv hp
  have hseconds := seconds_error hfits hv
  obtain ⟨v', hv', hle⟩ := exists_seconds hfits
  rw [← hv.unique hv'] at hle
  have hwhole : ((n / 1000000000 : Nat) : ℚ) ≤ 4000000 := by
    have h : n / 1000000000 ≤ 4000000 := by omega
    exact_mod_cast h
  rw [Nat.cast_add_one] at hle
  -- the roundings together are less than a nanosecond
  obtain ⟨hproduct_below, hproduct_above⟩ := abs_le.mp hproduct
  obtain ⟨hseconds_below, hseconds_above⟩ := abs_le.mp hseconds
  have hless : (n : ℚ) < 10000000 * j + 5000000 + 1 := by linarith
  have hmore : (10000000 * j + 5000000 : ℚ) < n + 1 := by linarith
  have hless' : n < 10000000 * j + 5000000 + 1 := by exact_mod_cast hless
  have hmore' : 10000000 * j + 5000000 < n + 1 := by exact_mod_cast hmore
  omega

/-- An eighth of a second, and any half seconds more, are a half above an even number of
hundredths. -/
theorem teeters_of_mod (hn : n < Number.wordLimit) (h : n % 500000000 = 125000000) : Teeters n := by
  have hlimit : n < 9223372036854775808 := hn
  obtain ⟨k, rfl⟩ : ∃ k, n = 500000000 * k + 125000000 := ⟨n / 500000000, by omega⟩
  have hv := amounts_seconds_of_dvd hn ⟨4 * k + 1, by ring⟩
  have hq : ((500000000 * k + 125000000 : Nat) : ℚ) / 1000000000 * 100 =
      (50 * k + 12 : Nat) + 1 / 2 := by
    push_cast
    ring
  have hp := Double.nearest_mul hv Row.amounts_hundred
  refine ⟨_, 50 * k + 12, hv, ?_, ?_⟩
  · rw [hq]
    refine .inr ⟨?_, by omega⟩
    rw [sub_add_cancel_left, abs_neg, abs_of_pos (by norm_num)]
  · rw [hq] at hp
    refine hp.exact (g := -1) (z := (100 * k + 25 : Nat)) (by decide) (by decide) ?_ ?_
    · have hsmall : ((50 * k + 12 : Nat) : ℚ) < 2 ^ 51 := by
        have h : 50 * k + 12 < 2 ^ 51 := by omega
        exact_mod_cast h
      exact lt_of_lt_of_le (add_lt_add_left hsmall (1 / 2)) (by norm_num)
    · push_cast
      ring

end Duration

open Duration (Teeters)

/-- **A report shows another time than a race exactly when the time teeters, and then a hundredth
more.** That happens to an eighth of a second, and up to some weeks to odd multiples of five
milliseconds only. -/
theorem Row.time_eq_shownTime_iff (dataset : Text) (stats : Option Stats) (r : EngineResult)
    (h : ∀ d ∈ r.elapsed, 0 ≤ d ∧ Number.fitsWord d = true) :
    ((ofResult dataset stats r).cells.getLast? = some (Cli.shownTime r) ↔
        ∀ d ∈ r.elapsed, ¬ Teeters d) ∧
      ∀ d ∈ r.elapsed,
        (Teeters d → ∃ n, Cli.shownTime r = hundredthsText n ∧
          (ofResult dataset stats r).cells.getLast? = some (hundredthsText (n + 1))) ∧
        (d % 500000000 = 125000000 → Teeters d) ∧
        (d < 4000000000000000 → Teeters d → d % 10000000 = 5000000) := by
  obtain ⟨verdict, engine, elapsed⟩ := r
  cases elapsed with
  | none =>
    refine ⟨⟨fun _ d hd => ?_, fun _ => rfl⟩, fun d hd => ?_⟩
    · exact absurd hd (Option.not_mem_none d)
    · exact absurd hd (Option.not_mem_none d)
  | some d =>
    obtain ⟨hd, hfits⟩ := h d rfl
    obtain ⟨n, rfl⟩ := Int.eq_ofNat_of_zero_le hd
    have hn : n < Number.wordLimit := by
      simp only [Number.fitsWord, Bool.and_eq_true, decide_eq_true_eq] at hfits
      omega
    obtain ⟨j, hshown, hcases⟩ := Duration.fixed_cases hn
    have hcell : (ofResult dataset stats ⟨verdict, engine, some n⟩).cells.getLast? =
        some (Decimal.fixed 2 (Row.hundredths (Duration.seconds n))) := rfl
    have htime : Cli.shownTime ⟨verdict, engine, some n⟩ = hundredthsText j := hshown
    simp only [Option.mem_some_iff, forall_eq', hcell, htime, Option.some_inj]
    refine ⟨?_, ?_, fun hmod => ?_, fun hless hteeters => ?_⟩
    · rcases hcases with ⟨hstill, hreport⟩ | ⟨hteeters, hreport⟩
      · exact iff_of_true hreport hstill
      · refine iff_of_false (fun heq => ?_) (not_not_intro hteeters)
        have hnext := Decimal.hundredthsText_injective (hreport.symm.trans heq)
        omega
    · intro hteeters
      rcases hcases with ⟨hstill, -⟩ | ⟨-, hreport⟩
      · exact absurd hteeters hstill
      · exact ⟨j, rfl, hreport⟩
    · have hmod : (n : Int) % 500000000 = 125000000 := hmod
      exact Duration.teeters_of_mod hn (by omega)
    · have hless : (n : Int) < 4000000000000000 := hless
      have hodd := hteeters.odd (by omega)
      show (n : Int) % 10000000 = 5000000
      omega

theorem Row.time_eq_shownTime_iff_eighth : Teeters 125000000 ∧
    (ofResult "a" none ⟨.sat, .bmc, some 125000000⟩).cells.getLast? ≠
      some (Cli.shownTime ⟨.sat, .bmc, some 125000000⟩) := by
  obtain ⟨hiff, hall⟩ :=
    time_eq_shownTime_iff "a" none ⟨.sat, .bmc, some 125000000⟩ (by decide)
  have hteeters := (hall 125000000 rfl).2.1 (by decide)
  exact ⟨hteeters, fun heq => hiff.mp heq _ rfl hteeters⟩

/-- A race shows an eighth of a second as 0.12, and a report as 0.13. -/
theorem Row.time_eighth : Cli.shownTime ⟨.sat, .bmc, some 125000000⟩ = "0.12" ∧
    (ofResult "a" none ⟨.sat, .bmc, some 125000000⟩).cells.getLast? = some "0.13" := by
  decide +kernel

end Regatta
