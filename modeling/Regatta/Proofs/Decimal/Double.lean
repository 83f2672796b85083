import Mathlib.Algebra.Order.Field.Power
import Mathlib.Algebra.Order.Floor.Ring
import Mathlib.Data.Rat.Floor
import Mathlib.Tactic.FieldSimp
import Mathlib.Tactic.Linarith
import Mathlib.Tactic.Positivity
import Regatta.Decimal.Double

/-! How far a double is from the number that was rounded to it.

`Rounds` says it once: the error is at most a 2⁵³-th part of the number, unless the number is too
small or too large for that. Every fraction is rounded in this sense (`rounds_ofRatio`), and so is every
product (`rounds_mul`). -/
namespace Regatta

theorem Number.cast_twoTo (n : Nat) : (Number.twoTo n : ℚ) = 2 ^ n := by
  simp [Number.twoTo, Nat.pow_eq]

theorem Number.cast_tenTo (n : Nat) : (Number.tenTo n : ℚ) = 10 ^ n := by
  simp [Number.tenTo, Nat.pow_eq]

theorem roundDiv_error (num : Nat) {den : Nat} (hden : 0 < den) :
    |(roundDiv num den : ℚ) - num / den| ≤ 1 / 2 := by
  have hpos : (0 : ℚ) < den := by exact_mod_cast hden
  have hsum : (num : ℚ) = den * (num / den : Nat) + (num % den : Nat) := by
    exact_mod_cast (Nat.div_add_mod num den).symm
  have hlt : ((num % den : Nat) : ℚ) < den := by exact_mod_cast Nat.mod_lt num hden
  have hnonneg : (0 : ℚ) ≤ (num % den : Nat) := by positivity
  have hdown (h : 2 * (num % den) ≤ den) : |((num / den : Nat) : ℚ) - num / den| ≤ 1 / 2 := by
    have hcast : 2 * ((num % den : Nat) : ℚ) ≤ den := by exact_mod_cast h
    rw [abs_le, hsum, neg_le_sub_iff_le_add, sub_le_iff_le_add, div_le_iff₀ hpos]
    constructor
    · linarith
    · rw [← sub_le_iff_le_add', le_div_iff₀ hpos]
      linarith
  have hup (h : den ≤ 2 * (num % den)) : |((num / den + 1 : Nat) : ℚ) - num / den| ≤ 1 / 2 := by
    have hcast : (den : ℚ) ≤ 2 * (num % den : Nat) := by exact_mod_cast h
    rw [abs_le, hsum, neg_le_sub_iff_le_add, sub_le_iff_le_add, div_le_iff₀ hpos, Nat.cast_add_one]
    constructor
    · linarith
    · rw [← sub_le_iff_le_add', le_div_iff₀ hpos]
      linarith
  unfold roundDiv
  dsimp only
  split_ifs with hbelow habove
  · exact hdown (by omega)
  · exact hup (by omega)
  · exact hdown (by omega)
  · exact hup (by omega)

namespace Double

/-- The number is rounded to the double: up to a 2⁵³-th part of it, if it is not too small and not too
large. -/
inductive Rounds (negative : Bool) (q : ℚ) : Double → Prop
  | near {m : Nat} {e : Int} (hlow : 2 ^ (-1022 : Int) ≤ q) (hhigh : q < 2 ^ 1024)
    (herror : |m * 2 ^ e - q| ≤ q / 2 ^ 53) : Rounds negative q (.finite negative m e)
  | tiny {m : Nat} {e : Int} (hq : q < 2 ^ (-1022 : Int)) (hzero : q < 2 ^ (-1075 : Int) → m = 0)
    (herror : |m * 2 ^ e - q| ≤ 2 ^ (-1075 : Int)) : Rounds negative q (.finite negative m e)
  | huge (hq : 2 ^ 1023 ≤ q) : Rounds negative q (.infinite negative)

variable {negative : Bool} {q : ℚ} {x : Double}

theorem Rounds.isNegative (h : Rounds negative q x) : x.isNegative = negative := by
  cases h <;> rfl

variable {den digits m num : Nat}

/-- What is rounded to a positive double lies between the least and the greatest of them. -/
theorem Rounds.bounds {e : Int} (hm : 0 < m) (h : Rounds negative q (.finite negative m e)) :
    2 ^ (-1075 : Int) ≤ q ∧ q < 2 ^ 1024 := by
  cases h with
  | near hlow hhigh =>
    exact ⟨(zpow_le_zpow_right₀ one_le_two (by decide)).trans hlow, hhigh⟩
  | tiny hq hzero =>
    refine ⟨not_lt.mp fun hless => Nat.ne_of_gt hm (hzero hless), hq.trans ?_⟩
    rw [← zpow_natCast]
    exact zpow_lt_zpow_right₀ one_lt_two (by decide)

theorem scaled_spec (num : Nat) (hden : 0 < den) (e : Int) :
    0 < (scaled num den e).2 ∧ ((scaled num den e).1 : ℚ) / (scaled num den e).2 = num / den / 2 ^ e := by
  have hpow (n : Nat) : 0 < Number.twoTo n := Nat.pow_pos (by decide)
  unfold scaled
  split
  · rename_i he
    refine ⟨hden, ?_⟩
    have hexp : (2 : ℚ) ^ e = (2 ^ (-e).toNat)⁻¹ := by
      rw [← zpow_natCast, ← zpow_neg]
      congr 1
      omega
    rw [hexp, Nat.cast_mul, Number.cast_twoTo]
    field_simp
  · rename_i he
    refine ⟨Nat.mul_pos hden (hpow _), ?_⟩
    have hexp : (2 : ℚ) ^ e = 2 ^ e.toNat := by
      rw [← zpow_natCast]
      congr 1
      omega
    rw [hexp, Nat.cast_mul, Number.cast_twoTo]
    field_simp

/-- A number is within a factor of two of the power of two that its length gives. -/
theorem two_pow_log2 {n : Nat} (hn : 0 < n) :
    (2 : ℚ) ^ (n.log2 : Int) ≤ n ∧ (n : ℚ) < 2 ^ ((n.log2 : Int) + 1) := by
  constructor
  · rw [zpow_natCast]
    exact_mod_cast Nat.log2_self_le (Nat.ne_of_gt hn)
  · have hlt : n < 2 ^ (n.log2 + 1) := Nat.lt_log2_self
    have hexp : ((n.log2 : Int) + 1) = ((n.log2 + 1 : Nat) : Int) := by omega
    rw [hexp, zpow_natCast]
    exact_mod_cast hlt

theorem exponent_spec (hnum : 0 < num) (hden : 0 < den) :
    (2 : ℚ) ^ (exponent num den + 52) ≤ num / den ∧ (num : ℚ) / den < 2 ^ (exponent num den + 53) := by
  have hpos : (0 : ℚ) < den := by exact_mod_cast hden
  obtain ⟨hnumLow, hnumHigh⟩ := two_pow_log2 hnum
  obtain ⟨hdenLow, hdenHigh⟩ := two_pow_log2 hden
  unfold exponent
  dsimp only
  generalize hguess : (num.log2 : Int) - den.log2 - 52 = guess
  have hlow : (2 : ℚ) ^ (guess + 51) < num / den := by
    rw [lt_div_iff₀ hpos]
    calc (2 : ℚ) ^ (guess + 51) * den < 2 ^ (guess + 51) * 2 ^ ((den.log2 : Int) + 1) := by
          gcongr
      _ = 2 ^ (num.log2 : Int) := by
          rw [← zpow_add₀ two_ne_zero]
          congr 1
          omega
      _ ≤ num := hnumLow
  have hhigh : (num : ℚ) / den < 2 ^ (guess + 53) := by
    rw [div_lt_iff₀ hpos]
    calc (num : ℚ) < 2 ^ ((num.log2 : Int) + 1) := hnumHigh
      _ = 2 ^ (guess + 53) * 2 ^ (den.log2 : Int) := by
          rw [← zpow_add₀ two_ne_zero]
          congr 1
          omega
      _ ≤ 2 ^ (guess + 53) * den := by gcongr
  -- The guess is right, or one too large.
  obtain ⟨hscaled, hvalue⟩ := scaled_spec num hden guess
  have hsplit : (scaled num den guess).1 < (scaled num den guess).2 * Number.twoTo 52 ↔
      (num : ℚ) / den < 2 ^ (guess + 52) := by
    have hcast : (0 : ℚ) < (scaled num den guess).2 := by exact_mod_cast hscaled
    have hpow : (0 : ℚ) < 2 ^ guess := by positivity
    have hexp : (2 : ℚ) ^ (guess + 52) = 2 ^ 52 * 2 ^ guess := by
      rw [zpow_add₀ two_ne_zero, mul_comm]
      norm_cast
    rw [hexp, ← div_lt_iff₀ hpow, ← hvalue, div_lt_iff₀ hcast, mul_comm, ← Number.cast_twoTo]
    norm_cast
  split_ifs with hless
  · rw [show guess - 1 + 52 = guess + 51 by omega, show guess - 1 + 53 = guess + 52 by omega]
    exact ⟨le_of_lt hlow, hsplit.mp hless⟩
  · exact ⟨not_lt.mp fun h => hless (hsplit.mpr h), hhigh⟩

theorem carry_spec (m : Nat) (e : Int) :
    ((carry m e).1 : ℚ) * 2 ^ (carry m e).2 = m * 2 ^ e ∧
      ((carry m e).2 = e ∨ m = Number.twoTo 53 ∧ (carry m e).2 = e + 1) := by
  unfold carry
  split_ifs with h
  · rw [beq_iff_eq] at h
    refine ⟨?_, .inr ⟨h, rfl⟩⟩
    rw [h, Number.cast_twoTo, Number.cast_twoTo, zpow_add₀ two_ne_zero]
    ring
  · exact ⟨rfl, .inl rfl⟩

/-- **A fraction is rounded to a nearby double.** -/
theorem rounds_ofRatio (negative : Bool) (hnum : 0 < num) (hden : 0 < den) :
    Rounds negative (num / den) (ofRatio negative num den) := by
  obtain ⟨hlow, hhigh⟩ := exponent_spec hnum hden
  unfold ofRatio
  rw [if_neg (by simpa using Nat.ne_of_gt hnum)]
  dsimp only
  generalize hq : (num : ℚ) / den = q at *
  generalize exponent num den = e₀ at *
  generalize he : max e₀ (-1074) = e at *
  obtain ⟨hscaled, hvalue⟩ := scaled_spec num hden e
  have hround := roundDiv_error (scaled num den e).1 hscaled
  rw [hvalue, hq] at hround
  generalize roundDiv (scaled num den e).1 (scaled num den e).2 = m at *
  have hpow : (0 : ℚ) < 2 ^ e := by positivity
  -- Half a unit of the last place.
  have herror : |m * 2 ^ e - q| ≤ 2 ^ (e - 1) := by
    have hmul : m * 2 ^ e - q = (m - q / 2 ^ e) * 2 ^ e := by field_simp
    rw [hmul, abs_mul, abs_of_pos hpow, zpow_sub_one₀ two_ne_zero]
    calc |m - q / 2 ^ e| * 2 ^ e ≤ 1 / 2 * 2 ^ e := by gcongr
      _ = 2 ^ e * 2⁻¹ := by ring
  obtain ⟨hcarry, hexponent⟩ := carry_spec m e
  split_ifs with hbig
  · have hexp : (1023 : Int) ≤ e₀ + 52 := by omega
    refine .huge (le_trans ?_ hlow)
    exact_mod_cast zpow_le_zpow_right₀ (one_le_two : (1 : ℚ) ≤ 2) hexp
  · rw [← hcarry] at herror
    by_cases hnormal : -1074 ≤ e₀
    · have hexp : e₀ + 52 = e - 1 + 53 := by omega
      have hleast : (2 : ℚ) ^ (-1022 : Int) ≤ q :=
        (zpow_le_zpow_right₀ one_le_two (by omega)).trans hlow
      have hmost : q < 2 ^ 1024 := by
        have hle : (2 : ℚ) ^ (e₀ + 53) ≤ 2 ^ (1024 : Int) :=
          zpow_le_zpow_right₀ one_le_two (by omega)
        exact_mod_cast hhigh.trans_le hle
      rw [hexp, zpow_add₀ two_ne_zero] at hlow
      refine .near hleast hmost (le_trans herror ?_)
      rw [le_div_iff₀ (by positivity)]
      exact_mod_cast hlow
    · have hexp : e - 1 = -1075 := by omega
      rw [hexp] at herror
      refine .tiny (lt_of_lt_of_le hhigh (zpow_le_zpow_right₀ one_le_two (by omega))) ?_ herror
      intro hless
      -- the unit of the last place is twice the bound
      have hunit : (2 : ℚ) ^ e = 2 * 2 ^ (-1075 : Int) := by
        rw [show e = -1075 + 1 by omega, zpow_add_one₀ two_ne_zero, mul_comm]
      have hm : (m : ℚ) * 2 ^ e < 1 * 2 ^ e := by
        rw [hcarry] at herror
        linarith [(abs_le.mp herror).2]
      have hzero : (m : ℚ) * 2 ^ e = 0 := by
        have hone : m < 1 := by exact_mod_cast lt_of_mul_lt_mul_right hm hpow.le
        rw [Nat.lt_one_iff.mp hone, Nat.cast_zero, zero_mul]
      exact_mod_cast (mul_eq_zero.mp (hcarry.trans hzero)).resolve_right (by positivity)

/-- The size of a decimal number, by how many digits it has. -/
theorem digits_bounds (hdigits : 0 < digits) (power : Int) :
    (10 : ℚ) ^ (power + (Nat.toDigits 10 digits).length - 1) ≤ digits * 10 ^ power ∧
      (digits : ℚ) * 10 ^ power < 10 ^ (power + (Nat.toDigits 10 digits).length) := by
  have hlength := fun {k : Nat} (hk : 0 < k) =>
    Nat.length_toDigits_le_iff (b := 10) (n := digits) (k := k) (by decide) hk
  have hten : (10 : ℚ) ≠ 0 := by norm_num
  have hpow : (0 : ℚ) < 10 ^ power := by positivity
  have hsize : 0 < (Nat.toDigits 10 digits).length := Nat.length_toDigits_pos
  generalize (Nat.toDigits 10 digits).length = size at *
  constructor
  · obtain ⟨k, rfl⟩ := Nat.exists_eq_add_of_lt hsize
    rw [show power + ((0 + k + 1 : Nat) : Int) - 1 = k + power by push_cast; ring, zpow_add₀ hten,
      zpow_natCast]
    refine mul_le_mul_of_nonneg_right ?_ hpow.le
    have hk : 10 ^ k ≤ digits := by
      rcases Nat.eq_zero_or_pos k with rfl | hk
      · exact hdigits
      · exact Nat.not_lt.mp fun hless => absurd ((hlength hk).mpr hless) (by omega)
    exact_mod_cast hk
  · rw [add_comm, zpow_add₀ hten, zpow_natCast]
    refine mul_lt_mul_of_pos_right ?_ hpow
    exact_mod_cast (hlength hsize).mp (Nat.le_refl size)

theorem two_pow_le_ten_pow {n : Int} (h : n ≤ 3 * 400) : (2 : ℚ) ^ n ≤ 10 ^ (400 : Int) :=
  calc (2 : ℚ) ^ n ≤ 2 ^ (3 * 400 : Int) := zpow_le_zpow_right₀ one_le_two h
    _ = (2 ^ (3 : Int)) ^ (400 : Int) := zpow_mul 2 3 400
    _ ≤ 10 ^ (400 : Int) := zpow_le_zpow_left₀ (by decide) (by norm_num) (by norm_num)

/-- **A decimal number is rounded to a nearby double**, also where its power is not computed. -/
theorem rounds_ofDecimal (negative : Bool) (hdigits : 0 < digits) (power : Int) :
    Rounds negative (digits * 10 ^ power) (ofDecimal negative digits power) := by
  obtain ⟨hlow, hhigh⟩ := digits_bounds hdigits power
  unfold ofDecimal
  rw [if_neg (by simpa using Nat.ne_of_gt hdigits)]
  dsimp only
  generalize ((Nat.toDigits 10 digits).length : Int) = size at *
  split_ifs with hhuge htiny hless
  · refine .huge (le_trans ?_ hlow)
    calc (2 : ℚ) ^ 1023 = 2 ^ ((1023 : Nat) : Int) := (zpow_natCast 2 1023).symm
      _ ≤ 10 ^ (400 : Int) := two_pow_le_ten_pow (by decide)
      _ ≤ 10 ^ (power + size - 1) := zpow_le_zpow_right₀ (by norm_num) (by omega)
  · have hsmall : (digits : ℚ) * 10 ^ power < 2 ^ (-1075 : Int) :=
      calc (digits : ℚ) * 10 ^ power < 10 ^ (power + size) := hhigh
        _ ≤ 10 ^ (-400 : Int) := zpow_le_zpow_right₀ (by norm_num) (by omega)
        _ ≤ 2 ^ (-1075 : Int) := by
          rw [zpow_neg, zpow_neg]
          exact inv_anti₀ (by positivity) (two_pow_le_ten_pow (by decide))
    refine .tiny (hsmall.trans (zpow_lt_zpow_right₀ one_lt_two (by decide))) (fun _ => rfl) ?_
    rw [Nat.cast_zero, zero_mul, zero_sub, abs_neg, abs_of_nonneg (by positivity)]
    exact hsmall.le
  · have hden : 0 < Number.tenTo (-power).toNat := Nat.pow_pos (by decide)
    have hvalue : (digits : ℚ) * 10 ^ power = digits / (Number.tenTo (-power).toNat : Nat) := by
      rw [Number.cast_tenTo, ← zpow_natCast, Int.toNat_of_nonneg (by omega), zpow_neg, div_inv_eq_mul]
    rw [hvalue]
    exact rounds_ofRatio negative hdigits hden
  · have hnum : 0 < digits * Number.tenTo power.toNat := Nat.mul_pos hdigits (Nat.pow_pos (by decide))
    have hvalue : (digits : ℚ) * 10 ^ power = (digits * Number.tenTo power.toNat : Nat) / (1 : Nat) := by
      rw [Nat.cast_mul, Number.cast_tenTo, ← zpow_natCast, Int.toNat_of_nonneg (by omega), Nat.cast_one,
        div_one]
    rw [hvalue]
    exact rounds_ofRatio negative hnum one_pos

/-- Scaling by a power of two is exact. -/
theorem rounds_ofScaled (negative : Bool) (hnum : 0 < num) (hden : 0 < den) (e : Int) :
    Rounds negative (num / den * 2 ^ e) (ofScaled negative num den e) := by
  obtain ⟨hscaled, hvalue⟩ := scaled_spec num hden (-e)
  rw [zpow_neg, div_inv_eq_mul] at hvalue
  have hpositive : (0 : ℚ) < (scaled num den (-e)).1 / (scaled num den (-e)).2 := by
    rw [hvalue]
    positivity
  have hnumerator : 0 < (scaled num den (-e)).1 := by
    refine Nat.pos_of_ne_zero fun hzero => ?_
    rw [hzero, Nat.cast_zero, zero_div] at hpositive
    exact lt_irrefl 0 hpositive
  rw [← hvalue]
  exact rounds_ofRatio negative hnumerator hscaled

theorem mul_scaled (m m' : Nat) (e e' : Int) :
    (m : ℚ) * 2 ^ e * (m' * 2 ^ e') = (m * m' : Nat) / (1 : Nat) * 2 ^ (e + e') := by
  rw [zpow_add₀ two_ne_zero]
  push_cast
  ring

/-- **A product is rounded to a nearby double.** -/
theorem rounds_mul (s s' : Bool) {m' : Nat} (hm : 0 < m) (hm' : 0 < m') (e e' : Int) :
    Rounds (s != s') (m * 2 ^ e * (m' * 2 ^ e')) (mul (.finite s m e) (.finite s' m' e')) := by
  have hrounds := rounds_ofScaled (s != s') (Nat.mul_pos hm hm') one_pos (e + e')
  rw [mul_scaled]
  exact hrounds

/-- Two roundings in a row are worth little more than two errors. -/
theorem exists_relative_error {q v p c : ℚ} (hq : 0 < q) (hc : 0 < c) (hv : |v - q| ≤ q / 2 ^ 53)
    (hp : |p - v * c| ≤ v * c / 2 ^ 53) : ∃ δ : ℚ, |δ| ≤ 1 / 2 ^ 50 ∧ p = q * c * (1 + δ) := by
  have hqc : 0 < q * c := mul_pos hq hc
  have hvq : v ≤ q * (1 + 1 / 2 ^ 53) := by linarith [(abs_le.mp hv).2]
  have herror : |p - q * c| ≤ q * c * (1 / 2 ^ 50) := by
    calc |p - q * c| = |(p - v * c) + (v - q) * c| := by ring_nf
      _ ≤ |p - v * c| + |v - q| * c := (abs_add_le _ _).trans_eq (by rw [abs_mul, abs_of_pos hc])
      _ ≤ v * c / 2 ^ 53 + q / 2 ^ 53 * c := by gcongr
      _ ≤ q * (1 + 1 / 2 ^ 53) * c / 2 ^ 53 + q / 2 ^ 53 * c := by gcongr
      _ = q * c * ((2 + 1 / 2 ^ 53) / 2 ^ 53) := by ring
      _ ≤ q * c * (1 / 2 ^ 50) := mul_le_mul_of_nonneg_left (by norm_num) hqc.le
  refine ⟨(p - q * c) / (q * c), ?_, by field_simp; ring⟩
  rw [abs_div, abs_of_pos hqc, div_le_iff₀ hqc]
  exact herror.trans_eq (mul_comm _ _)

theorem truncate?_eq (m : Nat) (e : Int) :
    (Double.finite false m e).truncate? = some ⌊(m : ℚ) * 2 ^ e⌋ := by
  have htruncate : (Double.finite false m e).truncate? = some
      ((if 0 ≤ e then m * Number.twoTo e.toNat else m / Number.twoTo (-e).toNat : Nat) : Int) := rfl
  rw [htruncate]
  congr 1
  split_ifs with he
  · have hexp : (2 : ℚ) ^ e = Number.twoTo e.toNat := by
      rw [Number.cast_twoTo, ← zpow_natCast, Int.toNat_of_nonneg he]
    rw [hexp, ← Nat.cast_mul, Int.floor_natCast]
  · have hexp : (2 : ℚ) ^ e = (Number.twoTo (-e).toNat : ℚ)⁻¹ := by
      rw [Number.cast_twoTo, ← zpow_natCast, Int.toNat_of_nonneg (by omega), zpow_neg, inv_inv]
    rw [hexp, ← div_eq_mul_inv, Rat.floor_natCast_div_natCast, Int.natCast_ediv]

end Double
end Regatta
