import Regatta.Decimal.Notation
import Regatta.Proofs.Decimal.Double
import Regatta.Proofs.Text.Padded

/-! Rounding to the nearest double keeps the order.

The sums, products and quotients of doubles that are not negative are the doubles nearest to the
exact ones (`Nearest`). Against the multiples of a power of two that are themselves doubles, a
rounded number lies on the same side as the exact one, or on the multiple itself (`Nearest.grid`).
So a number on such a grid is not changed at all (`Nearest.exact`). Two decimals of a double are
those of the hundredth that is nearest to it, the even one of two (`fixed_two`). -/
namespace Regatta

namespace Double

/-- The double is this number, which is not negative. -/
def Amounts (x : Double) (v : ℚ) : Prop :=
  ∃ (m : Nat) (e : Int), x = .finite false m e ∧ m * 2 ^ e = v

/-- The double is the nearest to this number, which is not negative. -/
def Nearest (q : ℚ) (x : Double) : Prop :=
  ∃ num den : Nat, 0 < den ∧ q = num / den ∧ x = ofRatio false num den

variable {x y : Double} {v w q : ℚ}

theorem Amounts.nonneg (h : Amounts x v) : 0 ≤ v := by
  obtain ⟨m, e, -, rfl⟩ := h
  positivity

theorem Amounts.unique (h : Amounts x v) (h' : Amounts x w) : v = w := by
  obtain ⟨m, e, rfl, rfl⟩ := h
  obtain ⟨m', e', heq, rfl⟩ := h'
  cases heq
  rfl

/-! ### What is rounded -/

theorem nearest_ofInt (n : Nat) : Nearest n (ofInt n) := by
  refine ⟨n, 1, one_pos, by simp, ?_⟩
  unfold ofInt
  rw [Int.natAbs_natCast, decide_eq_false (by omega)]

variable {den n : Nat} {e g : Int}

theorem nearest_ofScaled (num : Nat) (hden : 0 < den) (e : Int) :
    Nearest (num / den * 2 ^ e) (ofScaled false num den e) := by
  obtain ⟨hscaled, hvalue⟩ := scaled_spec num hden (-e)
  rw [zpow_neg, div_inv_eq_mul] at hvalue
  exact ⟨_, _, hscaled, hvalue.symm, rfl⟩

theorem nearest_mul (hx : Amounts x v) (hy : Amounts y w) : Nearest (v * w) (mul x y) := by
  obtain ⟨m, e, rfl, rfl⟩ := hx
  obtain ⟨m', e', rfl, rfl⟩ := hy
  have hnearest := nearest_ofScaled (m * m') one_pos (e + e')
  rw [mul_scaled]
  exact hnearest

theorem nearest_div (hx : Amounts x v) (hy : Amounts y w) (hw : w ≠ 0) :
    Nearest (v / w) (div x y) := by
  obtain ⟨m, e, rfl, rfl⟩ := hx
  obtain ⟨m', e', rfl, rfl⟩ := hy
  have hm' : m' ≠ 0 := by
    rintro rfl
    simp at hw
  have hnearest := nearest_ofScaled m (Nat.pos_of_ne_zero hm') (e - e')
  have hvalue : (m : ℚ) * 2 ^ e / (m' * 2 ^ e') = m / m' * 2 ^ (e - e') := by
    rw [zpow_sub₀ two_ne_zero]
    field_simp
  have hdiv : div (.finite false m e) (.finite false m' e') = ofScaled false m m' (e - e') :=
    if_neg (by simpa using hm')
  rw [hvalue, hdiv]
  exact hnearest

theorem cast_shift (m : Nat) {low : Int} (h : low ≤ e) :
    ((m * Number.twoTo (e - low).toNat : Nat) : ℚ) * 2 ^ low = m * 2 ^ e := by
  have hexp : (e : Int) = ((e - low).toNat : Int) + low := by omega
  rw [Nat.cast_mul, Number.cast_twoTo, mul_assoc, ← zpow_natCast, ← zpow_add₀ two_ne_zero, ← hexp]

theorem nearest_add (hx : Amounts x v) (hy : Amounts y w) : Nearest (v + w) (add x y) := by
  obtain ⟨m, e, rfl, rfl⟩ := hx
  obtain ⟨m', e', rfl, rfl⟩ := hy
  obtain ⟨low, hlow⟩ : ∃ low, min e e' = low := ⟨_, rfl⟩
  obtain ⟨n, hn⟩ : ∃ n : Nat,
      m * Number.twoTo (e - low).toNat + m' * Number.twoTo (e' - low).toNat = n := ⟨_, rfl⟩
  have hadd : add (.finite false m e) (.finite false m' e') =
      if ((n : Int) == 0) = true then .finite false 0 (-1074)
      else ofScaled (decide ((n : Int) < 0)) (n : Int).natAbs 1 low := by
    rw [← hn, ← hlow]
    rfl
  have hvalue : (m : ℚ) * 2 ^ e + m' * 2 ^ e' = (n : Nat) / (1 : Nat) * 2 ^ low := by
    rw [← cast_shift m (hlow ▸ min_le_left e e'), ← cast_shift m' (hlow ▸ min_le_right e e'), ← hn]
    push_cast
    ring
  rw [hvalue, hadd]
  split
  · rename_i hzero
    have hn : n = 0 := by simpa using hzero
    rw [hn]
    exact ⟨0, 1, one_pos, by simp, rfl⟩
  · rw [Int.natAbs_natCast, decide_eq_false (by omega)]
    exact nearest_ofScaled n one_pos low

/-! ### Keeping the order -/

/-- A number is rounded to a multiple of the unit in its last place, by at most a half of that. -/
theorem exists_unit {num : Nat} (hnum : 0 < num) (hden : 0 < den) (hg : -1074 ≤ g)
    (hg' : g ≤ 900) (hq : (num : ℚ) / den < 2 ^ (g + 53)) :
    ∃ (n : Nat) (e : Int), e ≤ g ∧ |(n : ℚ) * 2 ^ e - num / den| ≤ 2 ^ (e - 1) ∧
      Amounts (ofRatio false num den) (n * 2 ^ e) := by
  obtain ⟨hlow, -⟩ := exponent_spec hnum hden
  have hexp : exponent num den + 52 < g + 53 :=
    (zpow_lt_zpow_iff_right₀ (one_lt_two : (1 : ℚ) < 2)).mp (hlow.trans_lt hq)
  unfold ofRatio
  rw [if_neg (by simpa using Nat.ne_of_gt hnum)]
  dsimp only
  obtain ⟨e, he⟩ : ∃ e, max (exponent num den) (-1074) = e := ⟨_, rfl⟩
  rw [he]
  obtain ⟨hscaled, hvalue⟩ := scaled_spec num hden e
  have hround := roundDiv_error (scaled num den e).1 hscaled
  rw [hvalue] at hround
  generalize roundDiv (scaled num den e).1 (scaled num den e).2 = n at *
  obtain ⟨hcarry, hexponent⟩ := carry_spec n e
  refine ⟨n, e, by omega, ?_, ?_⟩
  · have hpow : (0 : ℚ) < 2 ^ e := by positivity
    have hmul : (n : ℚ) * 2 ^ e - num / den = (n - num / den / 2 ^ e) * 2 ^ e := by field_simp
    rw [hmul, abs_mul, abs_of_pos hpow, zpow_sub_one₀ two_ne_zero]
    calc |(n : ℚ) - num / den / 2 ^ e| * 2 ^ e ≤ 1 / 2 * 2 ^ e := by gcongr
      _ = 2 ^ e * 2⁻¹ := by ring
  · rw [if_neg (by omega)]
    exact ⟨_, _, rfl, hcarry⟩

namespace Nearest
variable (h : Nearest q x)
include h

/-- **A number is rounded to the same side of the multiples of a power of two that have at most 53
bits**, or onto one of them. -/
theorem grid (hg : -1074 ≤ g) (hg' : g ≤ 900) (hq : q < 2 ^ (g + 53)) : ∃ v, Amounts x v ∧
      ∀ z : ℤ, (q ≤ z * 2 ^ g → v ≤ z * 2 ^ g) ∧ (z * 2 ^ g ≤ q → z * 2 ^ g ≤ v) := by
  obtain ⟨num, den, hden, rfl, rfl⟩ := h
  rcases Nat.eq_zero_or_pos num with rfl | hnum
  · refine ⟨0, ⟨0, -1074, rfl, by simp⟩, fun z => ?_⟩
    rw [Nat.cast_zero, zero_div]
    exact ⟨id, id⟩
  · obtain ⟨n, e, he, herror, hamounts⟩ := exists_unit hnum hden hg hg' hq
    refine ⟨_, hamounts, fun z => ?_⟩
    -- both are multiples of the unit, so they differ by all of it
    have hunit : (0 : ℚ) < 2 ^ e := by positivity
    have hhalf : (2 : ℚ) ^ (e - 1) < 2 ^ e := zpow_lt_zpow_right₀ one_lt_two (by omega)
    obtain ⟨z', hz'⟩ : ∃ z' : ℤ, (z : ℚ) * 2 ^ g = z' * 2 ^ e := by
      refine ⟨z * 2 ^ (g - e).toNat, ?_⟩
      have hexp : g = ((g - e).toNat : Int) + e := by omega
      push_cast
      rw [mul_assoc, ← zpow_natCast, ← zpow_add₀ two_ne_zero, ← hexp]
    obtain ⟨hbelow, habove⟩ := abs_le.mp herror
    rw [hz']
    constructor
    · intro hle
      by_contra hlt
      have hstep : z' + 1 ≤ (n : ℤ) := by
        exact_mod_cast lt_of_mul_lt_mul_right (not_le.mp hlt) hunit.le
      have hcast : (z' : ℚ) + 1 ≤ n := by exact_mod_cast hstep
      nlinarith
    · intro hle
      by_contra hlt
      have hstep : (n : ℤ) + 1 ≤ z' := by
        exact_mod_cast lt_of_mul_lt_mul_right (not_le.mp hlt) hunit.le
      have hcast : (n : ℚ) + 1 ≤ z' := by exact_mod_cast hstep
      nlinarith

theorem exact {z : Int} (hg : -1074 ≤ g) (hg' : g ≤ 900)
    (hq : q < 2 ^ (g + 53)) (hz : q = z * 2 ^ g) : Amounts x q := by
  obtain ⟨v, hv, hgrid⟩ := h.grid hg hg' hq
  obtain ⟨hle, hge⟩ := hgrid z
  rwa [le_antisymm (hle hz.le) (hge hz.ge), ← hz] at hv

theorem exists_amounts (hq : q < 2 ^ 53) : ∃ v, Amounts x v :=
  have ⟨v, hv, _⟩ := h.grid (g := 0) (by decide) (by decide) (by simpa using hq)
  ⟨v, hv⟩

theorem le_natCast (hv : Amounts x v) (hn : n < 2 ^ 53) (hq : q ≤ n) : v ≤ n := by
  have hless : q < 2 ^ (0 + 53 : Int) := hq.trans_lt (by exact_mod_cast hn)
  obtain ⟨w, hw, hgrid⟩ := h.grid (by decide) (by decide) hless
  have hle := (hgrid n).1
  rw [Int.cast_natCast, zpow_zero, mul_one] at hle
  rw [hv.unique hw]
  exact hle hq

end Nearest

theorem amounts_ofInt (h : n < 2 ^ 53) : Amounts (ofInt n) n :=
  (nearest_ofInt n).exact (g := 0) (z := n) (by decide) (by decide) (by exact_mod_cast h) (by simp)

/-- The number is zero, or it is no smaller than a power of two. -/
def Sizable (e : Int) (q : ℚ) : Prop := q = 0 ∨ 2 ^ e ≤ q

theorem Sizable.mono {e' : Int} (h : Sizable e q) (he : e' ≤ e) : Sizable e' q :=
  h.imp_right (zpow_le_zpow_right₀ one_le_two he).trans

theorem sizable_ratio (num : Nat) (hden : 0 < den)
    (he : 2 ^ e * (den : ℚ) ≤ 1) : Sizable e (num / den) := by
  rcases Nat.eq_zero_or_pos num with rfl | hnum
  · exact .inl (by simp)
  · refine .inr ((le_div_iff₀ (by exact_mod_cast hden)).mpr (he.trans ?_))
    exact_mod_cast hnum

theorem Nearest.error (h : Nearest q x) (hv : Amounts x v) (hq : Sizable (-1022) q) :
    |v - q| ≤ q / 2 ^ 53 := by
  obtain ⟨num, den, hden, rfl, rfl⟩ := h
  rcases Nat.eq_zero_or_pos num with rfl | hnum
  · have hzero : Amounts (ofRatio false 0 den) 0 := ⟨0, -1074, rfl, by simp⟩
    rw [hv.unique hzero]
    simp
  · obtain ⟨m, e, hx, rfl⟩ := hv
    have hrounds := rounds_ofRatio false hnum hden
    rw [hx] at hrounds
    cases hrounds with
    | near _ _ herror => exact herror
    | tiny hless =>
      rcases hq with hzero | hle
      · exact absurd hzero (by positivity)
      · exact absurd hle (not_le.mpr hless)

theorem Nearest.sizable (h : Nearest q x) (hv : Amounts x v) (he : -1022 ≤ e)
    (hq : Sizable e q) : Sizable (e - 1) v := by
  obtain ⟨hbelow, habove⟩ := abs_le.mp (h.error hv (hq.mono he))
  rcases hq with rfl | hq
  · exact .inl (le_antisymm (by simpa using habove) hv.nonneg)
  · have hpos : (0 : ℚ) < 2 ^ e := by positivity
    refine .inr ?_
    rw [zpow_sub_one₀ two_ne_zero]
    linarith

/-! ### Whole numbers -/

theorem amounts_floor (h : Amounts x n) : Amounts x ⌊(n : ℚ) + 1 / 2⌋ := by
  have hfloor : ⌊(n : ℚ) + 1 / 2⌋ = n := by
    rw [Int.floor_eq_iff]
    push_cast
    constructor <;> linarith
  rw [hfloor]
  exact_mod_cast h

/-- Below the ones, rounding adds a half and drops what is left of the ones. -/
theorem round_of_neg (m : Nat) (he : ¬ 0 ≤ e) : ∃ k : Nat,
    ⌊(m : ℚ) * 2 ^ e + 1 / 2⌋ = k ∧ (finite false m e).round = ofRatio false k 1 := by
  obtain ⟨d, hd⟩ : ∃ d, Number.twoTo (-e).toNat = d := ⟨_, rfl⟩
  have hpos : (0 : ℚ) < d := by
    rw [← hd, Number.cast_twoTo]
    positivity
  have hexp : (2 : ℚ) ^ e = (d : ℚ)⁻¹ := by
    rw [← hd, Number.cast_twoTo, ← zpow_natCast, Int.toNat_of_nonneg (by omega), zpow_neg, inv_inv]
  have hvalue : (m : ℚ) * 2 ^ e + 1 / 2 = (2 * m + d : Nat) / (2 * d : Nat) := by
    rw [hexp]
    push_cast
    field_simp
  refine ⟨(2 * m + d) / (2 * d), ?_, ?_⟩
  · rw [hvalue, Rat.floor_natCast_div_natCast, Int.natCast_ediv]
  · rw [← hd]
    exact if_neg he

theorem amounts_round (h : Amounts x v) (hv : v < 2 ^ 52) : Amounts x.round ⌊v + 1 / 2⌋ := by
  obtain ⟨m, e, rfl, rfl⟩ := h
  by_cases he : 0 ≤ e
  · have hround : (finite false m e).round = .finite false m e := if_pos he
    have hwhole : (m : ℚ) * 2 ^ e = (m * 2 ^ e.toNat : Nat) := by
      push_cast
      rw [← zpow_natCast, Int.toNat_of_nonneg he]
    rw [hround, hwhole]
    exact amounts_floor ⟨m, e, rfl, hwhole⟩
  · obtain ⟨k, hfloor, hround⟩ := round_of_neg m he
    have hnearest : Nearest k (finite false m e).round := ⟨k, 1, one_pos, by simp, hround⟩
    have hle : (k : ℚ) ≤ m * 2 ^ e + 1 / 2 := by
      have hfloored := Int.floor_le ((m : ℚ) * 2 ^ e + 1 / 2)
      rw [hfloor] at hfloored
      exact_mod_cast hfloored
    have hless : (k : ℚ) < 2 ^ (0 + 53 : Int) :=
      calc (k : ℚ) ≤ m * 2 ^ e + 1 / 2 := hle
        _ < 2 ^ 52 + 1 / 2 := by linarith
        _ < 2 ^ (0 + 53 : Int) := by norm_num
    rw [hfloor]
    exact_mod_cast hnearest.exact (z := k) (by decide) (by decide) hless (by simp)

end Double

/-! ### Two decimals -/

/-- The nearest whole number, the even one of two. -/
def HalfEven (q : ℚ) (n : Nat) : Prop := |(n : ℚ) - q| < 1 / 2 ∨ |(n : ℚ) - q| = 1 / 2 ∧ n % 2 = 0

theorem HalfEven.error {q : ℚ} {n : Nat} (h : HalfEven q n) : |(n : ℚ) - q| ≤ 1 / 2 :=
  h.elim le_of_lt fun heq => heq.1.le

theorem HalfEven.unique {q : ℚ} {n n' : Nat} (h : HalfEven q n) (h' : HalfEven q n') : n = n' := by
  wlog hle : n ≤ n' generalizing n n'
  · exact (this h' h (Nat.le_of_not_le hle)).symm
  by_contra hne
  have hstep : (n : ℚ) + 1 ≤ n' := by exact_mod_cast Nat.lt_of_le_of_ne hle hne
  obtain ⟨hn, -⟩ := abs_le.mp h.error
  obtain ⟨-, hn'⟩ := abs_le.mp h'.error
  -- of two neighbours that are equally near one is odd
  have hq : q = n + 1 / 2 := by linarith
  have hnext : n' = n + 1 := by
    have hcast : (n' : ℚ) = n + 1 := by linarith
    exact_mod_cast hcast
  subst hq hnext
  have heven : n % 2 = 0 := by
    refine (h.resolve_left fun hlt => ?_).2
    rw [sub_add_cancel_left, abs_neg, abs_of_pos (by norm_num)] at hlt
    exact lt_irrefl _ hlt
  have heven' : (n + 1) % 2 = 0 := by
    refine (h'.resolve_left fun hlt => ?_).2
    rw [Nat.cast_add_one, add_sub_add_left_eq_sub, abs_of_pos (by norm_num)] at hlt
    linarith
  omega

theorem halfEven_roundDiv (num : Nat) {den : Nat} (hden : 0 < den) :
    HalfEven (num / den) (roundDiv num den) := by
  have hpos : (0 : ℚ) < den := by exact_mod_cast hden
  obtain ⟨f, hf⟩ : ∃ f : ℚ, ((num % den : Nat) : ℚ) = f * den :=
    ⟨_, (div_mul_cancel₀ _ hpos.ne').symm⟩
  have hsum : (num : ℚ) / den = (num / den : Nat) + f := by
    rw [div_eq_iff hpos.ne', add_mul, ← hf, mul_comm]
    exact_mod_cast (Nat.div_add_mod num den).symm
  have hless : 2 * (num % den) < den ↔ f < 1 / 2 := by
    have hcast : 2 * (num % den) < den ↔ 2 * ((num % den : Nat) : ℚ) < den := by norm_cast
    rw [hcast, hf, ← mul_assoc, mul_lt_iff_lt_one_left hpos, lt_div_iff₀' two_pos]
  have hmore : den < 2 * (num % den) ↔ 1 / 2 < f := by
    have hcast : den < 2 * (num % den) ↔ (den : ℚ) < 2 * ((num % den : Nat) : ℚ) := by norm_cast
    rw [hcast, hf, ← mul_assoc, lt_mul_iff_one_lt_left hpos, div_lt_iff₀' two_pos]
  have hf0 : 0 ≤ f := by
    refine le_of_mul_le_mul_right ?_ hpos
    rw [← hf, zero_mul]
    positivity
  have hf1 : f < 1 := by
    refine lt_of_mul_lt_mul_right ?_ hpos.le
    rw [← hf, one_mul]
    exact_mod_cast Nat.mod_lt num hden
  rw [hsum]
  unfold roundDiv
  dsimp only
  simp only [hless, hmore]
  split_ifs with hbelow habove heven
  · exact .inl (abs_lt.mpr ⟨by linarith, by linarith⟩)
  · exact .inl (abs_lt.mpr ⟨by push_cast; linarith, by push_cast; linarith⟩)
  · have hhalf : f = 1 / 2 := le_antisymm (not_lt.mp habove) (not_lt.mp hbelow)
    refine .inr ⟨?_, by simpa using heven⟩
    rw [hhalf, sub_add_cancel_left, abs_neg, abs_of_pos (by norm_num)]
  · have hhalf : f = 1 / 2 := le_antisymm (not_lt.mp habove) (not_lt.mp hbelow)
    refine .inr ⟨?_, ?_⟩
    · rw [hhalf, Nat.cast_add_one, add_sub_add_left_eq_sub, abs_of_pos (by norm_num)]
      norm_num
    · have hodd : ¬ (num / den) % 2 = 0 := by simpa using heven
      omega

namespace Decimal

def hundredthsText (n : Nat) : Text := Text.ofNat (n / 100) ++ "." ++ Text.padded 2 (n % 100)

theorem hundredthsText_injective {n n' : Nat} (h : hundredthsText n = hundredthsText n') :
    n = n' := by
  have hlength (k : Nat) : (Text.padded 2 (k % 100)).length = 2 :=
    Text.length_padded two_pos (Nat.mod_lt k (by decide))
  obtain ⟨hfront, hback⟩ := List.append_inj' h ((hlength n).trans (hlength n').symm)
  have hwhole := congrArg Text.digitsValue (List.append_cancel_right hfront)
  have hrest := congrArg Text.digitsValue hback
  rw [Text.digitsValue_ofNat, Text.digitsValue_ofNat] at hwhole
  rw [Text.digitsValue_padded, Text.digitsValue_padded] at hrest
  rw [← Nat.div_add_mod n 100, ← Nat.div_add_mod n' 100, hwhole, hrest]

/-- Two decimals are those of the nearest hundredth. -/
theorem fixed_two {x : Double} {v : ℚ} (h : x.Amounts v) :
    ∃ n, HalfEven (v * 100) n ∧ fixed 2 x = hundredthsText n := by
  obtain ⟨m, e, rfl, rfl⟩ := h
  obtain ⟨hscaled, hvalue⟩ := Double.scaled_spec (m * Number.tenTo 2) one_pos (-e)
  refine ⟨_, ?_, rfl⟩
  have hq : (m : ℚ) * 2 ^ e * 100 = (m * Number.tenTo 2 : Nat) / (1 : Nat) / 2 ^ (-e) := by
    rw [Nat.cast_mul, Number.cast_tenTo, zpow_neg, div_inv_eq_mul]
    push_cast
    ring
  rw [hq, ← hvalue]
  exact halfEven_roundDiv _ hscaled

end Decimal
end Regatta
