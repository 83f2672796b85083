import Regatta.Proofs.Time.Duration
import Regatta.Service.Request

/-! The time a run records.

A run keeps its budget in whole seconds. The least number of seconds that covers the budget (`IsCeiling`)
is found by adding almost a second before the division; the sum has to be a word, and the record is right
exactly as long as it is (`newRun_timeoutSeconds`). -/
namespace Regatta

namespace Duration

/-- The least whole number of seconds that is not below the duration. -/
def IsCeiling (d n : Int) : Prop := ∀ m : Int, d ≤ m * second ↔ n ≤ m

theorem isCeiling_iff {d n : Int} :
    IsCeiling d n ↔ d ≤ n * second ∧ n * second < d + second := by
  have hsecond := second_eq
  constructor
  · intro h
    have hbelow : ¬ d ≤ (n - 1) * second := fun hle => by
      have := (h (n - 1)).mp hle
      omega
    rw [mul_second] at hbelow
    refine ⟨(h n).mpr (Int.le_refl n), ?_⟩
    rw [mul_second, hsecond]
    omega
  · rintro ⟨hle, hlt⟩ m
    rw [mul_second] at hle hlt ⊢
    rw [hsecond] at hlt
    omega

theorem wrap_of_wordLimit_le {d : Int} (hle : Number.wordLimit ≤ d)
    (hlt : d < Number.wordLimit + Number.wordCount) : wrap d = d - Number.wordCount := by
  have hcount : Number.wordCount = 2 * Number.wordLimit := by decide
  have hfits : Number.fitsWord (d - Number.wordCount) = true :=
    Number.fitsWord_iff.mpr ⟨by omega, by omega⟩
  rw [← wrap_eq_self_iff.mpr hfits, wrap, wrap, Int.sub_bmod_right]

end Duration

namespace Request

open Duration (second IsCeiling)

theorem complete_budget_pos (r : Request) : 0 < r.complete.budget := by
  unfold complete
  split
  · exact (by decide : (0 : Int) < defaultBudget)
  · exact Int.not_le.mp ‹_›

theorem complete_budget_lt {r : Request} (h : Number.fitsWord r.budget = true) :
    r.complete.budget < Number.wordLimit := by
  unfold complete
  split
  · exact (by decide : defaultBudget < (Number.wordLimit : Int))
  · exact (Number.fitsWord_iff.mp h).2

theorem isCeiling_wholeSeconds {d : Int} (hpos : 0 < d) (hroom : d + second ≤ Number.wordLimit) :
    IsCeiling d (wholeSeconds d) := by
  have hsecond := Duration.second_eq
  rw [hsecond] at hroom
  have hfits : Number.fitsWord (d + second - 1) = true :=
    Number.fitsWord_iff.mpr ⟨by omega, by omega⟩
  have hwhole : wholeSeconds d = (d + 1000000000 - 1) / 1000000000 := by
    rw [wholeSeconds, Duration.wrap_eq_self_iff.mpr hfits]
    exact Int.tdiv_eq_ediv_of_nonneg (by omega)
  rw [Duration.isCeiling_iff, hwhole, hsecond]
  omega

/-- Without the room, the number of seconds is negative. -/
theorem wholeSeconds_neg {d : Int} (hlt : d < Number.wordLimit)
    (hroom : Number.wordLimit < d + second) : wholeSeconds d < 0 := by
  have hsecond := Duration.second_eq
  have hlimit : (Number.wordLimit : Int) = 9223372036854775808 := by decide
  have hcount : (Number.wordCount : Int) = 18446744073709551616 := by decide
  have hsum : d + second - 1 - Number.wordCount = -(18446744073709551616 - (d + 999999999)) := by omega
  have hwrap := (Duration.wrap_of_wordLimit_le (d := d + second - 1) (by omega) (by omega)).trans hsum
  rw [wholeSeconds, hwrap, Int.neg_tdiv, Int.tdiv_eq_ediv_of_nonneg (by omega), hsecond]
  omega

/-- A run records the least number of seconds that covers the time of its engines, exactly when almost
a second can be added to that time within 64 bits; beyond that, the record is negative. -/
theorem newRun_timeoutSeconds (r : Request) (id : Text) (now : Instant)
    (h : Number.fitsWord r.budget = true) :
    0 < r.complete.budget ∧
      (IsCeiling r.complete.budget (r.complete.newRun id now).timeoutSeconds ↔
        r.complete.budget + second ≤ Number.wordLimit) ∧
      (r.complete.budget + second ≤ Number.wordLimit →
        1 ≤ (r.complete.newRun id now).timeoutSeconds ∧
          r.complete.budget ≤ (r.complete.newRun id now).timeoutSeconds * second ∧
          (r.complete.newRun id now).timeoutSeconds * second < r.complete.budget + second) ∧
      (Number.wordLimit < r.complete.budget + second →
        (r.complete.newRun id now).timeoutSeconds < 0) := by
  have hpos := r.complete_budget_pos
  have hlt := complete_budget_lt h
  have hneg (hroom : Number.wordLimit < r.complete.budget + second) :
      (r.complete.newRun id now).timeoutSeconds < 0 := wholeSeconds_neg hlt hroom
  have hceiling (hroom : r.complete.budget + second ≤ Number.wordLimit) :
      IsCeiling r.complete.budget (r.complete.newRun id now).timeoutSeconds :=
    isCeiling_wholeSeconds hpos hroom
  refine ⟨hpos, ⟨fun hright => Int.not_lt.mp fun hroom => ?_, hceiling⟩, fun hroom => ?_, hneg⟩
  -- No positive budget is covered by a negative number of seconds.
  · have hcovered := (Duration.isCeiling_iff.mp hright).1
    have hnegative := Int.mul_neg_of_neg_of_pos (hneg hroom) (by decide : (0 : Int) < second)
    exact Int.not_lt.mpr (Int.le_trans hcovered (Int.le_of_lt hnegative)) hpos
  · obtain ⟨hle, hless⟩ := Duration.isCeiling_iff.mp (hceiling hroom)
    refine ⟨?_, hle, hless⟩
    exact Int.pos_of_mul_pos_left (Int.lt_of_lt_of_le hpos hle) (by decide)

/-- A budget of an hour and a nanosecond is recorded as 3601 seconds. -/
theorem newRun_timeoutSeconds_hour :
    Number.fitsWord 3600000000001 = true ∧
      IsCeiling (complete ⟨"c.aig", none, 3600000000001, []⟩).budget
        ((complete ⟨"c.aig", none, 3600000000001, []⟩).newRun "id" 0).timeoutSeconds ∧
      ((complete ⟨"c.aig", none, 3600000000001, []⟩).newRun "id" 0).timeoutSeconds = 3601 :=
  ⟨by decide, (newRun_timeoutSeconds _ _ _ (by decide)).2.1.mpr (by decide), by decide +kernel⟩

/-- The largest whole number of milliseconds that is a duration is recorded as a negative time. -/
theorem newRun_timeoutSeconds_longest :
    ((complete ⟨"c.aig", none, 9223372036854000000, []⟩).newRun "id" 0).timeoutSeconds = -9223372035 := by
  decide +kernel

end Request
end Regatta
