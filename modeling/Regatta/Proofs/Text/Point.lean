import Regatta.Proofs.Circuit.Summary

/-! A decimal point and the digits behind it: what is written is what is read. -/
namespace Regatta.Text

open Stats.Summary (StartsWithout span_append)

theorem point_of_ne {t : Text} (h : ∀ b ∈ t.head?, b ≠ 46) : point t = ([], t) := by
  unfold point
  split
  · exact absurd rfl (h 46 rfl)
  · rfl

theorem point_append {places : Option Text} {rest : Text}
    (hplaces : ∀ b ∈ places.getD [], isDigit b = true) (hdigit : StartsWithout isDigit rest)
    (hpoint : ∀ b ∈ rest.head?, b ≠ 46) :
    point (places.elim [] (46 :: ·) ++ rest) = (places.getD [], rest) := by
  cases places with
  | none => exact point_of_ne hpoint
  | some ds =>
    obtain ⟨htake, hdrop⟩ := span_append hplaces hdigit
    exact Prod.ext htake hdrop

theorem point_spec (t : Text) : ∃ places : Option Text, t = places.elim [] (46 :: ·) ++ (point t).2 ∧
    (∀ b ∈ places.getD [], isDigit b = true) ∧ (point t).1 = places.getD [] := by
  unfold point
  split
  · rename_i r
    exact ⟨some (r.takeWhile isDigit), congrArg _ List.takeWhile_append_dropWhile.symm,
      List.all_eq_true.mp List.all_takeWhile, rfl⟩
  · exact ⟨none, rfl, List.forall_mem_nil _, rfl⟩

end Regatta.Text
