import Regatta.Proofs.Text.Lower
import Regatta.Verdict

/-! Verdicts and the bytes of an output.

A verdict is read off an output that was lower-cased by characters, whatever its bytes are. Here is
the same in terms of bytes: a marker is mentioned where its bytes stand, up to the case of ASCII
letters, and the strongest marker that is mentioned decides (`ofMentions`). So more output never
makes a verdict weaker, wherever the output is cut. -/
namespace Regatta

/-- The marker stands in the text, in whatever case its ASCII letters are. -/
def Text.Mentions (t marker : Text) : Prop :=
  ∃ part : Text, part <:+: t ∧ part.lowerAscii = marker.lowerAscii

namespace Text

theorem mentions_iff {t marker : Text} :
    t.Mentions marker ↔ contains marker.lowerAscii t.lowerAscii = true := by
  rw [contains_iff]
  unfold lowerAscii
  rw [List.infix_map_iff]
  exact exists_congr fun part => and_congr_right fun _ => eq_comm

instance (t marker : Text) : Decidable (t.Mentions marker) := decidable_of_iff' _ mentions_iff

theorem Mentions.within {s t marker : Text} (h : s.Mentions marker) (hst : s <:+: t) :
    t.Mentions marker := by
  obtain ⟨part, hpart, hsame⟩ := h
  exact ⟨part, hpart.trans hst, hsame⟩

end Text

namespace Verdict

/-- The verdict as the bytes of an output tell it. -/
def ofMentions (output : Text) : Verdict :=
  if output.Mentions "unsat" ∨ output.Mentions "property proved" then unsat
  else if output.Mentions "sat" ∨ output.Mentions "counterexample" then sat
  else unknown

/-- How much an output says: nothing, a counterexample, or a proof, which outweighs it. -/
def strength (v : Verdict) : Nat := if v = unsat then 2 else if v = sat then 1 else 0

/-- Lower-casing by characters neither makes nor breaks a marker. -/
theorem contains_marker {marker : Text} (h : marker ∈ proofMarkers ++ refutationMarkers)
    (output : Text) : Text.contains marker output.lower = true ↔ output.Mentions marker := by
  have hmarkers : ∀ m ∈ proofMarkers ++ refutationMarkers,
      (∀ b ∈ m, Text.fromAscii b = true) ∧ m.lowerAscii = m := by decide +kernel
  obtain ⟨hascii, hlower⟩ := hmarkers marker h
  rw [Text.contains_lower hascii, Text.mentions_iff, hlower]

theorem classify_eq_ofMentions (output : Text) : classify output = ofMentions output := by
  have hproof : proofMarkers.any (Text.contains · output.lower) = true ↔
      output.Mentions "unsat" ∨ output.Mentions "property proved" := by
    rw [← contains_marker (by decide), ← contains_marker (by decide)]
    simp [proofMarkers]
  have hrefutation : refutationMarkers.any (Text.contains · output.lower) = true ↔
      output.Mentions "sat" ∨ output.Mentions "counterexample" := by
    rw [← contains_marker (by decide), ← contains_marker (by decide)]
    simp [refutationMarkers]
  unfold classify ofMentions
  simp only [hproof, hrefutation]

/-- Whatever an output says, one that contains it says as much. -/
theorem strength_le_of_within {s t : Text} (h : s <:+: t) :
    (ofMentions s).strength ≤ (ofMentions t).strength := by
  have hsat : sat ≠ unsat := by decide
  have hunknown : unknown ≠ unsat ∧ unknown ≠ sat := by decide
  have hproof : s.Mentions "unsat" ∨ s.Mentions "property proved" →
      t.Mentions "unsat" ∨ t.Mentions "property proved" :=
    Or.imp (·.within h) (·.within h)
  have hrefutation : s.Mentions "sat" ∨ s.Mentions "counterexample" →
      t.Mentions "sat" ∨ t.Mentions "counterexample" :=
    Or.imp (·.within h) (·.within h)
  unfold ofMentions
  split
  · rename_i hs
    exact Nat.le_of_eq (by rw [if_pos (hproof hs)])
  · split
    · rename_i hs
      rw [if_pos (hrefutation hs)]
      split <;> simp [strength, hsat]
    · simp [strength, hunknown]

/-- **The verdict of an output is a matter of its bytes.** No character outside ASCII and no stray
byte makes or breaks a marker; the verdict is the one that the markers in the bytes give; and a
longer output has a verdict that is at least as strong as those of its parts. -/
theorem classify_by_bytes :
    (∀ marker ∈ proofMarkers ++ refutationMarkers, ∀ output : Text,
      Text.contains marker output.lower = true ↔ output.Mentions marker) ∧
    (∀ output, classify output = ofMentions output) ∧
    ∀ a b : Text, (classify a).strength ≤ (classify (a ++ b)).strength ∧
      (classify b).strength ≤ (classify (a ++ b)).strength := by
  refine ⟨fun marker h => contains_marker h, classify_eq_ofMentions, fun a b => ?_⟩
  simp only [classify_eq_ofMentions]
  exact ⟨strength_le_of_within (List.prefix_append a b).isInfix,
    strength_le_of_within (List.suffix_append a b).isInfix⟩

end Verdict
end Regatta
