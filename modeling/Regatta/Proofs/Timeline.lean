import Regatta.Proofs.Clock
import Regatta.Timeline

/-! Playing against the clock, one instant at a time. -/
namespace Regatta.Timeline

variable {σ ε ρ : Type} [Process σ ε ρ] {cancelAt : Option Instant} {b b' : Bench} {s s' : σ}
  {events : List ε}

theorem play_ended {r : ρ} (seen : List ε)
    (h : Process.advance s b (b.passed cancelAt) = (b', events, .ended r)) :
    play cancelAt b seen s = some ⟨b', seen.reverse ++ events, some r⟩ := by
  rw [play, h]
  simp

theorem play_idle (seen : List ε)
    (h : Process.advance s b (b.passed cancelAt) = (b', events, .going s'))
    (hw : Instant.next b'.now [Process.wake s' b'.now, cancelAt] = none) :
    play (ρ := ρ) cancelAt b seen s = some ⟨b', seen.reverse ++ events, none⟩ := by
  rw [play, h]
  simp [hw]

theorem play_going {t : Instant} (seen : List ε)
    (h : Process.advance s b (b.passed cancelAt) = (b', events, .going s'))
    (hw : Instant.next b'.now [Process.wake s' b'.now, cancelAt] = some t) :
    play (ρ := ρ) cancelAt b seen s =
      play cancelAt { b' with now := t } (events.reverse ++ seen) s' := by
  rw [play, h]
  simp [hw]

/-- What is known of a record that was played, from its last instant back to the first. -/
@[elab_as_elim]
theorem play_induct {motive : Bench → List ε → σ → Record ε ρ → Prop}
    (ended : ∀ b seen s b' events r,
      Process.advance s b (b.passed cancelAt) = (b', events, .ended r) →
      motive b seen s ⟨b', seen.reverse ++ events, some r⟩)
    (idle : ∀ b seen s b' events s',
      Process.advance s b (b.passed cancelAt) = (b', events, .going s') →
      Instant.next b'.now [Process.wake s' b'.now, cancelAt] = none →
      motive b seen s ⟨b', seen.reverse ++ events, none⟩)
    (going : ∀ b seen s b' events s' t record,
      Process.advance s b (b.passed cancelAt) = (b', events, .going s') →
      Instant.next b'.now [Process.wake s' b'.now, cancelAt] = some t →
      motive { b' with now := t } (events.reverse ++ seen) s' record → motive b seen s record)
    {seen : List ε} {record : Record ε ρ} (h : play cancelAt b seen s = some record) :
    motive b seen s record := by
  refine play.partial_correctness cancelAt motive (fun play ih b seen s record h => ?_) b seen s
    record h
  split at h
  · rename_i b' events r hadvance
    cases h
    simpa using ended b seen s b' events r hadvance
  · rename_i b' events s' hadvance
    split at h
    · rename_i hnext
      cases h
      simpa using idle b seen s b' events s' hadvance hnext
    · rename_i hnext
      exact going b seen s b' events s' _ record hadvance hnext (ih _ _ _ _ h)

/-- What every advance leaves alone a whole play leaves alone. -/
theorem play_frame {α : Type} (f : Bench → α)
    (hadvance : ∀ (s : σ) b stop, f (Process.advance s b stop).1 = f b)
    (hnow : ∀ b t, f { b with now := t } = f b) {seen : List ε} {record : Record ε ρ}
    (h : play cancelAt b seen s = some record) : f record.bench = f b := by
  refine play_induct ?_ ?_ ?_ h
  · intro b seen s b' events r ha
    have := hadvance s b (b.passed cancelAt)
    rwa [ha] at this
  · intro b seen s b' events s' ha _
    have := hadvance s b (b.passed cancelAt)
    rwa [ha] at this
  · intro b seen s b' events s' t record ha _ ih
    have := hadvance s b (b.passed cancelAt)
    rw [ha] at this
    exact ih.trans ((hnow b' t).trans this)

theorem complete_going {record : Record ε ρ} (h : play cancelAt b [] s = some record) :
    complete cancelAt (b, .going s) = record := by
  simp [complete, h]

theorem complete_endless (h : play (ρ := ρ) cancelAt b [] s = none) :
    complete (ε := ε) (ρ := ρ) cancelAt (b, .going s) = ⟨b, [], none⟩ := by
  simp [complete, h]

end Regatta.Timeline
