import Regatta.Tool.Activity

/-! What a call in progress does at an instant, and what it leaves for later.

A call has nothing to do before it next wakes (`advance_quiet`), so it makes no difference how often
the clock stops in between. After each instant it wakes later, or never (`Advanced.quiet`); it has
fewer lines to come, or was told to stop just then; and once it was told, its end is in sight
(`Sound`). -/
namespace Regatta.Activity

/-- The call has nothing to do by now. -/
def Quiet (a : Activity) (now : Instant) : Prop := ∀ t, a.wake = some t → now < t

/-- A call that was told to stop will end. -/
def Sound (a : Activity) : Prop := a.halted = none → a.finish.isSome = true

theorem start_sound (b : Behavior) (now : Instant) : (start b now).Sound := by
  intro h
  cases h

/-! ### Left alone -/

variable {a a' : Activity} {stop : Bool} (now : Instant)

theorem proceed_quiet {now : Instant} (h : a.Quiet now) :
    a.proceed now = ([], .going a) := by
  unfold Quiet wake at h
  cases hp : a.pending with
  | nil =>
    rw [hp] at h
    have hf : a.finish.any (· ≤ now) = false := by
      cases hf : a.finish with
      | none => rfl
      | some t => simpa using h t hf
    have ha : { a with pending := [] } = a := by rw [← hp]
    simp [proceed, hp, hf, ha]
  | cons line rest =>
    rw [hp] at h
    have hl : ¬ line.1 ≤ now := Int.not_le.mpr (h line.1 rfl)
    have ha : { a with pending := line :: rest } = a := by rw [← hp]
    simp [proceed, hp, hl, ha]

/-- What a call that goes on leaves of what it had to do. -/
structure Proceeded (a : Activity) (now : Instant) (a' : Activity) : Prop where
  quiet : a'.Quiet now
  started : a'.started = a.started
  halted : a'.halted = a.halted
  finish : a'.finish = a.finish
  pending : a'.pending.length ≤ a.pending.length
  fewer : ¬ a.Quiet now → a'.pending.length < a.pending.length

theorem proceed_going {now : Instant} {lines : List Text}
    (h : a.proceed now = (lines, .going a')) : Proceeded a now a' := by
  simp only [proceed, Prod.mk.injEq] at h
  obtain ⟨_, h⟩ := h
  generalize hrest : a.pending.dropWhile (fun line => decide (line.1 ≤ now)) = rest at h
  have hsub : rest.Sublist a.pending := hrest ▸ List.dropWhile_sublist _
  have hhead := List.head?_dropWhile_not (fun line => decide (line.1 ≤ now)) a.pending
  rw [hrest] at hhead
  split at h
  · cases h
  · rename_i hne
    cases h
    have hquiet : Quiet { a with pending := rest } now := by
      intro t ht
      simp only [wake] at ht
      cases rest with
      | nil =>
        simp only [List.isEmpty_nil, Bool.true_and, Option.any_eq_true, decide_eq_true_eq,
          not_exists, not_and] at hne
        exact Int.not_le.mp (hne t ht)
      | cons line rest =>
        cases ht
        simpa using hhead
    refine ⟨hquiet, rfl, rfl, rfl, hsub.length_le, fun hq => ?_⟩
    rcases Nat.lt_or_eq_of_le hsub.length_le with hlt | heq
    · exact hlt
    · -- Nothing was emitted, so the call is as it was, and it is quiet now.
      rw [hsub.eq_of_length heq] at hquiet
      exact absurd hquiet hq

/-! ### Told to stop -/

theorem halt_told (h : a.halted = none) : a.halt now = a := by
  unfold halt
  rw [h]

theorem halt_halted (a : Activity) (now : Instant) : (a.halt now).halted = none := by
  unfold halt
  split
  · assumption
  · rfl

theorem halt_sound (h : a.Sound) : (a.halt now).Sound := by
  unfold halt
  split
  · exact h
  · intro _
    rfl

theorem advance_quiet {now : Instant} (h : a.Quiet now)
    (hs : stop = true → a.halted = none) : a.advance now stop = ([], .going a) := by
  unfold advance
  rw [proceed_quiet h]
  cases stop with
  | false => rfl
  | true => simp [halt_told now (hs rfl), proceed_quiet h]

/-- What a call that goes on leaves of what it had to do, when it may have been told to stop. -/
structure Advanced (a : Activity) (now : Instant) (stop : Bool) (a' : Activity) : Prop where
  quiet : a'.Quiet now
  told : stop = true → a'.halted = none
  sound : a.Sound → a'.Sound
  /-- It was told just now, or its lines have become no more, and fewer if it had something to do. -/
  lessens : (a.halted.isSome = true ∧ a'.halted = none) ∨
    (a'.halted = a.halted ∧ a'.pending.length ≤ a.pending.length ∧
      (¬ a.Quiet now → a'.pending.length < a.pending.length))

theorem advance_going {now : Instant}
    (h : (a.advance now stop).2 = .going a') : Advanced a now stop a' := by
  unfold advance at h
  split at h
  · cases h
  · rename_i lines a₁ h₁
    have p := proceed_going h₁
    have hsound : a.Sound → a₁.Sound := by
      intro hs hh
      rw [p.finish]
      exact hs (p.halted ▸ hh)
    cases stop with
    | false =>
      cases h
      exact ⟨p.quiet, nofun, hsound, .inr ⟨p.halted, p.pending, p.fewer⟩⟩
    | true =>
      simp only [if_true] at h
      cases hh : a₁.halted with
      | none =>
        rw [halt_told now hh, proceed_quiet p.quiet] at h
        cases h
        exact ⟨p.quiet, fun _ => hh, hsound, .inr ⟨p.halted, p.pending, p.fewer⟩⟩
      | some react =>
        have q := proceed_going (Prod.ext rfl h : (a₁.halt now).proceed now = (_, .going a'))
        have htold : a'.halted = none := q.halted.trans (halt_halted a₁ now)
        refine ⟨q.quiet, fun _ => htold, fun hs hn => ?_, .inl ⟨?_, htold⟩⟩
        · rw [q.finish]
          exact halt_sound now (hsound hs) (halt_halted a₁ now)
        · rw [← p.halted, hh]
          rfl

theorem wake_of_told (hs : a.Sound) (h : a.halted = none) : ∃ t, a.wake = some t := by
  unfold wake
  split
  · exact ⟨_, rfl⟩
  · exact Option.isSome_iff_exists.mp (hs h)

end Regatta.Activity
