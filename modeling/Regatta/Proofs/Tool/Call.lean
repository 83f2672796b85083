import Regatta.Proofs.Crew

/-! One call of the tool by itself.

A call is left alone until it comes back, and is told to stop when its time is up or when its owner
is cancelled. It is a crew of one (`Call.crewed`): it always comes to rest (`run_eq`), and comes
back if it is cancelled at some time or ends by itself (`run_returns`), or if it has a deadline
(`run_isSome`). -/
namespace Regatta

structure Call where
  deadline : Option Instant
  activity : Activity

namespace Call

def advance (c : Call) (b : Bench) (stop : Bool) : Bench × List Text × Progress Call Ending :=
  match c.activity.advance b.now (stop || b.passed c.deadline) with
  | (lines, .going a) => (b, lines, .going { c with activity := a })
  | (lines, .ended r) => ({ b with files := r.closing b.files }, lines, .ended r.ending)

def wake (c : Call) (now : Instant) : Option Instant :=
  Instant.next now [c.activity.wake, c.deadline]

instance : Process Call Text Ending := ⟨advance, wake⟩

def run (b : Bench) (budget : Duration) (i : Invocation) (cancelAt : Option Instant) :
    Timeline.Record Text Ending :=
  let (b', a) := b.call i
  Timeline.complete cancelAt (b', .going (⟨b.deadline budget, a⟩ : Call))

variable {b b' : Bench} {c : Call} {cancelAt : Option Instant} {lines : List Text} {stop : Bool}

theorem advance_going {c' : Call} (h : c.advance b stop = (b', lines, .going c')) : b' = b ∧
      c.activity.advance b.now (stop || b.passed c.deadline) = (lines, .going c'.activity) ∧
      c' = { c with activity := c'.activity } := by
  unfold advance at h
  split at h
  · rename_i ha
    cases h
    exact ⟨rfl, ha, rfl⟩
  · cases h

theorem advance_ended {e : Ending}
    (h : c.advance b stop = (b', lines, .ended e)) : ∃ r : Activity.Return,
      c.activity.advance b.now (stop || b.passed c.deadline) = (lines, .ended r) ∧
      b' = { b with files := r.closing b.files } ∧ e = r.ending := by
  unfold advance at h
  split at h
  · cases h
  · rename_i r ha
    cases h
    exact ⟨r, ha, rfl, rfl⟩

theorem works_advance (c : Call) (b : Bench) (stop : Bool) :
    Bench.Works [] b (c.advance b stop).1 := by
  unfold advance
  split
  · exact .refl b
  · exact b.works_files _

/-- The call as the only one of a crew. -/
def worker (c : Call) : Worker := ⟨.none, 0, 0, c.deadline, c.activity⟩

theorem crewed : Crewed (σ := Call) (fun _ => True) (fun c => [c.worker]) (fun _ stop => stop) where
  now c b stop := (c.works_advance b stop).makes.now
  wake _ _ := rfl
  told _ := rfl
  going := by
    intro c c' b b' stop lines _ hadvance
    obtain ⟨-, ha, hc⟩ := advance_going hadvance
    have hrespond : (c.worker.respond b.now stop).2 = .going c'.worker := by
      unfold Worker.respond
      rw [show c.worker.activity.advance b.now (stop || c.worker.isLate b.now) = _ from ha, hc]
      rfl
    refine ⟨trivial, List.cons_ne_nil _ _, fun hstop stop' hstop' => hstop' hstop, .inl ?_⟩
    rw [Race.staying_cons_going hrespond]
    rfl

/-- A call always comes to rest; it is the only one that is made, and the tool stays what it is. -/
theorem run_eq (b : Bench) (budget : Duration) (i : Invocation) (cancelAt : Option Instant) :
    Timeline.play cancelAt (b.call i).1 [] (⟨b.deadline budget, (b.call i).2⟩ : Call) =
        some (run b budget i cancelAt) ∧
      (run b budget i cancelAt).bench.calls = (b.now, i) :: b.calls ∧
      (run b budget i cancelAt).bench.tool = b.tool := by
  obtain ⟨record, hplay⟩ := crewed.exists_play cancelAt (b.call i).1 []
    ⟨b.deadline budget, (b.call i).2⟩ trivial
  have hrun : run b budget i cancelAt = record := Timeline.complete_going hplay
  have hcalls : record.bench.calls = (b.call i).1.calls := Timeline.play_frame Bench.calls
    (fun c b stop => (works_advance c b stop).makes.calls) (fun _ _ => rfl) hplay
  have htool : record.bench.tool = (b.call i).1.tool := Timeline.play_frame Bench.tool
    (fun c b stop => (works_advance c b stop).makes.tool) (fun _ _ => rfl) hplay
  rw [hrun]
  exact ⟨hplay, hcalls, htool⟩

theorem run_returns
    (h : cancelAt.isSome = true ∨ b.tool.Ends) (budget : Duration) (i : Invocation) :
    (run b budget i cancelAt).result.isSome = true := by
  refine crewed.returns (run_eq b budget i cancelAt).1 trivial ?_ (h.imp_right fun hends => ?_)
  · intro w hw
    cases List.mem_singleton.mp hw
    exact Activity.start_sound _ _
  · intro w hw
    cases List.mem_singleton.mp hw
    exact hends.upholds.start _ _ _ _

theorem now_advance
    {progress : Progress Call Ending} (h : c.advance b stop = (b', lines, progress)) :
    b'.now = b.now := by
  have hnow := (c.works_advance b stop).makes.now
  rwa [h] at hnow

/-- A call comes back if its owner is cancelled at some time, if it has a deadline, or if it ends by
itself. -/
theorem play_returns {seen : List Text}
    {record : Timeline.Record Text Ending} (hplay : Timeline.play cancelAt b seen c = some record)
    (hsound : c.activity.Sound)
    (h : cancelAt.isSome = true ∨ c.deadline.isSome = true ∨ c.activity.Finite) :
    record.result.isSome = true := by
  revert hsound h
  refine Timeline.play_induct ?_ ?_ ?_ hplay
  · intros
    rfl
  · intro b seen c b' lines c' hadvance hnext hsound h
    exfalso
    obtain ⟨rfl, ha, hc⟩ := advance_going hadvance
    have adv := Activity.advance_going (congrArg Prod.snd ha)
    have hpast := Instant.next_eq_none.mp hnext
    -- a call that wakes would be waited for
    have hlater : ∀ t, some t ∈ [c'.activity.wake, c'.deadline] → t ≤ b'.now := by
      intro t ht
      cases hown : Process.wake c' b'.now with
      | none => exact Instant.next_eq_none.mp hown t ht
      | some u =>
        have hle := hpast u (by simp [hown])
        exact absurd (Instant.next_eq_some hown).1 (Int.not_lt.mpr hle)
    have hasleep : c'.activity.wake = none := by
      cases hwake : c'.activity.wake with
      | none => rfl
      | some t =>
        have hle := hlater t (by simp [hwake])
        exact absurd (adv.quiet t hwake) (Int.not_lt.mpr hle)
    have hfinite : ¬ c'.activity.Finite := by
      intro hf
      obtain ⟨t, ht⟩ := hf.wakes
      rw [hasleep] at ht
      cases ht
    have huntold : (b'.passed cancelAt || b'.passed c.deadline) = false := by
      refine Bool.eq_false_iff.mpr fun htold => ?_
      obtain ⟨t, ht⟩ := Activity.wake_of_told (adv.sound hsound) (adv.told htold)
      rw [hasleep] at ht
      cases ht
    rw [Bool.or_eq_false_iff] at huntold
    rcases h with hcancel | hdeadline | hf
    · obtain ⟨t, rfl⟩ := Option.isSome_iff_exists.mp hcancel
      have := hpast t (by simp)
      simp [Bench.passed, this] at huntold
    · obtain ⟨t, ht⟩ := Option.isSome_iff_exists.mp hdeadline
      have hle := hlater t (by rw [hc]; simp [ht])
      simp [Bench.passed, ht, hle] at huntold
    · exact hfinite (hf.going (congrArg Prod.snd ha))
  · intro b seen c b' lines c' t record hadvance _ ih hsound h
    obtain ⟨-, ha, hc⟩ := advance_going hadvance
    refine ih ((Activity.advance_going (congrArg Prod.snd ha)).sound hsound) ?_
    rw [hc]
    exact h.imp_right (.imp_right fun hf => hf.going (congrArg Prod.snd ha))

theorem run_isSome {budget : Duration} {i : Invocation} (h : cancelAt.isSome = true ∨ 0 < budget ∨
      (b.tool b.invoked b.files i).length.isSome = true) :
    (run b budget i cancelAt).result.isSome = true := by
  refine play_returns (run_eq b budget i cancelAt).1 (Activity.start_sound _ _) ?_
  refine h.imp_right fun h => ?_
  rcases h with hbudget | hends
  · refine .inl ?_
    show (b.deadline budget).isSome = true
    rw [Bench.deadline, if_neg (Int.not_le.mpr hbudget)]
    rfl
  · refine .inr ?_
    show (Option.map _ _).isSome = true
    rw [Option.isSome_map]
    exact hends

end Call
end Regatta
