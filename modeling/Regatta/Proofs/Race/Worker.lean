import Regatta.Proofs.Timeline
import Regatta.Proofs.Tool.Activity

/-! What becomes of an engine that is left to itself.

Apart from what it notes on the bench, an engine at work is a function of the instants at which it
is looked at (`respond`), and being looked at before it next wakes makes no difference
(`respond_resting`). So what it comes to, and when, can be read off its state: `Due` says it, with
the number of times that it still wakes. Every engine has such a fate (`exists_due`), which is what
a run of its own gives (`play_of_due`). An engine that was told to stop does come to an end
(`Due.isSome`). -/
namespace Regatta.Worker

/-! ### At an instant -/

/-- What the engine does at an instant, the bench left aside. -/
def respond (w : Worker) (now : Instant) (stop : Bool) :
    List Text × Progress Worker EngineResult :=
  match w.activity.advance now (stop || w.isLate now) with
  | (lines, .going a) => (lines, .going { w with activity := a })
  | (lines, .ended r) => (lines, .ended (w.judge now stop r.ending))

theorem note_frame (w : Worker) (b : Bench) (stop : Bool) (e : Ending) :
    (w.note b stop e).now = b.now ∧ (w.note b stop e).files = b.files := by
  unfold note
  split
  · exact ⟨rfl, rfl⟩
  · exact ⟨rfl, rfl⟩
  · dsimp only
    split <;> exact ⟨rfl, rfl⟩

theorem advance_snd (w : Worker) (b : Bench) (stop : Bool) :
    (w.advance b stop).2 = w.respond b.now stop := by
  unfold advance respond
  cases w.activity.advance b.now (stop || w.isLate b.now) with
  | mk lines p => cases p <;> rfl

theorem advance_now (w : Worker) (b : Bench) (stop : Bool) : (w.advance b stop).1.now = b.now := by
  unfold advance
  split
  · rfl
  · exact (note_frame w _ stop _).1

/-- The engine has done what it had to do by now, and has been told to stop if it is to be. -/
structure Rests (w : Worker) (now : Instant) (stop : Bool) : Prop where
  quiet : w.activity.Quiet now
  told : (stop || w.isLate now) = true → w.activity.halted = none

section

variable {now t : Instant} {stop : Bool} {w w' : Worker}

theorem respond_going (h : (w.respond now stop).2 = .going w') :
    (w.activity.advance now (stop || w.isLate now)).2 = .going w'.activity ∧
      w' = { w with activity := w'.activity } := by
  unfold respond at h
  split at h
  · rename_i ha
    cases h
    exact ⟨by rw [ha], rfl⟩
  · cases h

/-- An engine's result is its own, and says how long it took. -/
theorem own_of_ended {r : EngineResult}
    (h : (w.respond now stop).2 = .ended r) : r.engine = w.engine ∧ r.elapsed.isSome = true := by
  unfold respond at h
  split at h
  · cases h
  · cases h
    unfold judge
    split
    · exact ⟨rfl, rfl⟩
    · exact ⟨rfl, rfl⟩
    · split <;> exact ⟨rfl, rfl⟩

/-- The worker can come back with this result. -/
inductive Comes : Worker → EngineResult → Prop
  | ends {w : Worker} {now : Instant} {stop : Bool} {r : EngineResult}
    (h : (w.respond now stop).2 = .ended r) : Comes w r
  | goes {w w' : Worker} {now : Instant} {stop : Bool} {r : EngineResult}
    (h : (w.respond now stop).2 = .going w') (hthen : Comes w' r) : Comes w r

theorem Comes.own {r : EngineResult} (h : w.Comes r) :
    r.engine = w.engine ∧ r.elapsed.isSome = true := by
  induction h with
  | ends h => exact own_of_ended h
  | goes h _ ih =>
    rw [(respond_going h).2] at ih
    exact ih

theorem rests_of_going (h : (w.respond now stop).2 = .going w') : w'.Rests now stop := by
  obtain ⟨ha, hw⟩ := respond_going h
  have adv := Activity.advance_going ha
  refine ⟨adv.quiet, fun ht => adv.told ?_⟩
  rw [hw] at ht
  exact ht

theorem sound_of_going (hs : w.activity.Sound)
    (h : (w.respond now stop).2 = .going w') : w'.activity.Sound :=
  (Activity.advance_going (respond_going h).1).sound hs

/-- Before it next wakes, a resting engine does nothing. -/
theorem respond_resting (hr : w.Rests t stop)
    (ht : t ≤ now) (hw : ∀ u, w.wake t = some u → now < u) :
    w.respond now stop = ([], .going w) ∧ w.wake now = w.wake t := by
  have hlater : ∀ u, some u ∈ [w.activity.wake, w.deadline] → t < u → now < u := by
    intro u hu htu
    cases hn : w.wake t with
    | none =>
      have := Instant.next_eq_none.mp hn u hu
      grind
    | some v =>
      have := (Instant.next_eq_some hn).2.2 u hu htu
      have := hw v hn
      grind
  have hquiet : w.activity.Quiet now := by
    intro u hu
    exact hlater u (by simp [hu]) (hr.quiet u hu)
  have hlate : w.isLate now = w.isLate t := by
    unfold isLate
    cases hd : w.deadline with
    | none => rfl
    | some d =>
      have := hlater d (by simp [hd])
      simp only [Option.any_some, decide_eq_decide]
      grind
  have hadvance : w.activity.advance now (stop || w.isLate now) = ([], .going w.activity) :=
    Activity.advance_quiet hquiet (by rw [hlate]; exact hr.told)
  refine ⟨by unfold respond; rw [hadvance], ?_⟩
  unfold wake Instant.next
  congr 1
  apply List.map_congr_left
  intro s hs
  cases s with
  | none => rfl
  | some u =>
    have := hlater u hs
    by_cases htu : t < u
    · simp [Option.filter, htu, this htu]
    · have hnu : ¬ now < u := by grind
      simp [Option.filter, htu, hnu]

end

/-! ### Fates -/

structure Arrival where
  instant : Instant
  result : EngineResult
deriving DecidableEq, Repr

/-- What becomes of an engine that is looked at now and then left to itself: its arrival, or `none`
when it goes on for ever. The number says how often it wakes before. -/
inductive Due (stop : Bool) : Nat → Worker → Instant → Option Arrival → Prop where
  | ends {w now r} : (w.respond now stop).2 = .ended r → Due stop 0 w now (some ⟨now, r⟩)
  | idles {w w' now} : (w.respond now stop).2 = .going w' → w'.wake now = none →
      Due stop 0 w now none
  | goes {n w w' now t f} : (w.respond now stop).2 = .going w' → w'.wake now = some t →
      Due stop n w' t f → Due stop (n + 1) w now f

variable {f : Option Arrival} {n : Nat} {now t : Instant} {stop : Bool} {w w' : Worker}

/-- How many lines a resting engine has to emit, and whether its deadline is still to come. -/
def remaining (w : Worker) (now : Instant) : Nat :=
  w.activity.pending.length + (if w.deadline.any (now < ·) then 1 else 0)

/-- Each time it wakes, an engine that goes on was told to stop just then or has less to do. -/
theorem remaining_lessens (hw : w.wake t = some now) (h : (w.respond now stop).2 = .going w') :
    (w.activity.halted.isSome = true ∧ w'.activity.halted = none) ∨
      (w'.activity.halted = w.activity.halted ∧ w'.remaining now < w.remaining t) := by
  obtain ⟨ha, hw'⟩ := respond_going h
  obtain ⟨htn, hmem, _⟩ := Instant.next_eq_some hw
  rcases (Activity.advance_going ha).lessens with htold | ⟨hsame, hle, hfewer⟩
  · exact .inl htold
  · refine .inr ⟨hsame, ?_⟩
    have hdeadline : w'.deadline = w.deadline := by rw [hw']
    unfold remaining
    rw [hdeadline]
    by_cases hq : w.activity.Quiet now
    · -- The call had nothing to do, so it is the deadline that has come.
      have hd : w.deadline = some now := by
        have hne : w.activity.wake ≠ some now := fun he => absurd (hq now he) (Int.lt_irrefl now)
        simp only [List.mem_cons, List.not_mem_nil, or_false] at hmem
        rcases hmem with he | he
        · exact absurd he.symm hne
        · exact he.symm
      have hgone : (w.deadline.any (now < ·)) = false := by simp [hd]
      have hcame : (w.deadline.any (t < ·)) = true := by simpa [hd] using htn
      simp only [hgone, hcame, Bool.false_eq_true, if_false, if_true]
      omega
    · have hlt := hfewer hq
      have hkept : w.deadline.any (now < ·) = true → w.deadline.any (t < ·) = true := by
        cases w.deadline with
        | none => exact id
        | some d =>
          simp only [Option.any_some, decide_eq_true_eq]
          exact fun hd => Int.lt_trans htn hd
      split
      · rename_i hc
        rw [if_pos (hkept hc)]
        omega
      · omega

theorem exists_due_of_wake (stop : Bool) (w : Worker) (t now : Instant)
    (hw : w.wake t = some now) : ∃ n f, Due stop n w now f := by
  cases h : (w.respond now stop).2 with
  | ended r => exact ⟨0, _, .ends h⟩
  | going w' =>
    cases hw' : w'.wake now with
    | none => exact ⟨0, none, .idles h hw'⟩
    | some t' =>
      have hless := remaining_lessens hw h
      obtain ⟨n, f, hd⟩ := exists_due_of_wake stop w' now t' hw'
      exact ⟨n + 1, f, .goes h hw' hd⟩
termination_by (w.activity.halted.isSome.toNat, w.remaining t)
decreasing_by
  rcases hless with ⟨hs, hn⟩ | ⟨hsame, hlt⟩
  · apply Prod.Lex.left
    simp [hs, hn]
  · rw [hsame]
    exact Prod.Lex.right _ hlt

theorem exists_due (stop : Bool) (w : Worker) (now : Instant) : ∃ n f, Due stop n w now f := by
  cases h : (w.respond now stop).2 with
  | ended r => exact ⟨0, _, .ends h⟩
  | going w' =>
    cases hw : w'.wake now with
    | none => exact ⟨0, none, .idles h hw⟩
    | some t =>
      obtain ⟨n, f, hd⟩ := exists_due_of_wake stop w' now t hw
      exact ⟨n + 1, f, .goes h hw hd⟩

theorem Due.le {a : Arrival} (h : Due stop n w now (some a)) : now ≤ a.instant := by
  generalize hf : some a = f at h
  induction h with
  | ends =>
    cases hf
    exact Int.le_refl _
  | idles => cases hf
  | goes _ hw _ ih => exact Int.le_of_lt (Int.lt_of_lt_of_le (Instant.next_eq_some hw).1 (ih hf))

theorem Due.isSome (h : Due true n w now f) (hs : w.activity.Sound) : f.isSome = true := by
  induction h with
  | ends => rfl
  | idles h hw =>
    have hr := rests_of_going h
    obtain ⟨t, ht⟩ := Activity.wake_of_told (sound_of_going hs h) (hr.told rfl)
    have hle := Instant.next_eq_none.mp hw t (by simp [ht])
    exact absurd (hr.quiet t ht) (Int.not_lt.mpr hle)
  | goes h _ _ ih => exact ih (sound_of_going hs h)

/-- An engine has one fate. -/
theorem Due.unique {m : Nat} {g : Option Arrival}
    (h : Due stop n w now f) (h' : Due stop m w now g) : n = m ∧ f = g := by
  induction h generalizing m g with
  | ends h =>
    cases h' with
    | ends h' =>
      rw [h] at h'
      cases h'
      exact ⟨rfl, rfl⟩
    | idles h' => rw [h] at h'; cases h'
    | goes h' => rw [h] at h'; cases h'
  | idles h hw =>
    cases h' with
    | ends h' => rw [h] at h'; cases h'
    | idles => exact ⟨rfl, rfl⟩
    | goes h' hw' =>
      rw [h] at h'
      cases h'
      rw [hw] at hw'
      cases hw'
  | goes h hw _ ih =>
    cases h' with
    | ends h' => rw [h] at h'; cases h'
    | idles h' hw' =>
      rw [h] at h'
      cases h'
      rw [hw] at hw'
      cases hw'
    | goes h' hw' hd' =>
      rw [h] at h'
      cases h'
      rw [hw] at hw'
      cases hw'
      obtain ⟨hn, hf⟩ := ih hd'
      exact ⟨congrArg (· + 1) hn, hf⟩

/-- How often the engine still wakes. -/
noncomputable def turns (stop : Bool) (w : Worker) (now : Instant) : Nat :=
  (exists_due stop w now).choose

/-- What the engine comes to, and when. -/
noncomputable def fate (stop : Bool) (w : Worker) (now : Instant) : Option Arrival :=
  (exists_due stop w now).choose_spec.choose

theorem due_fate (stop : Bool) (w : Worker) (now : Instant) :
    Due stop (w.turns stop now) w now (w.fate stop now) :=
  (exists_due stop w now).choose_spec.choose_spec

theorem Due.fate_eq (h : Due stop n w now f) : w.turns stop now = n ∧ w.fate stop now = f :=
  (due_fate stop w now).unique h

theorem fate_ended {r : EngineResult}
    (h : (w.respond now stop).2 = .ended r) : w.fate stop now = some ⟨now, r⟩ :=
  (Due.ends h).fate_eq.2

theorem fate_idle
    (h : (w.respond now stop).2 = .going w') (hw : w'.wake now = none) : w.fate stop now = none :=
  (Due.idles h hw).fate_eq.2

/-- An engine that goes on has the same fate at the next instant at which the clock stops, and when
it wakes just then it has one turn less. -/
theorem fate_going (h : (w.respond now stop).2 = .going w') (ht : now < t)
    (hw : ∀ u, w'.wake now = some u → t ≤ u) :
    w'.fate stop t = w.fate stop now ∧ w'.turns stop t ≤ w.turns stop now ∧
      (w'.wake now = some t → w'.turns stop t < w.turns stop now) := by
  have hr := rests_of_going h
  cases hwake : w'.wake now with
  | none =>
    -- It never wakes, so it stays as it is.
    obtain ⟨hsame, hnone⟩ := respond_resting hr (Int.le_of_lt ht) (by rw [hwake]; exact nofun)
    have hlater := (Due.idles (by rw [hsame]) (hnone.trans hwake)).fate_eq
    have hnow := (Due.idles h hwake).fate_eq
    rw [hlater.1, hlater.2, hnow.1, hnow.2]
    exact ⟨rfl, Nat.le_refl 0, nofun⟩
  | some u =>
    have hdue := due_fate stop w' u
    have hnow := (Due.goes h hwake hdue).fate_eq
    rcases Int.lt_or_eq_of_le (hw u hwake) with htu | rfl
    · obtain ⟨hsame, hkeep⟩ := respond_resting hr (Int.le_of_lt ht)
        (by rw [hwake]; intro v hv; cases hv; exact htu)
      have hlater := (Due.goes (by rw [hsame]) (hkeep.trans hwake) hdue).fate_eq
      rw [hlater.1, hlater.2, hnow.1, hnow.2]
      refine ⟨rfl, Nat.le_refl _, fun he => ?_⟩
      cases he
      exact absurd htu (Int.lt_irrefl _)
    · rw [hnow.1, hnow.2]
      exact ⟨rfl, Nat.le_succ _, fun _ => Nat.lt_succ_self _⟩

theorem lt_of_fate_going {a : Arrival}
    (h : (w.respond now stop).2 = .going w') (ha : w.fate stop now = some a) : now < a.instant := by
  cases hwake : w'.wake now with
  | none => rw [fate_idle h hwake] at ha; cases ha
  | some u =>
    have hu := (Instant.next_eq_some hwake).1
    rw [← (fate_going h hu fun v hv => by rw [hwake] at hv; cases hv; exact Int.le_refl _).1] at ha
    exact Int.lt_of_lt_of_le hu (ha ▸ due_fate stop w' u).le

/-! ### A run of its own -/

theorem lt_wake (h : w.wake now = some t) : now < t :=
  (Instant.next_eq_some h).1

theorem uncancelled_advance {b : Bench} {p : Progress Worker EngineResult}
    (h : (w.respond b.now false).2 = p) :
    Process.advance w b (b.passed none) = ((w.advance b false).1, (w.advance b false).2.1, p) := by
  rw [← h, ← advance_snd]
  rfl

theorem uncancelled_next (w : Worker) (now : Instant) :
    Instant.next now [Process.wake w now, none] = w.wake now :=
  Instant.next_ahead fun _ => lt_wake

theorem play_of_due {b : Bench} (seen : List Text) (h : Due false n w b.now f) :
    ∃ record, Timeline.play none b seen w = some record ∧ record.result = f.map (·.result) ∧
      ∀ a, f = some a → record.bench.now = a.instant := by
  generalize hnow : b.now = now at h
  induction h generalizing b seen with
  | @ends w now r h =>
    subst hnow
    refine ⟨_, Timeline.play_ended seen (uncancelled_advance h), rfl, fun a ha => ?_⟩
    cases ha
    exact advance_now w b false
  | idles h hw =>
    subst hnow
    refine ⟨_, Timeline.play_idle seen (uncancelled_advance h) ?_, rfl, nofun⟩
    rw [uncancelled_next, advance_now]
    exact hw
  | goes h hw hd ih =>
    subst hnow
    rw [Timeline.play_going seen (uncancelled_advance h) (by
      rw [uncancelled_next, advance_now]
      exact hw)]
    exact ih _ rfl

end Regatta.Worker
