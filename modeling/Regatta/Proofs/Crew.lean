import Regatta.Proofs.Ending

/-! Work that waits for nothing but calls of the tool.

It may be a single call or a race of many. Either way there is a crew of calls with their deadlines,
all of which are told to stop when the work is cancelled, if not before. The clock stops when one of
them has something to do, and the work goes on for as long as one of them does (`Crewed`). However
it is played, such work comes to rest (`Crewed.exists_play`); and it comes to an end if it is
cancelled at some time, or if its calls end by themselves (`Crewed.returns`). -/
namespace Regatta

open Race (staying turns mem_staying turns_staying)

/-- What an instant leaves of work that goes on. -/
structure Crewed.Goes {σ : Type} (crew : σ → List Worker) (orders : σ → Bool → Bool)
    (now : Instant) (stop : Bool) (s s' : σ) : Prop where
  nonempty : crew s' ≠ []
  kept : orders s stop = true → ∀ stop', (stop = true → stop' = true) → orders s' stop' = true
  /-- Those who stay are the crew, unless they are told to stop in the course of the instant. -/
  crew : crew s' = staying (crew s) now (orders s stop) ∨
    (crew s' = staying (staying (crew s) now false) now true ∧ orders s stop = false ∧
      ∀ stop', orders s' stop' = true)

/-- Work that is fit waits for its crew only. Whether the crew is told to stop is a matter of the
state (`orders`), and of whether the work is cancelled. -/
structure Crewed {σ ε ρ : Type} [Process σ ε ρ] (Fit : σ → Prop) (crew : σ → List Worker)
    (orders : σ → Bool → Bool) : Prop where
  now : ∀ (s : σ) b stop, (Process.advance s b stop).1.now = b.now
  wake : ∀ (s : σ) now, Process.wake s now = ((crew s).map (·.wake now)).foldl Instant.earlier none
  told : ∀ s, orders s true = true
  going : ∀ {s s' : σ} {b b' stop events}, Fit s →
    Process.advance s b stop = (b', events, .going s') →
    Fit s' ∧ Crewed.Goes crew orders b.now stop s s'

namespace Crewed

variable {σ ε ρ : Type} [Process σ ε ρ] {Fit : σ → Prop} {crew : σ → List Worker}
  {orders : σ → Bool → Bool} {s s' : σ} {b b' : Bench} {now t : Instant} {stop : Bool}
  {cancelAt : Option Instant}

/-! ### What becomes of the crew -/

namespace Goes
variable (h : Goes crew orders now stop s s')
include h

theorem upheld {P : Activity → Prop}
    (hP : ∀ a now stop a', P a → (a.advance now stop).2 = .going a' → P a')
    (hcrew : ∀ w ∈ crew s, P w.activity) : ∀ w ∈ crew s', P w.activity := by
  have hstays : ∀ (ws : List Worker) told, (∀ w ∈ ws, P w.activity) →
      ∀ w ∈ staying ws now told, P w.activity := by
    intro ws told hws v hv
    obtain ⟨w, hw, hgoing⟩ := mem_staying.mp hv
    exact hP _ _ _ _ (hws w hw) (Worker.respond_going hgoing).1
  rcases h.crew with heq | ⟨heq, -, -⟩
  · rw [heq]
    exact hstays _ _ hcrew
  · rw [heq]
    exact hstays _ _ (hstays _ _ hcrew)

theorem quiet : ∀ w ∈ crew s', w.activity.Quiet now := by
  intro w hw
  rcases h.crew with heq | ⟨heq, -, -⟩
  · rw [heq] at hw
    obtain ⟨v, -, hgoing⟩ := mem_staying.mp hw
    exact (Worker.rests_of_going hgoing).quiet
  · rw [heq] at hw
    obtain ⟨v, -, hgoing⟩ := mem_staying.mp hw
    exact (Worker.rests_of_going hgoing).quiet

/-- Who stays although they were told to stop has the end in sight. -/
theorem finite (htold : orders s stop = true)
    (hsound : ∀ w ∈ crew s, w.activity.Sound) : ∀ w ∈ crew s', w.activity.Finite := by
  intro w hw
  rcases h.crew with heq | ⟨-, hfalse, -⟩
  · rw [heq, htold] at hw
    obtain ⟨v, hv, hgoing⟩ := mem_staying.mp hw
    exact (hsound v hv).finite (Worker.respond_going hgoing).1
  · rw [htold] at hfalse
    cases hfalse

end Goes

/-! ### Coming to rest -/

/-- When the clock next stops, one of the crew wakes or the work is cancelled, and nobody has woken
before. -/
theorem next_eq_some (h : Crewed (ε := ε) (ρ := ρ) Fit crew orders)
    (hnext : Instant.next now [Process.wake s now, cancelAt] = some t) :
    now < t ∧ (∀ w ∈ crew s, ∀ u, w.wake now = some u → t ≤ u) ∧
      ((∃ w ∈ crew s, w.wake now = some t) ∨ cancelAt = some t) := by
  rw [h.wake] at hnext
  obtain ⟨hlt, hmem, hfirst⟩ := Instant.next_eq_some hnext
  cases hwake : ((crew s).map (·.wake now)).foldl Instant.earlier none with
  | none =>
    rw [hwake] at hmem
    refine ⟨hlt, fun w hw u hu => ?_, .inr (by simpa [eq_comm] using hmem)⟩
    rw [Race.wake_eq_none hwake w hw] at hu
    cases hu
  | some x =>
    obtain ⟨hx, hwakes, hle⟩ := Race.wake_eq_some hwake
    have htx : t ≤ x := hfirst x (by rw [hwake]; exact List.mem_cons_self ..) hx
    refine ⟨hlt, fun w hw u hu => Int.le_trans htx (hle w hw u hu), ?_⟩
    rw [hwake] at hmem
    rcases List.mem_cons.mp hmem with he | he
    · cases he
      exact .inl hwakes
    · exact .inr (List.mem_singleton.mp he).symm

/-- Whether the crew is told to stop at the instant to come, and how often the clock will stop if
that stays so. -/
noncomputable def rank (crew : σ → List Worker) (orders : σ → Bool → Bool)
    (cancelAt : Option Instant) (s : σ) (b : Bench) : Nat × Nat :=
  let told := orders s (b.passed cancelAt)
  ((!told).toNat, turns told (crew s) b.now + (cancelAt.any (b.now < ·)).toNat)

theorem passed_later (b' : Bench) (h : b.now < t) (hpassed : b.passed cancelAt = true) :
    ({ b' with now := t } : Bench).passed cancelAt = true := by
  unfold Bench.passed at hpassed ⊢
  cases cancelAt with
  | none => cases hpassed
  | some c =>
    rw [Option.any_some, decide_eq_true_eq] at hpassed ⊢
    exact Int.le_trans hpassed (Int.le_of_lt h)

/-- What is still ahead later is ahead now; and a time that has come was ahead before. -/
theorem ahead_le (cancelAt : Option Instant) (h : now < t) :
    (cancelAt.any (t < ·)).toNat ≤ (cancelAt.any (now < ·)).toNat ∧
      (cancelAt = some t → (cancelAt.any (t < ·)).toNat < (cancelAt.any (now < ·)).toNat) := by
  cases cancelAt with
  | none => exact ⟨Nat.le_refl _, fun he => by cases he⟩
  | some c =>
    rw [Option.any_some, Option.any_some]
    refine ⟨?_, fun he => ?_⟩
    · by_cases hc : t < c
      · simp [hc, Int.lt_trans h hc]
      · simp [hc]
    · cases he
      simp [h]

/-- Each time the clock stops there is less to come. -/
theorem rank_lt (h : Crewed (ε := ε) (ρ := ρ) Fit crew orders) (hfit : Fit s) {events : List ε}
    (hadvance : Process.advance s b (b.passed cancelAt) = (b', events, .going s'))
    (hnext : Instant.next b'.now [Process.wake s' b'.now, cancelAt] = some t) :
    Prod.Lex (· < ·) (· < ·) (rank crew orders cancelAt s' { b' with now := t })
      (rank crew orders cancelAt s b) := by
  obtain ⟨-, hgoes⟩ := h.going hfit hadvance
  have hnow : b'.now = b.now := by simpa [hadvance] using h.now s b (b.passed cancelAt)
  rw [hnow] at hnext
  obtain ⟨hlt, hfirst, hwhy⟩ := h.next_eq_some hnext
  have hkept := fun htold => hgoes.kept htold _ (passed_later b' hlt)
  have hcrew := hgoes.crew.imp_right fun hlate =>
    And.intro hlate.2.1 (hlate.2.2 (({ b' with now := t } : Bench).passed cancelAt))
  unfold rank
  dsimp only
  generalize orders s' (({ b' with now := t } : Bench).passed cancelAt) = told' at *
  generalize orders s (b.passed cancelAt) = told at *
  by_cases hsame : told' = told
  · -- nobody was told anything new, so the crew goes on as it would have
    subst hsame
    have hstay : crew s' = staying (crew s) b.now told' := by
      rcases hcrew with heq | ⟨hfalse, htrue⟩
      · exact heq
      · exact absurd (htrue.symm.trans hfalse) Bool.noConfusion
    rw [hstay] at hfirst hwhy ⊢
    obtain ⟨hturns, hfewer⟩ := turns_staying hlt hfirst
    obtain ⟨hahead, hcame⟩ := ahead_le cancelAt hlt
    apply Prod.Lex.right
    rcases hwhy with hwakes | hcancel
    · have := hfewer hwakes
      omega
    · have := hcame hcancel
      omega
  · cases told with
    | true => exact absurd (hkept rfl) hsame
    | false =>
      cases told' with
      | true => exact .left _ _ Nat.zero_lt_one
      | false => exact absurd rfl hsame

/-- **Work that waits for its crew only comes to rest.** -/
theorem exists_play (h : Crewed (ε := ε) (ρ := ρ) Fit crew orders) (cancelAt : Option Instant)
    (b : Bench) (seen : List ε) (s : σ) (hfit : Fit s) :
    ∃ record, Timeline.play (ρ := ρ) cancelAt b seen s = some record := by
  cases hadvance : Process.advance s b (b.passed cancelAt) with
  | mk b' rest =>
  obtain ⟨events, progress⟩ := rest
  cases progress with
  | ended r => exact ⟨_, Timeline.play_ended seen hadvance⟩
  | going s' =>
    cases hnext : Instant.next b'.now [Process.wake s' b'.now, cancelAt] with
    | none => exact ⟨_, Timeline.play_idle seen hadvance hnext⟩
    | some t =>
      have hless := h.rank_lt hfit hadvance hnext
      obtain ⟨record, hplay⟩ := exists_play h cancelAt { b' with now := t } (events.reverse ++ seen)
        s' (h.going hfit hadvance).1
      exact ⟨record, (Timeline.play_going seen hadvance hnext).trans hplay⟩
termination_by rank crew orders cancelAt s b
decreasing_by exact hless

/-! ### Coming to an end -/

theorem wakes (h : Crewed (ε := ε) (ρ := ρ) Fit crew orders)
    (hgoes : Goes crew orders now stop s s') (hfinite : ∀ w ∈ crew s', w.activity.Finite) :
    Instant.next now [Process.wake s' now, cancelAt] ≠ none := by
  intro hnone
  have hpast := Instant.next_eq_none.mp hnone
  obtain ⟨w, hw⟩ := List.exists_mem_of_ne_nil _ hgoes.nonempty
  obtain ⟨t, ht⟩ := (hfinite w hw).wakes
  have hlt := hgoes.quiet w hw t ht
  cases hwake : Process.wake s' now with
  | none =>
    rw [h.wake] at hwake
    have hle := Instant.next_eq_none.mp (Race.wake_eq_none hwake w hw) t (by simp [ht])
    exact absurd hlt (Int.not_lt.mpr hle)
  | some x =>
    have hle := hpast x (by rw [hwake]; exact List.mem_cons_self ..)
    rw [h.wake] at hwake
    exact absurd (Race.wake_eq_some hwake).1 (Int.not_lt.mpr hle)

/-- **Work that is cancelled at some time comes to an end, and so does work whose calls end by
themselves.** -/
theorem returns (h : Crewed (ε := ε) (ρ := ρ) Fit crew orders) {seen : List ε}
    {record : Timeline.Record ε ρ} (hplay : Timeline.play cancelAt b seen s = some record)
    (hfit : Fit s) (hsound : ∀ w ∈ crew s, w.activity.Sound)
    (hends : cancelAt.isSome = true ∨ ∀ w ∈ crew s, w.activity.Finite) :
    record.result.isSome = true := by
  revert hfit hsound hends
  refine Timeline.play_induct ?_ ?_ ?_ hplay
  · intros
    rfl
  · intro b seen s b' events s' hadvance hnext hfit hsound hends
    have hgoes := (h.going hfit hadvance).2
    have hnow : b'.now = b.now := by simpa [hadvance] using h.now s b (b.passed cancelAt)
    rw [hnow] at hnext
    refine absurd hnext (h.wakes hgoes ?_)
    rcases hends with hcancel | hfinite
    · -- the time of the cancellation is over, so all were told
      obtain ⟨c, hc⟩ := Option.isSome_iff_exists.mp hcancel
      have hpassed : b.passed cancelAt = true := by
        have hle := Instant.next_eq_none.mp hnext c (by simp [hc])
        simpa [Bench.passed, hc] using hle
      exact hgoes.finite (by rw [hpassed]; exact h.told s) hsound
    · exact hgoes.upheld (fun _ _ _ _ ha => ha.going) hfinite
  · intro b seen s b' events s' t record hadvance _ ih hfit hsound hends
    obtain ⟨hfit', hgoes⟩ := h.going hfit hadvance
    refine ih hfit' (hgoes.upheld b.tool.upholds_sound.going hsound) ?_
    exact hends.imp_right fun hfinite => hgoes.upheld (fun _ _ _ _ ha => ha.going) hfinite

end Crewed

/-! ### Races -/

namespace Race

variable {P : Activity → Prop} {tool : Tool}

theorem staying_again (ws : List Worker) (now : Instant) (stop : Bool) :
    staying (staying ws now stop) now stop = staying ws now stop := by
  induction ws with
  | nil => rfl
  | cons w rest ih =>
    cases h : (w.respond now stop).2 with
    | ended r => rw [staying_cons_ended h, ih]
    | going w' =>
      have hrests := Worker.respond_resting (Worker.rests_of_going h) (Int.le_refl now)
        fun _ => Worker.lt_wake
      rw [staying_cons_going h, staying_cons_going (congrArg Prod.snd hrests.1), ih]

theorem Vital.unwatched {r : Race} (h : r.Vital P) (hw : r.exchange.watches = false) (b : Bench)
    (stop : Bool) : (r.step b stop).2.2.exchange.watches = false := by
  rw [(r.step_spec b stop).2.2, h.sent b.now stop]
  dsimp only
  rw [Exchange.receiveAll_unwatched]
  · exact hw
  · exact hw

theorem orders_unwatched {r : Race} (h : r.exchange.watches = false) (stop : Bool) :
    r.orders stop = true := by
  rw [orders, h, Bool.not_false, Bool.or_true]

theorem running_step (r : Race) (b : Bench) (stop : Bool) :
    (r.step b stop).2.2.running = staying r.running b.now (r.orders stop) := by
  rw [(r.step_spec b stop).2.2]

theorem Vital.goes {r : Race} (h : r.Vital P) (hP : tool.Upholds P) (b : Bench) (stop : Bool)
    (hne : (r.proceed b stop).2.2.running ≠ []) :
    Crewed.Goes running orders b.now stop r (r.proceed b stop).2.2 := by
  have hunwatched := fun hw => h.unwatched hw b stop
  have hrunning := r.running_step b stop
  refine ⟨hne, ?_, ?_⟩ <;> unfold Race.proceed <;> dsimp only <;> split
  · rename_i hdecided
    rw [Bool.and_eq_true, Bool.not_eq_true'] at hdecided
    exact fun _ stop' _ => orders_unwatched ((h.step hP b stop).unwatched hdecided.2 _ stop) stop'
  · intro htold stop' hstop'
    rw [orders, Bool.or_eq_true, Bool.not_eq_true'] at htold
    rcases htold with hstop | hw
    · rw [hstop' hstop]
      rfl
    · exact orders_unwatched (hunwatched hw) stop'
  · rename_i hdecided
    rw [Bool.and_eq_true, Bool.not_eq_true'] at hdecided
    have hagain := (r.step b stop).2.2.running_step (r.step b stop).1 stop
    rw [hrunning, (r.step_spec b stop).1, orders_unwatched hdecided.2] at hagain
    cases htold : r.orders stop with
    | true =>
      rw [htold, staying_again] at hagain
      exact .inl hagain
    | false =>
      rw [htold] at hagain
      exact .inr ⟨hagain, rfl,
        orders_unwatched ((h.step hP b stop).unwatched hdecided.2 _ stop)⟩
  · exact .inl hrunning

theorem crewed : Crewed (σ := Race) (Race.Vital fun _ => True) Race.running Race.orders where
  now r b stop := (r.works_advance b stop).makes.now
  wake _ _ := rfl
  told _ := rfl
  going := by
    intro r r' b b' stop events hvital hadvance
    have hne := hvital.running_ne_nil b.tool.upholds_true hadvance
    refine ⟨hvital.advance b.tool.upholds_true hadvance, ?_⟩
    rw [(advance_going hadvance).1] at hne ⊢
    exact hvital.goes b.tool.upholds_true b stop hne

/-- A race always comes to rest. -/
theorem run_eq {b b' : Bench} {id circuit : Text} {budget : Duration} {engines : List Engine}
    {r : Race} (cancelAt : Option Instant)
    (hstart : start b id circuit budget engines = (b', .going r)) :
    Timeline.play cancelAt b' [] r = some (run b id circuit budget engines cancelAt) := by
  obtain ⟨record, hplay⟩ :=
    crewed.exists_play cancelAt b' [] r (vital_start b.tool.upholds_true hstart)
  have hrun : run b id circuit budget engines cancelAt = record := by
    unfold run
    rw [hstart]
    exact Timeline.complete_going hplay
  rw [hrun]
  exact hplay

theorem run_returns {b : Bench} {cancelAt : Option Instant}
    (h : cancelAt.isSome = true ∨ b.tool.Ends) (id circuit : Text) (budget : Duration)
    (engines : List Engine) : (run b id circuit budget engines cancelAt).result.isSome = true := by
  cases hstart : start b id circuit budget engines with
  | mk b' progress =>
  cases progress with
  | ended o =>
    unfold run
    rw [hstart]
    rfl
  | going r =>
    refine crewed.returns (run_eq cancelAt hstart) (vital_start b.tool.upholds_true hstart)
      (vital_start b.tool.upholds_sound hstart).calls (h.imp_right fun hends => ?_)
    exact (vital_start hends.upholds hstart).calls

end Race
end Regatta
