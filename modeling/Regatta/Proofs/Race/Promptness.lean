import Regatta.Proofs.Race.Judgement

/-! How long a race can take.

Suppose the tool returns at most a `lag` after it was told to stop (`Tool.Prompt`). All engines of a
race have the same deadline, so up to some moment none of them has been told to stop, and from that
moment on all of them have: because the deadline has come, because the owner was cancelled, or because
there is a winner. `Paced` says so of the engines at an instant, and each instant keeps it
(`Paced.goes`). From it follows the end of the play (`Paced.play`): it comes at most a lag after the
deadline, and at most a lag after the moment when the engines were told.

The second bound needs the moment at which a result arrives, which a record does not show.
`Timeline.Visits` gives the states at which the clock stops, and `Brings` the results that arrive
there. -/
namespace Regatta

/-! ### Calls that end in time -/

/-- From its beginning until it returns, the course takes no longer than this. -/
def Course.Within (lag : Duration) (c : Course) : Prop :=
  c.length ≤ lag ∧ ∀ line ∈ c.lines, line.1 ≤ lag

/-- Whenever it is told to stop, the tool returns at most a `lag` later. -/
def Tool.Prompt (lag : Duration) (tool : Tool) : Prop :=
  ∀ history files i after, ((tool history files i).halted after).Within lag

namespace Activity

/-- The call has not been told to stop, and will return within the lag when it is. -/
def Ready (lag : Duration) (a : Activity) : Prop :=
  ∃ react, a.halted = some react ∧ ∀ after, (react after).Within lag

/-- The call was told to stop, and has nothing to do after the limit. -/
structure EndsBy (limit : Instant) (a : Activity) : Prop where
  told : a.halted = none
  finish : ∃ t, a.finish = some t ∧ t ≤ limit
  lines : ∀ line ∈ a.pending, line.1 ≤ limit

variable {a a' : Activity} {now limit : Instant} {lag : Duration} {stop : Bool}

theorem mem_pending_of_proceed {lines : List Text} (h : a.proceed now = (lines, .going a')) :
    ∀ line ∈ a'.pending, line ∈ a.pending := by
  simp only [proceed, Prod.mk.injEq] at h
  obtain ⟨-, h⟩ := h
  split at h
  · cases h
  · cases h
    exact fun line hline => (List.dropWhile_sublist _).subset hline

theorem EndsBy.proceed {lines : List Text} (h : a.EndsBy limit)
    (hp : a.proceed now = (lines, .going a')) : a'.EndsBy limit where
  told := (proceed_going hp).halted.trans h.told
  finish := (proceed_going hp).finish ▸ h.finish
  lines line hline := h.lines line (mem_pending_of_proceed hp line hline)

/-- Telling it again changes nothing. -/
theorem EndsBy.going (h : a.EndsBy limit) (hgoing : (a.advance now stop).2 = .going a') :
    a'.EndsBy limit := by
  unfold advance at hgoing
  split at hgoing
  · cases hgoing
  · rename_i lines a₁ hp
    have h₁ := h.proceed hp
    cases stop with
    | false =>
      cases hgoing
      exact h₁
    | true =>
      simp only [if_true, halt_told now h₁.told] at hgoing
      exact h₁.proceed (Prod.ext rfl hgoing : a₁.proceed now = (_, .going a'))

theorem EndsBy.wake (h : a.EndsBy limit) : ∃ t, a.wake = some t ∧ t ≤ limit := by
  unfold Activity.wake
  split
  · rename_i t text rest hpending
    exact ⟨t, rfl, h.lines (t, text) (by simp [hpending])⟩
  · exact h.finish

theorem EndsBy.finite (h : a.EndsBy limit) : a.Finite := by
  obtain ⟨t, ht, -⟩ := h.finish
  exact Option.isSome_iff_exists.mpr ⟨t, ht⟩

theorem Ready.going (h : a.Ready lag) (hgoing : (a.advance now false).2 = .going a') :
    a'.Ready lag := by
  unfold advance at hgoing
  split at hgoing
  · cases hgoing
  · rename_i lines a₁ hp
    cases hgoing
    obtain ⟨react, hreact, hwithin⟩ := h
    exact ⟨react, (proceed_going hp).halted.trans hreact, hwithin⟩

theorem Ready.halt (h : a.Ready lag) (now : Instant) : (a.halt now).EndsBy (now + lag) := by
  obtain ⟨react, hreact, hwithin⟩ := h
  obtain ⟨hlength, hlines⟩ := hwithin (now - a.started)
  unfold Activity.halt
  rw [hreact]
  refine ⟨rfl, ⟨_, rfl, Int.add_le_add_left hlength now⟩, fun line hline => ?_⟩
  obtain ⟨⟨delay, text⟩, hmem, rfl⟩ := List.mem_map.mp hline
  exact Int.add_le_add_left (hlines (delay, text) hmem) now

theorem Ready.stopped (h : a.Ready lag) (hgoing : (a.advance now true).2 = .going a') :
    a'.EndsBy (now + lag) := by
  unfold advance at hgoing
  split at hgoing
  · cases hgoing
  · rename_i lines a₁ hp
    obtain ⟨react, hreact, hwithin⟩ := h
    have h₁ : a₁.Ready lag := ⟨react, (proceed_going hp).halted.trans hreact, hwithin⟩
    simp only [if_true] at hgoing
    exact (h₁.halt now).proceed (Prod.ext rfl hgoing : (a₁.halt now).proceed now = (_, .going a'))

end Activity

theorem Tool.Prompt.ready {tool : Tool} {lag : Duration} (h : tool.Prompt lag)
    (history : List Invocation) (files : FileTree) (i : Invocation) (now : Instant) :
    (Activity.start (tool history files i) now).Ready lag :=
  ⟨_, rfl, h history files i⟩

/-! ### A crew that is told to stop together -/

namespace Crewed

open Race (staying mem_staying)

/-- The crew started at the same time and has the same deadline. -/
def Timed (started deadline : Instant) (ws : List Worker) : Prop :=
  ∀ w ∈ ws, w.started = started ∧ w.deadline = some deadline

/-- Nobody has been told to stop, and the deadline has not gone by; or all have been told, at a
moment that has come by now, and will be over a lag after it. Either is no later than the limit. -/
inductive Paced (lag : Duration) (deadline limit now : Instant) (ws : List Worker) : Prop
  | ready (hnow : now ≤ deadline) (hlimit : deadline ≤ limit)
    (hready : ∀ w ∈ ws, w.activity.Ready lag)
  | told (since : Instant) (hsince : since ≤ now) (hlimit : since ≤ limit)
    (hnow : now ≤ since + lag) (hends : ∀ w ∈ ws, w.activity.EndsBy (since + lag))

variable {lag : Duration} {started deadline limit now t : Instant} {stop : Bool}
  {ws : List Worker}

theorem Timed.stays (h : Timed started deadline ws) (now : Instant) (stop : Bool) :
    Timed started deadline (staying ws now stop) := by
  intro v hv
  obtain ⟨w, hw, hgoing⟩ := mem_staying.mp hv
  rw [(Worker.respond_going hgoing).2]
  exact h w hw

theorem endsBy_staying (h : ∀ w ∈ ws, w.activity.EndsBy limit) :
    ∀ w ∈ staying ws now stop, w.activity.EndsBy limit := by
  intro v hv
  obtain ⟨w, hw, hgoing⟩ := mem_staying.mp hv
  exact (h w hw).going (Worker.respond_going hgoing).1

theorem isLate_iff {w : Worker} (h : w.deadline = some deadline) :
    w.isLate now = true ↔ deadline ≤ now := by
  rw [Worker.isLate, h]
  simp

/-- Those who stay although they are told to stop, or although their time is up, end a lag from now. -/
theorem endsBy_of_told (htimed : Timed started deadline ws)
    (hready : ∀ w ∈ ws, w.activity.Ready lag) (h : stop = true ∨ deadline ≤ now) :
    ∀ w ∈ staying ws now stop, w.activity.EndsBy (now + lag) := by
  intro v hv
  obtain ⟨w, hw, hgoing⟩ := mem_staying.mp hv
  have htold : (stop || w.isLate now) = true := by
    rw [Bool.or_eq_true, isLate_iff (htimed w hw).2]
    exact h
  have ha := (Worker.respond_going hgoing).1
  rw [htold] at ha
  exact (hready w hw).stopped ha

/-- Before the deadline those who stay and are not told to stop are as ready as before. -/
theorem ready_of_untold (htimed : Timed started deadline ws)
    (hready : ∀ w ∈ ws, w.activity.Ready lag) (hnow : now < deadline) :
    ∀ w ∈ staying ws now false, w.activity.Ready lag := by
  intro v hv
  obtain ⟨w, hw, hgoing⟩ := mem_staying.mp hv
  have huntold : (false || w.isLate now) = false := by
    rw [Bool.false_or, ← Bool.not_eq_true, isLate_iff (htimed w hw).2]
    exact Int.not_le.mpr hnow
  have ha := (Worker.respond_going hgoing).1
  rw [huntold] at ha
  exact (hready w hw).going ha

/-- What a paced crew is after those of it have left who return: told by now, or as ready as before. -/
theorem Paced.stays (h : Paced lag deadline limit now ws) (htimed : Timed started deadline ws)
    (stop : Bool) :
    (∃ since, since ≤ now ∧ since ≤ limit ∧
      ∀ w ∈ staying ws now stop, w.activity.EndsBy (since + lag)) ∨
    (stop = false ∧ now < deadline ∧ deadline ≤ limit ∧
      ∀ w ∈ staying ws now stop, w.activity.Ready lag) := by
  cases h with
  | told since hsince hlimit _ hends => exact .inl ⟨since, hsince, hlimit, endsBy_staying hends⟩
  | ready hnow hlimit hready =>
    by_cases htold : stop = true ∨ deadline ≤ now
    · exact .inl ⟨now, Int.le_refl _, Int.le_trans hnow hlimit,
        endsBy_of_told htimed hready htold⟩
    · rw [not_or, Bool.not_eq_true, Int.not_le] at htold
      obtain ⟨rfl, hlt⟩ := htold
      exact .inr ⟨rfl, hlt, hlimit, ready_of_untold htimed hready hlt⟩

/-- Who is told to stop in the course of an instant is over a lag from now, too. -/
theorem Paced.stays_stopped (h : Paced lag deadline limit now ws)
    (htimed : Timed started deadline ws) : ∃ since, since ≤ now ∧ since ≤ limit ∧
      ∀ w ∈ staying (staying ws now false) now true, w.activity.EndsBy (since + lag) := by
  rcases h.stays htimed false with ⟨since, hsince, hlimit, hends⟩ | ⟨-, hlt, hlimit, hready⟩
  · exact ⟨since, hsince, hlimit, endsBy_staying hends⟩
  · exact ⟨now, Int.le_refl _, Int.le_trans (Int.le_of_lt hlt) hlimit,
      endsBy_of_told (htimed.stays _ _) hready (.inl rfl)⟩

variable {σ ε ρ : Type} [Process σ ε ρ] {Fit : σ → Prop} {crew : σ → List Worker}
  {orders : σ → Bool → Bool} {s s' : σ} {b : Bench} {cancelAt : Option Instant}

theorem Goes.timed (h : Goes crew orders now stop s s') (htimed : Timed started deadline (crew s)) :
    Timed started deadline (crew s') := by
  rcases h.crew with heq | ⟨heq, -, -⟩ <;> rw [heq]
  · exact htimed.stays _ _
  · exact (htimed.stays _ _).stays _ _

/-- After an instant all have been told to stop by now, or nobody was told and the deadline is still
to come. -/
theorem Paced.goes (h : Paced lag deadline limit now (crew s))
    (htimed : Timed started deadline (crew s)) (hgoes : Goes crew orders now stop s s') :
    (∃ since, since ≤ now ∧ since ≤ limit ∧ ∀ w ∈ crew s', w.activity.EndsBy (since + lag)) ∨
    (now < deadline ∧ deadline ≤ limit ∧ ∀ w ∈ crew s', w.activity.Ready lag) := by
  rcases hgoes.crew with heq | ⟨heq, -, -⟩ <;> rw [heq]
  · exact (h.stays htimed _).imp_right And.right
  · exact .inl (h.stays_stopped htimed)

/-- An engine wakes no later than its call has something to do, and no later than its deadline. -/
theorem wakes_by (w : Worker) {u : Instant} (hu : some u ∈ [w.activity.wake, w.deadline])
    (hlt : now < u) : ∃ v, w.wake now = some v ∧ v ≤ u := by
  cases hw : w.wake now with
  | none => exact absurd hlt (Int.not_lt.mpr (Instant.next_eq_none.mp hw u hu))
  | some v => exact ⟨v, rfl, (Instant.next_eq_some hw).2.2 u hu hlt⟩

/-- When the clock next stops after all were told to stop, their time is not over. -/
theorem next_le_of_endsBy (h : Crewed (ε := ε) (ρ := ρ) Fit crew orders)
    (hgoes : Goes crew orders now stop s s') (hends : ∀ w ∈ crew s', w.activity.EndsBy limit)
    (hnext : Instant.next now [Process.wake s' now, cancelAt] = some t) : t ≤ limit := by
  obtain ⟨-, hfirst, -⟩ := h.next_eq_some hnext
  obtain ⟨w, hw⟩ := List.exists_mem_of_ne_nil _ hgoes.nonempty
  obtain ⟨u, hu, hle⟩ := (hends w hw).wake
  obtain ⟨v, hv, hvu⟩ := wakes_by w (by simp [hu]) (hgoes.quiet w hw u hu)
  exact Int.le_trans (hfirst w hw v hv) (Int.le_trans hvu hle)

/-- When the clock next stops before the deadline, it stops no later than then. -/
theorem next_le_deadline (h : Crewed (ε := ε) (ρ := ρ) Fit crew orders)
    (hgoes : Goes crew orders now stop s s') (htimed : Timed started deadline (crew s'))
    (hlt : now < deadline)
    (hnext : Instant.next now [Process.wake s' now, cancelAt] = some t) : t ≤ deadline := by
  obtain ⟨-, hfirst, -⟩ := h.next_eq_some hnext
  obtain ⟨w, hw⟩ := List.exists_mem_of_ne_nil _ hgoes.nonempty
  obtain ⟨v, hv, hle⟩ := wakes_by w (by simp [(htimed w hw).2]) hlt
  exact Int.le_trans (hfirst w hw v hv) hle

theorem Paced.next (h : Crewed (ε := ε) (ρ := ρ) Fit crew orders)
    (hpaced : Paced lag deadline limit now (crew s)) (htimed : Timed started deadline (crew s))
    (hgoes : Goes crew orders now stop s s')
    (hnext : Instant.next now [Process.wake s' now, cancelAt] = some t) :
    Paced lag deadline limit t (crew s') := by
  have hlt := (h.next_eq_some hnext).1
  rcases hpaced.goes htimed hgoes with ⟨since, hsince, hlimit, hends⟩ | ⟨hbefore, hlimit, hready⟩
  · exact .told since (Int.le_trans hsince (Int.le_of_lt hlt)) hlimit
      (h.next_le_of_endsBy hgoes hends hnext) hends
  · exact .ready (h.next_le_deadline hgoes (hgoes.timed htimed) hbefore hnext) hlimit hready

theorem Paced.le (h : Paced lag deadline limit now ws) (hlag : 0 ≤ lag) : now ≤ limit + lag := by
  cases h with
  | ready hnow hlimit =>
    exact Int.le_trans (Int.le_trans hnow hlimit) (Int.le_add_of_nonneg_right hlag)
  | told since _ hlimit hnow => exact Int.le_trans hnow (Int.add_le_add_right hlimit lag)

theorem Paced.wakes (h : Crewed (ε := ε) (ρ := ρ) Fit crew orders)
    (hpaced : Paced lag deadline limit now (crew s)) (htimed : Timed started deadline (crew s))
    (hgoes : Goes crew orders now stop s s') :
    Instant.next now [Process.wake s' now, cancelAt] ≠ none := by
  rcases hpaced.goes htimed hgoes with ⟨since, -, -, hends⟩ | ⟨hbefore, -, -⟩
  · exact h.wakes hgoes fun w hw => (hends w hw).finite
  · intro hnone
    obtain ⟨w, hw⟩ := List.exists_mem_of_ne_nil _ hgoes.nonempty
    obtain ⟨v, hv, -⟩ := wakes_by w (by simp [(hgoes.timed htimed w hw).2]) hbefore
    cases hfold : ((crew s').map (·.wake now)).foldl Instant.earlier none with
    | none =>
      rw [Race.wake_eq_none hfold w hw] at hv
      cases hv
    | some x =>
      have hle := Instant.next_eq_none.mp hnone x (by simp [h.wake, hfold])
      exact absurd (Race.wake_eq_some hfold).1 (Int.not_lt.mpr hle)

/-- **Work whose crew is paced is over a lag after the limit.** -/
theorem Paced.play (h : Crewed (ε := ε) (ρ := ρ) Fit crew orders) (hlag : 0 ≤ lag)
    {seen : List ε} {record : Timeline.Record ε ρ}
    (hplay : Timeline.play cancelAt b seen s = some record) (hfit : Fit s)
    (htimed : Timed started deadline (crew s)) (hpaced : Paced lag deadline limit b.now (crew s)) :
    record.bench.now ≤ limit + lag ∧ record.result.isSome = true := by
  revert hfit htimed hpaced
  refine Timeline.play_induct ?_ ?_ ?_ hplay
  · intro b seen s b' events r hadvance _ _ hpaced
    have hnow : b'.now = b.now := by simpa [hadvance] using h.now s b (b.passed cancelAt)
    exact ⟨hnow ▸ hpaced.le hlag, rfl⟩
  · intro b seen s b' events s' hadvance hnext hfit htimed hpaced
    have hnow : b'.now = b.now := by simpa [hadvance] using h.now s b (b.passed cancelAt)
    rw [hnow] at hnext
    exact absurd hnext (hpaced.wakes h htimed (h.going hfit hadvance).2)
  · intro b seen s b' events s' t record hadvance hnext ih hfit htimed hpaced
    have hnow : b'.now = b.now := by simpa [hadvance] using h.now s b (b.passed cancelAt)
    rw [hnow] at hnext
    obtain ⟨hfit', hgoes⟩ := h.going hfit hadvance
    exact ih hfit' (hgoes.timed htimed) (hpaced.next h htimed hgoes hnext)

end Crewed

/-! ### The stops of the clock -/

namespace Timeline

variable {σ ε ρ : Type} [Process σ ε ρ] {cancelAt : Option Instant} {b b₁ b₂ : Bench} {s s₁ s₂ : σ}

/-- The clock stops at this state of the bench and the work, before anything is done there. -/
inductive Visits (cancelAt : Option Instant) (b : Bench) (s : σ) : Bench → σ → Prop
  | start : Visits cancelAt b s b s
  | next {b₁ b₂ : Bench} {s₁ s₂ : σ} {events : List ε} {t : Instant} :
      Visits cancelAt b s b₁ s₁ →
      Process.advance s₁ b₁ (b₁.passed cancelAt) = (b₂, events, .going s₂) →
      Instant.next b₂.now [Process.wake s₂ b₂.now, cancelAt] = some t →
      Visits cancelAt b s { b₂ with now := t } s₂

theorem Visits.after {b' : Bench} {s' : σ} {events : List ε} {t : Instant}
    (hadvance : Process.advance s b (b.passed cancelAt) = (b', events, .going s'))
    (hnext : Instant.next b'.now [Process.wake s' b'.now, cancelAt] = some t)
    (h : Visits cancelAt { b' with now := t } s' b₁ s₁) : Visits cancelAt b s b₁ s₁ := by
  induction h with
  | start => exact .next .start hadvance hnext
  | next _ hadvance' hnext' ih => exact .next ih hadvance' hnext'

/-- From wherever the clock stops the play goes on to the same record. -/
theorem Visits.play {seen : List ε} {record : Record ε ρ} (h : Visits cancelAt b s b₁ s₁)
    (hplay : Timeline.play cancelAt b seen s = some record) :
    ∃ seen₁, Timeline.play cancelAt b₁ seen₁ s₁ = some record := by
  induction h with
  | start => exact ⟨seen, hplay⟩
  | next _ hadvance hnext ih =>
    obtain ⟨seen₁, hplay₁⟩ := ih
    exact ⟨_, (play_going seen₁ hadvance hnext).symm.trans hplay₁⟩

theorem exists_visit_of_result {seen : List ε} {record : Record ε ρ} {r : ρ}
    (hplay : Timeline.play cancelAt b seen s = some record) (hr : record.result = some r) :
    ∃ b₁ s₁ b₂ events, Visits cancelAt b s b₁ s₁ ∧
      Process.advance s₁ b₁ (b₁.passed cancelAt) = (b₂, events, .ended r) := by
  revert hr
  refine play_induct ?_ ?_ ?_ hplay
  · intro b seen s b' events o hadvance hr
    cases hr
    exact ⟨b, s, b', events, .start, hadvance⟩
  · intro b seen s b' events s' _ _ hr
    cases hr
  · intro b seen s b' events s' t record hadvance hnext ih hr
    obtain ⟨b₁, s₁, b₂, events₂, hvisits, hended⟩ := ih hr
    exact ⟨b₁, s₁, b₂, events₂, hvisits.after hadvance hnext, hended⟩

end Timeline

theorem Crewed.Paced.visits {σ ε ρ : Type} [Process σ ε ρ] {Fit : σ → Prop}
    {crew : σ → List Worker} {orders : σ → Bool → Bool} {s s₁ : σ} {b b₁ : Bench}
    {cancelAt : Option Instant} {lag : Duration} {started deadline limit : Instant}
    (h : Crewed (ε := ε) (ρ := ρ) Fit crew orders) (hvisits : Timeline.Visits cancelAt b s b₁ s₁)
    (hfit : Fit s) (htimed : Timed started deadline (crew s))
    (hpaced : Paced lag deadline limit b.now (crew s)) :
    Fit s₁ ∧ Timed started deadline (crew s₁) ∧ Paced lag deadline limit b₁.now (crew s₁) := by
  induction hvisits with
  | start => exact ⟨hfit, htimed, hpaced⟩
  | @next b₁ b₂ s₁ s₂ events t _ hadvance hnext ih =>
    obtain ⟨hfit₁, htimed₁, hpaced₁⟩ := ih
    have hnow : b₂.now = b₁.now := by simpa [hadvance] using h.now s₁ b₁ (b₁.passed cancelAt)
    rw [hnow] at hnext
    obtain ⟨hfit₂, hgoes⟩ := h.going hfit₁ hadvance
    exact ⟨hfit₂, hgoes.timed htimed₁, hpaced₁.next h htimed₁ hgoes hnext⟩

/-! ### Results that arrive -/

theorem Exchange.receiveUpTo_unwatched {x : Exchange} (h : x.watches = false) (count : Nat) :
    x.receiveUpTo count = ([], x) := by
  cases count with
  | zero => rfl
  | succ n => rw [receiveUpTo, receive?_unwatched h]

theorem Exchange.unwatched_of_conclusive {x : Exchange} {r : EngineResult} (hr : r ∈ x.queue)
    (hv : r.verdict.conclusive = true) : x.receiveAll.2.watches = false := by
  suffices h : ∀ count, x.queue.length ≤ count → (x.receiveUpTo count).2.watches = false from
    h _ (Nat.le_refl _)
  intro count hcount
  induction count generalizing x with
  | zero =>
    rw [List.eq_nil_of_length_eq_zero (Nat.le_zero.mp hcount)] at hr
    cases hr
  | succ count ih =>
    rw [receiveUpTo]
    split
    · rename_i hnone
      cases hw : x.watches with
      | false => rfl
      | true =>
        obtain ⟨first, rest, hqueue⟩ := List.exists_cons_of_ne_nil (List.ne_nil_of_mem hr)
        rw [receive?_of_queue hw hqueue] at hnone
        cases hnone
    · rename_i first x' hsome
      obtain ⟨-, rest, hqueue, rfl⟩ := receive?_eq_some hsome
      rw [hqueue, List.length_cons] at hcount
      rw [hqueue] at hr
      dsimp only
      rcases List.mem_cons.mp hr with rfl | hr
      · -- the winner is known, and stays
        have hdone : (x.look r rest).watches = false := by simp [watches, look, hv]
        rw [receiveUpTo_unwatched hdone]
        exact hdone
      · exact ih hr (Nat.le_of_succ_le_succ hcount)

theorem Worker.elapsed_of_conclusive {w : Worker} {now : Instant} {stop : Bool} {x : EngineResult}
    (h : (w.respond now stop).2 = .ended x) (hv : x.verdict.conclusive = true) :
    x.elapsed = some (now - w.started) := by
  unfold respond at h
  split at h
  · cases h
  · rename_i lines ret hadvance
    cases h
    cases hending : ret.ending with
    | done output => rfl
    | breakdown reason => rfl
    | _ =>
      rw [hending] at hv
      simp only [judge] at hv ⊢
      split at hv
      · exact absurd hv (show ¬ Verdict.timeout.conclusive = true by decide)
      · exact absurd hv (show ¬ Verdict.unknown.conclusive = true by decide)

namespace Race

def arriving (r : Race) (b : Bench) (stop : Bool) : List EngineResult :=
  returning r.running b.now (r.orders stop) ++
    if r.exchange.watches && !(r.step b stop).2.2.exchange.watches then
      returning (r.step b stop).2.2.running b.now ((r.step b stop).2.2.orders stop)
    else []

/-- The race has the result: it waits to be sent or to be looked at, or has won. -/
def Has (r : Race) (x : EngineResult) : Prop :=
  x ∈ r.held ∨ x ∈ r.exchange.queue ∨ r.exchange.winner = some x

/-- In a run of these engines the result arrives at this time. -/
def Arrives (b : Bench) (id circuit : Text) (budget : Duration) (engines : List Engine)
    (cancelAt : Option Instant) (x : EngineResult) (t : Instant) : Prop :=
  ∃ b' r b₁ r₁, start b id circuit budget engines = (b', .going r) ∧
    Timeline.Visits cancelAt b' r b₁ r₁ ∧ b₁.now = t ∧ x ∈ r₁.arriving b₁ (b₁.passed cancelAt)

variable {r : Race} {b : Bench} {stop : Bool} {x : EngineResult} {P : Activity → Prop}

theorem has_step (h : (r.step b stop).2.2.Has x) :
    r.Has x ∨ x ∈ returning r.running b.now (r.orders stop) := by
  have hsent : x ∈ (r.sent b.now stop).1.queue ∨ x ∈ (r.sent b.now stop).2 →
      r.Has x ∨ x ∈ returning r.running b.now (r.orders stop) := by
    intro hx
    rcases Exchange.mem_sendAll hx with hqueue | hnew
    · exact .inl (.inr (.inl hqueue))
    · exact (List.mem_append.mp hnew).imp_left .inl
  rw [(r.step_spec b stop).2.2] at h
  rcases h with hheld | hreceived
  · exact hsent (.inr hheld)
  · rcases Exchange.mem_receiveUpTo hreceived with hqueue | hwon
    · exact hsent (.inl hqueue)
    · exact .inl (.inr (.inr ((Exchange.winner_sendAll _ _).symm.trans hwon)))

theorem has_proceed (h : (r.proceed b stop).2.2.Has x) : r.Has x ∨ x ∈ r.arriving b stop := by
  unfold Race.proceed at h
  unfold arriving
  dsimp only at h
  split at h
  · rename_i hdecided
    rw [if_pos hdecided]
    rcases has_step h with hbefore | hnew
    · exact (has_step hbefore).imp_right (List.mem_append_left _)
    · rw [(r.step_spec b stop).1] at hnew
      exact .inr (List.mem_append_right _ hnew)
  · exact (has_step h).imp_right (List.mem_append_left _)

theorem exists_of_arriving {started deadline : Instant}
    (htimed : Crewed.Timed started deadline r.running) (hx : x ∈ r.arriving b stop) :
    ∃ (w : Worker) (told : Bool), w.started = started ∧ (w.respond b.now told).2 = .ended x := by
  have hreturning : ∀ {ws : List Worker} {told : Bool}, Crewed.Timed started deadline ws →
      x ∈ returning ws b.now told →
      ∃ (w : Worker) (told : Bool), w.started = started ∧ (w.respond b.now told).2 = .ended x := by
    intro ws told htimed hx
    obtain ⟨w, hw, hresult⟩ := List.mem_filterMap.mp hx
    refine ⟨w, told, (htimed w hw).1, ?_⟩
    cases hrespond : (w.respond b.now told).2 with
    | going v =>
      rw [hrespond] at hresult
      cases hresult
    | ended y =>
      rw [hrespond] at hresult
      cases hresult
      rfl
  rcases List.mem_append.mp hx with hx | hx
  · exact hreturning htimed hx
  · split at hx
    · refine hreturning ?_ hx
      rw [r.running_step b stop]
      exact htimed.stays _ _
    · cases hx

theorem Vital.unwatched_of_conclusive (h : r.Vital P)
    (hx : x ∈ returning r.running b.now (r.orders stop)) (hv : x.verdict.conclusive = true) :
    (r.step b stop).2.2.exchange.watches = false := by
  rw [(r.step_spec b stop).2.2, h.sent b.now stop]
  exact Exchange.unwatched_of_conclusive (List.mem_append_right _ hx) hv

/-- **When a conclusive result arrives, all engines that go on have been told to stop.** -/
theorem Vital.endsBy_of_conclusive {lag : Duration} {started deadline limit : Instant}
    (h : r.Vital P) (htimed : Crewed.Timed started deadline r.running)
    (hpaced : Crewed.Paced lag deadline limit b.now r.running) (hx : x ∈ r.arriving b stop)
    (hv : x.verdict.conclusive = true) :
    ∃ since, since ≤ b.now ∧
      ∀ w ∈ (r.proceed b stop).2.2.running, w.activity.EndsBy (since + lag) := by
  have hrunning := r.running_step b stop
  cases horders : r.orders stop with
  | true =>
    -- they were told before, or are told now because the owner is cancelled
    rw [horders] at hrunning
    have hkept : (r.proceed b stop).2.2.running = staying r.running b.now true := by
      unfold Race.proceed
      dsimp only
      split
      · rename_i hdecided
        rw [Bool.and_eq_true, Bool.not_eq_true'] at hdecided
        rw [running_step, hrunning, (r.step_spec b stop).1, orders_unwatched hdecided.2,
          staying_again]
      · exact hrunning
    rw [hkept]
    rcases hpaced.stays htimed true with ⟨since, hsince, -, hends⟩ | ⟨hfalse, -⟩
    · exact ⟨since, hsince, hends⟩
    · cases hfalse
  | false =>
    have hwatches : r.exchange.watches = true := by
      rw [orders, Bool.or_eq_false_iff, Bool.not_eq_false'] at horders
      exact horders.2
    have hdecided : (r.step b stop).2.2.exchange.watches = false := by
      rcases List.mem_append.mp hx with hx | hx
      · exact h.unwatched_of_conclusive hx hv
      · split at hx
        · rename_i hdecided
          rw [Bool.and_eq_true, Bool.not_eq_true'] at hdecided
          exact hdecided.2
        · cases hx
    have htold : (r.proceed b stop).2.2.running =
        staying (staying r.running b.now false) b.now true := by
      unfold Race.proceed
      dsimp only
      rw [if_pos (by rw [hwatches, hdecided]; rfl), running_step, hrunning, horders,
        (r.step_spec b stop).1, orders_unwatched hdecided]
    obtain ⟨since, hsince, -, hends⟩ := hpaced.stays_stopped htimed
    rw [htold]
    exact ⟨since, hsince, hends⟩

/-- From the instant on at which a conclusive result arrives, a race takes a lag at most. -/
theorem Vital.play_of_conclusive {lag : Duration} {started deadline limit : Instant}
    {cancelAt : Option Instant} {seen : List RaceEvent}
    {record : Timeline.Record RaceEvent EngineResult} (hlag : 0 ≤ lag)
    (hplay : Timeline.play cancelAt b seen r = some record) (h : r.Vital fun _ => True)
    (htimed : Crewed.Timed started deadline r.running)
    (hpaced : Crewed.Paced lag deadline limit b.now r.running)
    (hx : x ∈ r.arriving b (b.passed cancelAt)) (hv : x.verdict.conclusive = true) :
    record.bench.now ≤ b.now + lag := by
  have hhere : b.now ≤ b.now + lag := Int.le_add_of_nonneg_right hlag
  cases hadvance : Process.advance r b (b.passed cancelAt) with
  | mk b' rest =>
  obtain ⟨events, progress⟩ := rest
  have hnow : b'.now = b.now := by simpa [hadvance] using crewed.now r b (b.passed cancelAt)
  cases progress with
  | ended o =>
    rw [Timeline.play_ended seen hadvance] at hplay
    cases hplay
    exact hnow ▸ hhere
  | going r' =>
    obtain ⟨hfit, hgoes⟩ := crewed.going h hadvance
    cases hnext : Instant.next b'.now [Process.wake r' b'.now, cancelAt] with
    | none =>
      rw [Timeline.play_idle seen hadvance hnext] at hplay
      cases hplay
      exact hnow ▸ hhere
    | some t =>
      rw [Timeline.play_going seen hadvance hnext] at hplay
      rw [hnow] at hnext
      obtain ⟨since, hsince, hends⟩ := h.endsBy_of_conclusive htimed hpaced hx hv
      rw [← (advance_going hadvance).1] at hends
      have hlater := (crewed.next_eq_some hnext).1
      refine (Crewed.Paced.play crewed hlag hplay hfit (hgoes.timed htimed) (.told since
        (Int.le_trans hsince (Int.le_of_lt hlater)) hsince ?_ hends)).1
      exact crewed.next_le_of_endsBy hgoes hends hnext

/-! ### The race -/

variable {budget : Duration} {engines : List Engine}

theorem timed_start (b : Bench) (id circuit : Text) (hbudget : 0 < budget) (engines : List Engine) :
    Crewed.Timed b.now (b.now + budget) (startWorkers b id circuit budget engines).2 := by
  refine forall_startWorkers (fun b' _ hnow e => ⟨hnow, ?_⟩) engines
  show b'.deadline budget = _
  rw [Bench.deadline, if_neg (Int.not_le.mpr hbudget), hnow]

theorem start_of_ne_nil (hne : engines ≠ []) (b : Bench) (id circuit : Text) (budget : Duration) :
    start b id circuit budget engines = ((startWorkers b id circuit budget engines).1,
      .going ⟨id, (startWorkers b id circuit budget engines).2, [], .ofCount engines.length⟩) := by
  unfold start
  rw [if_neg (by simpa using hne)]

/-- The results that a race has when the clock stops have arrived before. -/
theorem arrives_of_has {id circuit : Text} {cancelAt : Option Instant} {b' b₁ : Bench} {r₁ : Race}
    (hstart : start b id circuit budget engines = (b', .going r))
    (hvisits : Timeline.Visits cancelAt b' r b₁ r₁) (h : r₁.Has x) :
    ∃ t, Arrives b id circuit budget engines cancelAt x t := by
  induction hvisits with
  | start =>
    -- at first there is nothing
    unfold start at hstart
    split at hstart
    · cases hstart
    · cases hstart
      rcases h with h | h | h <;> cases h
  | @next b₁ b₂ r₁ r₂ events t hvisits hadvance hnext ih =>
    rw [(advance_going hadvance).1] at h
    rcases has_proceed h with hbefore | harrived
    · exact ih hbefore
    · exact ⟨b₁.now, b', r, b₁, r₁, hstart, hvisits, rfl, harrived⟩

theorem arrives_outcome {id circuit : Text}
    {cancelAt : Option Instant} {b' : Bench} {seen : List RaceEvent}
    {record : Timeline.Record RaceEvent EngineResult}
    (hstart : start b id circuit budget engines = (b', .going r))
    (hplay : Timeline.play cancelAt b' seen r = some record) (hx : record.result = some x)
    (hv : x.verdict.conclusive = true) :
    ∃ t, Arrives b id circuit budget engines cancelAt x t := by
  obtain ⟨b₁, r₁, b₂, events, hvisits, hadvance⟩ := Timeline.exists_visit_of_result hplay hx
  have hwon : (r₁.proceed b₁ (b₁.passed cancelAt)).2.2.Has x := by
    change r₁.advance b₁ (b₁.passed cancelAt) = _ at hadvance
    unfold Race.advance at hadvance
    dsimp only at hadvance
    split at hadvance
    · cases hadvance
      refine .inr (.inr ?_)
      unfold outcome Exchange.outcome at hv ⊢
      cases hwinner : (r₁.proceed b₁ (b₁.passed cancelAt)).2.2.exchange.winner with
      | some y => rfl
      | none =>
        rw [hwinner] at hv
        exact absurd hv (show ¬ Verdict.unknown.conclusive = true by decide)
    · cases hadvance
  rcases has_proceed hwon with hbefore | harrived
  · exact arrives_of_has hstart hvisits hbefore
  · exact ⟨b₁.now, b', r, b₁, r₁, hstart, hvisits, rfl, harrived⟩

/-- **A race takes no longer than its budget and the tool's lag.** All engines have their deadline
at the same distance from the start of the race. Whatever the tool does and whenever the owner is
cancelled, the race comes to an outcome, at most a lag after that deadline, and at most a lag after
any conclusive result arrives. A conclusive outcome is such a result, and says when it arrived. -/
theorem run_prompt (b : Bench) (id circuit : Text) (budget : Duration) (engines : List Engine)
    (cancelAt : Option Instant) (lag : Duration) (hne : engines ≠ []) (hbudget : 0 < budget)
    (hlag : 0 ≤ lag) (htool : b.tool.Prompt lag) :
    (∀ w ∈ (startWorkers b id circuit budget engines).2,
      w.started = b.now ∧ w.deadline = some (b.now + budget)) ∧
    ∃ outcome, (run b id circuit budget engines cancelAt).result = some outcome ∧
      (run b id circuit budget engines cancelAt).bench.now ≤ b.now + budget + lag ∧
      (∀ x t, Arrives b id circuit budget engines cancelAt x t → x.verdict.conclusive = true →
        (run b id circuit budget engines cancelAt).bench.now ≤ t + lag) ∧
      (outcome.verdict.conclusive = true →
        ∃ t, Arrives b id circuit budget engines cancelAt outcome t ∧
          outcome.elapsed = some (t - b.now)) := by
  have htimed := timed_start b id circuit hbudget engines
  have hstart := start_of_ne_nil hne b id circuit budget
  have hplay := run_eq cancelAt hstart
  have hvital := vital_start b.tool.upholds_true hstart
  have hpaced : Crewed.Paced lag (b.now + budget) (b.now + budget)
      (startWorkers b id circuit budget engines).1.now
      (startWorkers b id circuit budget engines).2 := by
    refine .ready ?_ (Int.le_refl _) 
      (forall_startWorkers (fun _ hsame _ _ => (hsame ▸ htool).ready _ _ _ _) engines)
    obtain ⟨calls, hworks, -⟩ := works_startWorkers b id circuit budget engines
    rw [hworks.makes.now]
    exact Int.le_add_of_nonneg_right (Int.le_of_lt hbudget)
  obtain ⟨hend, hresult⟩ := Crewed.Paced.play crewed hlag hplay hvital htimed hpaced
  obtain ⟨outcome, houtcome⟩ := Option.isSome_iff_exists.mp hresult
  -- wherever the clock stops the engines are paced, and so they are where a result arrives
  have hvisited : ∀ {b₁ : Bench} {r₁ : Race}, Timeline.Visits cancelAt
      (startWorkers b id circuit budget engines).1
      ⟨id, (startWorkers b id circuit budget engines).2, [], .ofCount engines.length⟩ b₁ r₁ →
      r₁.Vital (fun _ => True) ∧ Crewed.Timed b.now (b.now + budget) r₁.running ∧
        Crewed.Paced lag (b.now + budget) (b.now + budget) b₁.now r₁.running :=
    fun hvisits => Crewed.Paced.visits crewed hvisits hvital htimed hpaced
  refine ⟨htimed, outcome, houtcome, hend, ?_, fun hv => ?_⟩
  · rintro x t ⟨b', r, b₁, r₁, hstart', hvisits, rfl, hx⟩ hv
    rw [hstart] at hstart'
    cases hstart'
    obtain ⟨hvital₁, htimed₁, hpaced₁⟩ := hvisited hvisits
    obtain ⟨seen₁, hplay₁⟩ := hvisits.play hplay
    exact hvital₁.play_of_conclusive hlag hplay₁ htimed₁ hpaced₁ hx hv
  · obtain ⟨t, harrives⟩ := arrives_outcome hstart hplay houtcome hv
    refine ⟨t, harrives, ?_⟩
    obtain ⟨b', r, b₁, r₁, hstart', hvisits, rfl, hx⟩ := harrives
    rw [hstart] at hstart'
    cases hstart'
    obtain ⟨w, told, hstarted, hended⟩ := exists_of_arriving (hvisited hvisits).2.1 hx
    rw [← hstarted]
    exact Worker.elapsed_of_conclusive hended hv

/-- A tool with two engines, slow to give up: one finds a counterexample after a while, and the other
works on for ever. -/
def rivals : Bench where
  now := 0
  files := default
  tool := fun _ _ i =>
    { lines := [], length := if i.label = Engine.bmc.name then some 30 else none
      ending := .done "SAT", halted := fun _ => Course.giveUp 80 }
  randomEnding := fun _ => []

/-- The counterexample arrives at 30, long before the deadline, and the race is over by 110. -/
theorem run_prompt_rivals : rivals.tool.Prompt 80 ∧
    (run rivals [] [] 100 [.pdr, .bmc] none).result = some ⟨.sat, .bmc, some 30⟩ ∧
    Arrives rivals [] [] 100 [.pdr, .bmc] none ⟨.sat, .bmc, some 30⟩ 30 ∧
    (run rivals [] [] 100 [.pdr, .bmc] none).bench.now ≤ 30 + 80 := by
  have hprompt : rivals.tool.Prompt 80 := fun _ _ _ _ =>
    ⟨Int.le_refl 80, fun _ hline => absurd hline List.not_mem_nil⟩
  obtain ⟨-, outcome, houtcome, -, harrivals, harrived⟩ := run_prompt rivals [] [] 100 [.pdr, .bmc]
    none 80 (List.cons_ne_nil _ _) (by decide) (by decide) hprompt
  have hresult : (run rivals [] [] 100 [.pdr, .bmc] none).result =
      some ⟨.sat, .bmc, some 30⟩ := by
    have hplay : ∃ record, Timeline.play none (startWorkers rivals [] [] 100 [.pdr, .bmc]).1 []
        (⟨[], (startWorkers rivals [] [] 100 [.pdr, .bmc]).2, [], .ofCount 2⟩ : Race) =
          some record ∧ record.result = some ⟨.sat, .bmc, some 30⟩ :=
      ⟨_, (Timeline.play_going [] rfl rfl).trans ((Timeline.play_going _ rfl rfl).trans
        ((Timeline.play_going _ rfl rfl).trans (Timeline.play_ended _ rfl))), rfl⟩
    obtain ⟨record, hplay, hresult⟩ := hplay
    have hrun : run rivals [] [] 100 [.pdr, .bmc] none = record := Timeline.complete_going hplay
    rw [hrun]
    exact hresult
  rw [hresult] at houtcome
  cases houtcome
  obtain ⟨t, harrives, helapsed⟩ := harrived (by decide)
  have ht : t = 30 := by
    have hsame : (30 : Int) = t - 0 := Option.some.inj helapsed
    rw [Int.sub_zero] at hsame
    exact hsame.symm
  rw [ht] at harrives
  exact ⟨hprompt, hresult, harrives, harrivals _ 30 harrives (by decide)⟩

end Race
end Regatta
