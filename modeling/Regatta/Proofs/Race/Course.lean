import Regatta.Proofs.Race.Step

/-! The course of a race that is never cancelled, told from the fates of its engines.

Between the instants at which it wakes an engine does nothing, so each engine of a race takes the
course it takes alone until there is a winner (`arrivals_staying`). What is looked at, and what comes
of it, can then be foretold from the arrivals of the engines (`Foretold`): `play_undecided` says so
for a race at any moment before it is decided, by induction on how often engines still wake. Once a
race is decided the engines are told to stop, and `play_decided` says that it ends and that nothing
more is looked at. -/
namespace Regatta.Race

open Worker (Arrival)

/-! ### Many engines at an instant -/

/-- What the engines come to, left to themselves. -/
noncomputable def arrivals (stop : Bool) (ws : List Worker) (now : Instant) : List Arrival :=
  ws.filterMap fun w => w.fate stop now

/-- How often engines still wake. -/
noncomputable def turns (stop : Bool) (ws : List Worker) (now : Instant) : Nat :=
  ws.foldr (fun w n => w.turns stop now + n) 0

section

variable {b : Bench} {now t : Instant} {r : Race} {result : EngineResult} {stop : Bool}
  {w : Worker} {ws : List Worker}

variable {b' : Bench} {events : List RaceEvent} {r' : Race} {w' : Worker} (seen : List RaceEvent)

theorem staying_cons_going (h : (w.respond now stop).2 = .going w') :
    staying (w :: ws) now stop = w' :: staying ws now stop := by
  simp [staying, h, Progress.state?]

theorem staying_cons_ended {r : EngineResult} (h : (w.respond now stop).2 = .ended r) :
    staying (w :: ws) now stop = staying ws now stop := by
  simp [staying, h, Progress.state?]

theorem returning_cons_going (h : (w.respond now stop).2 = .going w') :
    returning (w :: ws) now stop = returning ws now stop := by
  simp [returning, h, Progress.result?]

theorem returning_cons_ended {r : EngineResult} (h : (w.respond now stop).2 = .ended r) :
    returning (w :: ws) now stop = r :: returning ws now stop := by
  simp [returning, h, Progress.result?]

theorem mem_staying {v : Worker} :
    v ∈ staying ws now stop ↔ ∃ w ∈ ws, (w.respond now stop).2 = .going v := by
  unfold staying
  rw [List.mem_filterMap]
  refine exists_congr fun w => and_congr_right fun _ => ?_
  cases (w.respond now stop).2 <;> simp [Progress.state?]

theorem sound_staying
    (h : ∀ w ∈ ws, w.activity.Sound) : ∀ w ∈ staying ws now stop, w.activity.Sound := by
  intro v hv
  obtain ⟨w, hw, hgoing⟩ := mem_staying.mp hv
  exact Worker.sound_of_going (h w hw) hgoing

theorem wakes_of_stopped (h : ∀ w ∈ ws, w.activity.Sound) :
    ∀ w ∈ staying ws now true, w.wake now ≠ none := by
  intro v hv hnone
  obtain ⟨w, hw, hgoing⟩ := mem_staying.mp hv
  have hsome := (Worker.due_fate true w now).isSome (h w hw)
  rw [Worker.fate_idle hgoing hnone] at hsome
  cases hsome

theorem le_arrivals {a : Arrival} (h : a ∈ arrivals stop ws now) : now ≤ a.instant := by
  obtain ⟨w, _, hw⟩ := List.mem_filterMap.mp h
  exact (hw ▸ Worker.due_fate stop w now).le

theorem length_staying (ws : List Worker) (now : Instant) (stop : Bool) :
    (staying ws now stop).length + (returning ws now stop).length = ws.length := by
  induction ws with
  | nil => rfl
  | cons w rest ih =>
    cases h : (w.respond now stop).2 with
    | going w' =>
      rw [staying_cons_going h, returning_cons_going h]
      simp only [List.length_cons]
      omega
    | ended r =>
      rw [staying_cons_ended h, returning_cons_ended h]
      simp only [List.length_cons]
      omega

/-- The engines that return are those whose time it is. -/
theorem returning_eq (stop : Bool) (ws : List Worker) (now : Instant) :
    returning ws now stop =
      ((arrivals stop ws now).filter (·.instant ≤ now)).map (·.result) := by
  induction ws with
  | nil => rfl
  | cons w rest ih =>
    cases h : (w.respond now stop).2 with
    | ended r =>
      rw [returning_cons_ended h, ih]
      simp [arrivals, Worker.fate_ended h]
    | going w' =>
      rw [returning_cons_going h, ih]
      cases hf : w.fate stop now with
      | none => simp [arrivals, hf]
      | some a =>
        have hlt := Int.not_le.mpr (Worker.lt_of_fate_going h hf)
        simp [arrivals, hf, hlt]

/-- The engines that stay have the other arrivals before them, when the clock next stops. -/
theorem arrivals_staying (ht : now < t)
    (hw : ∀ w ∈ staying ws now stop, ∀ u, w.wake now = some u → t ≤ u) :
    arrivals stop (staying ws now stop) t =
      (arrivals stop ws now).filter (now < ·.instant) := by
  induction ws with
  | nil => rfl
  | cons w rest ih =>
    cases h : (w.respond now stop).2 with
    | ended r =>
      rw [staying_cons_ended h] at hw ⊢
      rw [ih hw]
      simp [arrivals, Worker.fate_ended h]
    | going w' =>
      rw [staying_cons_going h] at hw ⊢
      have hrest := ih fun v hv => hw v (List.mem_cons_of_mem _ hv)
      have hfate := (Worker.fate_going h ht (hw w' (List.mem_cons_self ..))).1
      unfold arrivals at hrest ⊢
      rw [List.filterMap_cons, List.filterMap_cons, hrest, hfate]
      cases hf : w.fate stop now with
      | none => rfl
      | some a => simp [Worker.lt_of_fate_going h hf]

/-- When the clock next stops there are no more turns than before, and fewer if an engine wakes. -/
theorem turns_staying (ht : now < t)
    (hw : ∀ w ∈ staying ws now stop, ∀ u, w.wake now = some u → t ≤ u) :
    turns stop (staying ws now stop) t ≤ turns stop ws now ∧
      ((∃ w ∈ staying ws now stop, w.wake now = some t) →
        turns stop (staying ws now stop) t < turns stop ws now) := by
  induction ws with
  | nil =>
    refine ⟨Nat.le_refl _, ?_⟩
    rintro ⟨v, hv, -⟩
    cases hv
  | cons w rest ih =>
    cases h : (w.respond now stop).2 with
    | ended r =>
      rw [staying_cons_ended h] at hw ⊢
      obtain ⟨hle, hlt⟩ := ih hw
      simp only [turns, List.foldr_cons] at hle hlt ⊢
      exact ⟨by omega, fun hx => by have := hlt hx; omega⟩
    | going w' =>
      rw [staying_cons_going h] at hw ⊢
      obtain ⟨hle, hlt⟩ := ih fun v hv => hw v (List.mem_cons_of_mem _ hv)
      obtain ⟨_, hle', hlt'⟩ := Worker.fate_going h ht (hw w' (List.mem_cons_self ..))
      simp only [turns, List.foldr_cons] at hle hlt ⊢
      refine ⟨by omega, ?_⟩
      rintro ⟨v, hv, hwake⟩
      rcases List.mem_cons.mp hv with rfl | hv
      · have := hlt' hwake
        omega
      · have := hlt ⟨v, hv, hwake⟩
        omega

/-! ### The clock of a race -/

theorem wake_eq_none (h : (ws.map (·.wake now)).foldl Instant.earlier none = none) :
    ∀ w ∈ ws, w.wake now = none := by
  intro w hw
  exact (Instant.foldl_earlier_eq_none.mp h).2 _ (List.mem_map_of_mem hw)

theorem wake_eq_some (h : (ws.map (·.wake now)).foldl Instant.earlier none = some t) :
    now < t ∧ (∃ w ∈ ws, w.wake now = some t) ∧
      ∀ w ∈ ws, ∀ u, w.wake now = some u → t ≤ u := by
  obtain ⟨hmem, hle⟩ := Instant.foldl_earlier_eq_some h
  obtain ⟨w, hw, hwake⟩ : ∃ w ∈ ws, w.wake now = some t := by simpa using hmem
  refine ⟨Worker.lt_wake hwake, ⟨w, hw, hwake⟩, fun v hv u hu => hle u ?_⟩
  exact List.mem_cons_of_mem _ (hu ▸ List.mem_map_of_mem hv)

theorem uncancelled_next (r : Race) (now : Instant) :
    Instant.next now [Process.wake r now, none] = r.wake now :=
  Instant.next_ahead fun _ h => (wake_eq_some h).1

theorem proceed_now (r : Race) (b : Bench) (stop : Bool) : (r.proceed b stop).1.now = b.now := by
  unfold proceed
  dsimp only
  split
  · exact (step_spec _ _ stop).1.trans (step_spec r b stop).1
  · exact (step_spec r b stop).1

theorem play_proceed (h : r.proceed b false = (b', events, r')) :
    (r'.isOver = true → Timeline.play none b seen r =
      some ⟨r'.conclude b', seen.reverse ++ events, some r'.outcome⟩) ∧
    (r'.isOver = false → r'.wake b.now = none → Timeline.play none b seen r =
      some ⟨b', seen.reverse ++ events, none⟩) ∧
    ∀ t, r'.isOver = false → r'.wake b.now = some t → Timeline.play none b seen r =
      Timeline.play none { b' with now := t } (events.reverse ++ seen) r' := by
  have hnow : b'.now = b.now := by simpa [h] using proceed_now r b false
  have hadvance : Process.advance r b (b.passed none) =
      if r'.isOver then (r'.conclude b', events, .ended r'.outcome) else (b', events, .going r') := by
    show r.advance b false = _
    unfold advance
    rw [h]
  refine ⟨fun ho => ?_, fun ho hw => ?_, fun t ho hw => ?_⟩
  · exact Timeline.play_ended seen (hadvance.trans (if_pos ho))
  · refine Timeline.play_idle seen (hadvance.trans (if_neg (by simp [ho]))) ?_
    rw [uncancelled_next, hnow]
    exact hw
  · refine Timeline.play_going seen (hadvance.trans (if_neg (by simp [ho]))) ?_
    rw [uncancelled_next, hnow]
    exact hw

/-! ### A race that is decided -/

structure Decided (r : Race) (winner : EngineResult) : Prop where
  held : r.held = []
  isOpen : r.exchange.isOpen = true
  winner : r.exchange.winner = some winner
  room : r.exchange.queue.length + r.running.length ≤ r.exchange.room

theorem Decided.watches {w : EngineResult} (h : Decided r w) :
    r.exchange.watches = false := by
  simp [Exchange.watches, h.winner]

/-- A decided race tells its engines to stop and looks at no more results. -/
theorem Decided.step {w : EngineResult} (h : Decided r w) (b : Bench) (stop : Bool) :
    RaceEvent.results (r.step b stop).2.1 = [] ∧ Decided (r.step b stop).2.2 w ∧
      (r.step b stop).2.2.running = staying r.running b.now true := by
  obtain ⟨_, hresults, hrace⟩ := step_spec r b stop
  have horders : r.orders stop = true := by simp [orders, h.watches]
  have hlength := length_staying r.running b.now true
  have hroom := h.room
  have hsent : r.sent b.now stop =
      ({ r.exchange with queue := r.exchange.queue ++ returning r.running b.now true }, []) := by
    unfold sent
    rw [h.held, horders, List.nil_append]
    exact Exchange.sendAll_of_room _ h.isOpen (by omega)
  have hreceive : (r.sent b.now stop).1.receiveAll = ([], (r.sent b.now stop).1) := by
    refine Exchange.receiveAll_unwatched ?_
    rw [hsent]
    exact h.watches
  rw [hreceive] at hresults hrace
  rw [hrace, horders, hsent]
  refine ⟨hresults, ⟨rfl, h.isOpen, h.winner, ?_⟩, rfl⟩
  simp only [List.length_append]
  omega

theorem Decided.proceed {w : EngineResult} (h : Decided r w) (b : Bench) (stop : Bool) :
    ∃ b' events r', r.proceed b stop = (b', events, r') ∧ RaceEvent.results events = [] ∧
      Decided r' w ∧ r'.running = staying r.running b.now true := by
  refine ⟨(r.step b stop).1, (r.step b stop).2.1, (r.step b stop).2.2, ?_, h.step b stop⟩
  unfold Race.proceed
  simp [h.watches]

/-- From the instant on at which a race is decided nothing more is looked at, and it comes to its
end with the winner. -/
theorem play_decided {w : EngineResult} (hp : r.proceed b false = (b', events, r'))
    (hd : Decided r' w) (hr : r'.running = staying ws b.now true)
    (hs : ∀ v ∈ ws, v.activity.Sound) :
    ∃ record, Timeline.play none b seen r = some record ∧ record.result = some w ∧
      RaceEvent.results record.events =
        RaceEvent.results seen.reverse ++ RaceEvent.results events := by
  -- The engines that were told to stop have ever fewer turns left.
  induction hn : turns true ws b.now using Nat.strongRecOn generalizing r r' b b' events ws seen with
  | ind n ih =>
  obtain ⟨hover, _, hgoing⟩ := play_proceed seen hp
  cases ho : r'.isOver with
  | true =>
    refine ⟨_, hover ho, ?_, RaceEvent.results_append _ _⟩
    simp [outcome, Exchange.outcome, hd.winner]
  | false =>
    have hwake : ∃ t, r'.wake b.now = some t := by
      refine Option.ne_none_iff_exists'.mp fun hnone => ?_
      have hne : r'.running ≠ [] := by
        intro hnil
        simp [isOver, hnil, hd.held] at ho
      obtain ⟨v, hv⟩ := List.exists_mem_of_ne_nil _ hne
      exact wakes_of_stopped hs v (hr ▸ hv) (wake_eq_none hnone v hv)
    obtain ⟨t, ht⟩ := hwake
    obtain ⟨hlt, hwakes, hfirst⟩ := wake_eq_some ht
    rw [hr] at hwakes hfirst
    obtain ⟨_, _, _, hp', hresults, hd', hr'⟩ := hd.proceed { b' with now := t } false
    have hturns := (turns_staying hlt hfirst).2 hwakes
    rw [← hr, hn] at hturns
    obtain ⟨record, hplay, hresult, hevents⟩ := ih _ hturns (events.reverse ++ seen) hp' hd'
      hr' (hr ▸ sound_staying hs) rfl
    refine ⟨record, (hgoing t ho ht).trans hplay, hresult, ?_⟩
    rw [hevents, hresults]
    simp

/-! ### A race that is not decided -/

/-- No result was conclusive, all that arrived were looked at, and one is due from each engine that
runs. -/
structure Undecided (r : Race) : Prop where
  held : r.held = []
  isOpen : r.exchange.isOpen = true
  queue : r.exchange.queue = []
  winner : r.exchange.winner = none
  due : r.exchange.due = r.running.length
  room : r.running.length ≤ r.exchange.room

namespace Undecided
variable (h : Undecided r)
include h

theorem watches : r.exchange.watches = (r.running.length != 0) := by
  simp [Exchange.watches, h.winner, h.due]

theorem returning_orders (now : Instant) :
    returning r.running now (r.orders false) = returning r.running now false ∧
      staying r.running now (r.orders false) = staying r.running now false := by
  cases hr : r.running with
  | nil => exact ⟨rfl, rfl⟩
  | cons w rest =>
    have horders : r.orders false = false := by simp [orders, h.watches, hr]
    rw [horders]
    exact ⟨rfl, rfl⟩

theorem step_quiet (hnobody : returning r.running b.now false = []) :
    RaceEvent.results (r.step b false).2.1 = [] ∧ Undecided (r.step b false).2.2 ∧
      (r.step b false).2.2.running = staying r.running b.now false := by
  obtain ⟨_, hresults, hrace⟩ := step_spec r b false
  obtain ⟨hreturning, hstaying⟩ := h.returning_orders b.now
  have hlength := length_staying r.running b.now false
  have hsent : r.sent b.now false = (r.exchange, []) := by
    unfold sent
    rw [h.held, hreturning, hnobody]
    rfl
  rw [hsent, Exchange.receiveAll_nil h.queue] at hresults hrace
  rw [hrace, hstaying]
  rw [hnobody, List.length_nil, Nat.add_zero] at hlength
  exact ⟨hresults, ⟨rfl, h.isOpen, h.queue, h.winner, h.due.trans hlength.symm,
    hlength ▸ h.room⟩, rfl⟩

/-- When one engine returns, its result is looked at, and decides the race if it is conclusive. -/
theorem step_one (hone : returning r.running b.now false = [result]) :
    RaceEvent.results (r.step b false).2.1 = [result] ∧
      (r.step b false).2.2.running = staying r.running b.now false ∧
      (result.verdict.conclusive = true → Decided (r.step b false).2.2 result) ∧
      (result.verdict.conclusive = false → Undecided (r.step b false).2.2) := by
  obtain ⟨_, hresults, hrace⟩ := step_spec r b false
  obtain ⟨hreturning, hstaying⟩ := h.returning_orders b.now
  have hlength := length_staying r.running b.now false
  have hroom := h.room
  rw [hone, List.length_singleton] at hlength
  have hwatches : r.exchange.watches = true := by
    rw [h.watches, ← hlength]
    rfl
  have hsent : (r.sent b.now false).1 = { r.exchange with queue := [result] } ∧
      (r.sent b.now false).2 = [] := by
    unfold sent
    rw [h.held, hreturning, hone, List.nil_append,
      Exchange.sendAll_of_room _ h.isOpen (by simp [h.queue]; omega), h.queue]
    exact ⟨rfl, rfl⟩
  have hreceive : (r.sent b.now false).1.receiveAll =
      ([result], (r.sent b.now false).1.look result []) := by
    refine Exchange.receiveAll_singleton ?_ ?_
    · rw [hsent.1]
      exact hwatches
    · rw [hsent.1]
  rw [hreceive, hsent.1] at hresults hrace
  rw [hsent.2] at hrace
  rw [hrace, hstaying]
  refine ⟨hresults, rfl, fun hc => ⟨rfl, h.isOpen, if_pos hc, ?_⟩,
    fun hc => ⟨rfl, h.isOpen, rfl, if_neg (by simp [hc]), ?_, ?_⟩⟩
  · show 0 + (staying r.running b.now false).length ≤ r.exchange.room
    omega
  · show r.exchange.due - 1 = (staying r.running b.now false).length
    rw [h.due]
    omega
  · show (staying r.running b.now false).length ≤ r.exchange.room
    omega

theorem proceed_quiet (hnobody : returning r.running b.now false = []) :
    ∃ b' events r', r.proceed b false = (b', events, r') ∧ RaceEvent.results events = [] ∧
      Undecided r' ∧ r'.running = staying r.running b.now false := by
  have hstep := h.step_quiet hnobody
  refine ⟨(r.step b false).1, (r.step b false).2.1, (r.step b false).2.2, ?_, hstep⟩
  have hlength := length_staying r.running b.now false
  rw [hnobody, List.length_nil, Nat.add_zero] at hlength
  have hsame : (r.step b false).2.2.exchange.watches = r.exchange.watches := by
    rw [h.watches, hstep.2.1.watches, hstep.2.2, hlength]
  unfold Race.proceed
  simp [hsame]

theorem proceed_inconclusive (hone : returning r.running b.now false = [result])
    (hc : result.verdict.conclusive = false) :
    ∃ b' events r', r.proceed b false = (b', events, r') ∧ RaceEvent.results events = [result] ∧
      Undecided r' ∧ r'.running = staying r.running b.now false := by
  obtain ⟨hresults, hrunning, _, hundecided⟩ := h.step_one hone
  have hnext := hundecided hc
  generalize hstep : r.step b false = next at hresults hrunning hnext
  obtain ⟨b₁, events₁, r₁⟩ := next
  unfold Race.proceed
  rw [hstep]
  dsimp only
  split
  · -- It was the last engine; nobody is left to be told to stop.
    rename_i hdone
    have hnil : r₁.running = [] := by
      have hwatches := hnext.watches
      simp only [Bool.and_eq_true, Bool.not_eq_true'] at hdone
      rw [hdone.2] at hwatches
      simpa using hwatches.symm
    have hidle : returning r₁.running b₁.now false = [] := by rw [hnil]; rfl
    obtain ⟨hmore, hlast, hrest⟩ := hnext.step_quiet hidle
    refine ⟨_, _, _, rfl, ?_, hlast, ?_⟩
    · rw [RaceEvent.results_append, hresults, hmore]
      rfl
    · rw [hrest, hnil, ← hrunning]
      exact hnil.symm
  · exact ⟨_, _, _, rfl, hresults, hnext, hrunning⟩

/-- An undecided race is decided by a conclusive result, and the others are told to stop. -/
theorem proceed_conclusive (hone : returning r.running b.now false = [result])
    (hc : result.verdict.conclusive = true) :
    ∃ b' events r', r.proceed b false = (b', events, r') ∧ RaceEvent.results events = [result] ∧
      Decided r' result ∧ r'.running = staying (staying r.running b.now false) b.now true := by
  obtain ⟨hresults, hrunning, hdecided, _⟩ := h.step_one hone
  have hnext := hdecided hc
  have hnow := (step_spec r b false).1
  have hwatches : r.exchange.watches = true := by
    rw [h.watches]
    cases hr : r.running with
    | nil => rw [hr] at hone; cases hone
    | cons w rest => rfl
  generalize hstep : r.step b false = next at hresults hrunning hnext hnow
  obtain ⟨b₁, events₁, r₁⟩ := next
  obtain ⟨hmore, hlast, hrest⟩ := hnext.step b₁ false
  refine ⟨(r₁.step b₁ false).1, events₁ ++ (r₁.step b₁ false).2.1, (r₁.step b₁ false).2.2, ?_, ?_,
    hlast, ?_⟩
  · unfold Race.proceed
    rw [hstep]
    simp [hwatches, hnext.watches]
  · rw [RaceEvent.results_append, hresults, hmore]
    rfl
  · rw [hrest, hrunning, hnow]

end Undecided

end

/-! ### What can be foretold -/

/-- Whether no conclusive arrival comes before. -/
def inTime (as : List Arrival) (a : Arrival) : Bool :=
  as.all fun c => !c.result.verdict.conclusive || decide (a.instant ≤ c.instant)

theorem inTime_perm {as bs : List Arrival} (h : as.Perm bs) : inTime as = inTime bs := by
  funext a
  exact h.all_eq

theorem inTime_iff {as : List Arrival} {a : Arrival} :
    inTime as a = true ↔ ∀ c ∈ as, c.result.verdict.conclusive = true → a.instant ≤ c.instant := by
  simp only [inTime, List.all_eq_true, Bool.or_eq_true, Bool.not_eq_true', decide_eq_true_eq]
  refine forall_congr' fun c => imp_congr_right fun _ => ?_
  cases c.result.verdict.conclusive <;> simp

/-- What becomes of a race of so many engines with these arrivals: which arrivals are looked at, in
which order, and what comes of it. -/
structure Foretold (count : Nat) (as looked : List Arrival) (outcome : Option EngineResult) :
    Prop where
  ordered : looked.Pairwise (·.instant < ·.instant)
  perm : looked.Perm (as.filter (inTime as))
  won : ∀ a ∈ as, a.result.verdict.conclusive = true → inTime as a = true →
    outcome = some a.result
  drawn : (∀ a ∈ as, a.result.verdict.conclusive = false) →
    outcome = if as.length = count then some .inconclusive else none

theorem Foretold.nobody (count : Nat) :
    Foretold count [] [] (if 0 = count then some .inconclusive else none) where
  ordered := .nil
  perm := .nil
  won := nofun
  drawn := fun _ => rfl

variable {count : Nat} {as rest looked : List Arrival} {a : Arrival} {o : Option EngineResult}

theorem Foretold.of_perm {bs : List Arrival} (h : Foretold count as looked o) (hp : bs.Perm as) :
    Foretold count bs looked o where
  ordered := h.ordered
  perm := h.perm.trans (inTime_perm hp ▸ (hp.filter _).symm)
  won := fun c hc hv ht => h.won c (hp.mem_iff.mp hc) hv (inTime_perm hp ▸ ht)
  drawn := fun hn => hp.length_eq ▸ h.drawn fun c hc => hn c (hp.mem_iff.mpr hc)

theorem inTime_head (hfirst : ∀ c ∈ rest, a.instant < c.instant) :
    inTime (a :: rest) a = true := by
  refine inTime_iff.mpr fun c hc _ => ?_
  rcases List.mem_cons.mp hc with rfl | hc
  · exact Int.le_refl _
  · exact Int.le_of_lt (hfirst c hc)

/-- An inconclusive arrival before all others is looked at first, and changes nothing else. -/
theorem Foretold.cons (h : Foretold count rest looked o)
    (hv : a.result.verdict.conclusive = false) (hfirst : ∀ c ∈ rest, a.instant < c.instant) :
    Foretold (count + 1) (a :: rest) (a :: looked) o := by
  have hself := inTime_head hfirst
  have hothers : inTime (a :: rest) = inTime rest := by
    funext c
    simp [inTime, hv]
  refine ⟨List.pairwise_cons.mpr ⟨fun c hc => ?_, h.ordered⟩, ?_, fun c hc hcv ht => ?_, fun hn => ?_⟩
  · exact hfirst c (List.mem_filter.mp (h.perm.mem_iff.mp hc)).1
  · rw [List.filter_cons_of_pos hself, hothers]
    exact h.perm.cons a
  · rcases List.mem_cons.mp hc with rfl | hc
    · rw [hv] at hcv
      cases hcv
    · exact h.won c hc hcv (hothers ▸ ht)
  · simpa using h.drawn fun c hc => hn c (List.mem_cons_of_mem _ hc)

theorem Foretold.decided (count : Nat) (hv : a.result.verdict.conclusive = true)
    (hfirst : ∀ c ∈ rest, a.instant < c.instant) :
    Foretold count (a :: rest) [a] (some a.result) := by
  have hself := inTime_head hfirst
  have hothers : ∀ c ∈ rest, ¬ inTime (a :: rest) c = true := fun c hc ht =>
    Int.not_le.mpr (hfirst c hc) (inTime_iff.mp ht a (List.mem_cons_self ..) hv)
  refine ⟨List.pairwise_singleton _ _, ?_, fun c hc hcv ht => ?_, fun hn => ?_⟩
  · rw [List.filter_cons_of_pos hself, List.filter_eq_nil_iff.mpr hothers]
  · rcases List.mem_cons.mp hc with rfl | hc
    · rfl
    · exact absurd ht (hothers c hc)
  · rw [hn a (List.mem_cons_self ..)] at hv
    cases hv

/-! ### Arrivals at different times -/

/-- No two arrivals come at the same instant, unless a conclusive one came before. -/
def Staggered (as : List Arrival) : Prop :=
  as.Pairwise fun a b => a.instant = b.instant →
    ∃ c ∈ as, c.result.verdict.conclusive = true ∧ c.instant < a.instant

theorem Staggered.of_perm {bs : List Arrival} (h : Staggered as) (hp : bs.Perm as) :
    Staggered bs := by
  have hsame : ∀ {a b : Arrival}, (a.instant = b.instant →
      ∃ c ∈ as, c.result.verdict.conclusive = true ∧ c.instant < a.instant) →
      b.instant = a.instant →
      ∃ c ∈ as, c.result.verdict.conclusive = true ∧ c.instant < b.instant := by
    intro a b hab he
    rw [he]
    exact hab he.symm
  refine ((hp.pairwise_iff hsame).mpr h).imp fun hab he => ?_
  obtain ⟨c, hc, hv, hlt⟩ := hab he
  exact ⟨c, hp.mem_iff.mpr hc, hv, hlt⟩

theorem Staggered.now {now : Instant} (h : Staggered as) (hle : ∀ a ∈ as, now ≤ a.instant) :
    as.filter (·.instant ≤ now) = [] ∨ ∃ a, as.filter (·.instant ≤ now) = [a] := by
  have hpair : (as.filter (·.instant ≤ now)).Pairwise fun a b => a.instant ≠ b.instant := by
    refine List.Pairwise.imp_of_mem (fun {a b} ha hb hab he => ?_) (List.Pairwise.filter _ h)
    obtain ⟨c, hc, _, hlt⟩ := hab he
    have hnow := of_decide_eq_true (List.mem_filter.mp ha).2
    exact Int.not_le.mpr (Int.lt_of_lt_of_le hlt hnow) (hle c hc)
  have hinstant : ∀ a ∈ as.filter (·.instant ≤ now), a.instant = now := fun a ha =>
    Int.le_antisymm (of_decide_eq_true (List.mem_filter.mp ha).2) (hle a (List.mem_filter.mp ha).1)
  generalize as.filter (·.instant ≤ now) = due at hpair hinstant
  cases hpair with
  | nil => exact .inl rfl
  | @cons a more hne =>
    cases more with
    | nil => exact .inr ⟨a, rfl⟩
    | cons b =>
      exact absurd ((hinstant a (by simp)).trans (hinstant b (by simp)).symm) (hne b (by simp))

theorem Staggered.later {now : Instant} (h : Staggered as)
    (hnone : ∀ c ∈ as, c.instant ≤ now → c.result.verdict.conclusive = false) :
    Staggered (as.filter (now < ·.instant)) := by
  refine (List.Pairwise.filter _ h).imp fun hab he => ?_
  obtain ⟨c, hc, hv, hlt⟩ := hab he
  refine ⟨c, List.mem_filter.mpr ⟨hc, ?_⟩, hv, hlt⟩
  refine decide_eq_true (Int.not_le.mp fun hle => ?_)
  rw [hnone c hc hle] at hv
  cases hv

/-! ### The whole course -/

theorem later_eq_nil {ws : List Worker} {now : Instant} {stop : Bool}
    (h : ∀ w ∈ staying ws now stop, w.wake now = none) :
    (arrivals stop ws now).filter (now < ·.instant) = [] := by
  refine List.filter_eq_nil_iff.mpr fun a ha hlt => ?_
  obtain ⟨w, hw, hfate⟩ := List.mem_filterMap.mp ha
  cases hr : (w.respond now stop).2 with
  | ended r =>
    rw [Worker.fate_ended hr] at hfate
    cases hfate
    simp at hlt
  | going w' =>
    rw [Worker.fate_idle hr (h w' (mem_staying.mpr ⟨w, hw, hr⟩))] at hfate
    cases hfate

/-- Played from here on, the race does what can be foretold. -/
def Fulfils (r : Race) (b : Bench) (count : Nat) (as : List Arrival) : Prop :=
  ∀ seen, ∃ record looked, Timeline.play none b seen r = some record ∧
    Foretold count as looked record.result ∧
    RaceEvent.results record.events =
      RaceEvent.results seen.reverse ++ looked.map (·.result)

/-- A race that stays undecided now does what can be foretold from the later arrivals, if it does so
when an engine wakes. -/
theorem play_later {r r' : Race} {b b' : Bench} {events : List RaceEvent} {ws : List Worker}
    (seen : List RaceEvent) (hp : r.proceed b false = (b', events, r')) (hu : Undecided r')
    (hr : r'.running = staying ws b.now false)
    (hnext : ∀ t, r'.wake b.now = some t → Fulfils r' { b' with now := t } r'.running.length
      ((arrivals false ws b.now).filter (b.now < ·.instant))) :
    ∃ record looked, Timeline.play none b seen r = some record ∧
      Foretold r'.running.length ((arrivals false ws b.now).filter (b.now < ·.instant)) looked
        record.result ∧
      RaceEvent.results record.events = RaceEvent.results seen.reverse ++
        (RaceEvent.results events ++ looked.map (·.result)) := by
  obtain ⟨hover, hidle, hgoing⟩ := play_proceed seen hp
  cases hw : r'.wake b.now with
  | none =>
    rw [later_eq_nil (hr ▸ wake_eq_none hw)]
    have hforetold := Foretold.nobody r'.running.length
    cases ho : r'.isOver with
    | true =>
      have hnil : r'.running = [] := by
        simp only [isOver, Bool.and_eq_true, List.isEmpty_iff] at ho
        exact ho.1
      refine ⟨_, [], hover ho, ?_, by simp⟩
      simpa [hnil, outcome, Exchange.outcome, hu.winner] using hforetold
    | false =>
      have hlength : 0 ≠ r'.running.length := by
        intro hzero
        have hnil : r'.running = [] := List.eq_nil_of_length_eq_zero hzero.symm
        simp [isOver, hnil, hu.held] at ho
      refine ⟨_, [], hidle ho hw, ?_, by simp⟩
      simpa [hlength] using hforetold
  | some t =>
    have ho : r'.isOver = false := by
      obtain ⟨_, ⟨w, hmem, _⟩, _⟩ := wake_eq_some hw
      cases hrun : r'.running with
      | nil => rw [hrun] at hmem; cases hmem
      | cons => simp [isOver, hrun]
    obtain ⟨record, looked, hplay, hforetold, hresults⟩ := hnext t hw (events.reverse ++ seen)
    refine ⟨record, looked, (hgoing t ho hw).trans hplay, hforetold, ?_⟩
    rw [hresults]
    simp

theorem perm_now_later (as : List Arrival) (now : Instant) :
    as.Perm (as.filter (·.instant ≤ now) ++ as.filter (now < ·.instant)) := by
  have hlater : as.filter (now < ·.instant) = as.filter fun a => !decide (a.instant ≤ now) := by
    refine List.filter_congr fun a _ => ?_
    rw [← decide_not]
    exact decide_eq_decide.mpr Int.not_le.symm
  rw [hlater]
  exact (List.filter_append_perm _ as).symm

/-- A race whose arrivals are staggered does what can be foretold from them. -/
theorem play_undecided {r : Race} {b : Bench} (h : Undecided r)
    (hs : ∀ w ∈ r.running, w.activity.Sound)
    (hst : Staggered (arrivals false r.running b.now)) :
    Fulfils r b r.running.length (arrivals false r.running b.now) := by
  -- Each time the clock stops an engine wakes, so the engines have ever fewer turns left.
  induction hn : turns false r.running b.now using Nat.strongRecOn generalizing r b with
  | ind n ih =>
  intro seen
  have hle : ∀ a ∈ arrivals false r.running b.now, b.now ≤ a.instant := fun a => le_arrivals
  have hnext : ∀ {r' : Race} {b' : Bench}, Undecided r' → r'.running = staying r.running b.now false →
      Staggered ((arrivals false r.running b.now).filter (b.now < ·.instant)) →
      ∀ t, r'.wake b.now = some t → Fulfils r' { b' with now := t } r'.running.length
        ((arrivals false r.running b.now).filter (b.now < ·.instant)) := by
    intro r' b' hu hr hlater t ht
    obtain ⟨hlt, hwakes, hfirst⟩ := wake_eq_some ht
    rw [hr] at hwakes hfirst
    have hturns := (turns_staying hlt hfirst).2 hwakes
    rw [← arrivals_staying hlt hfirst, ← hr] at hlater ⊢
    rw [← hr, hn] at hturns
    exact ih _ hturns (b := { b' with now := t }) hu (hr ▸ sound_staying hs) hlater rfl
  have hmem : ∀ c ∈ arrivals false r.running b.now, c.instant ≤ b.now →
      c ∈ (arrivals false r.running b.now).filter (·.instant ≤ b.now) := fun c hc hcnow =>
    List.mem_filter.mpr ⟨hc, decide_eq_true hcnow⟩
  have hperm := perm_now_later (arrivals false r.running b.now) b.now
  have hreturning := returning_eq false r.running b.now
  have hlength := length_staying r.running b.now false
  rcases hst.now hle with hnow | ⟨a, hnow⟩
  · rw [hnow] at hperm hreturning
    obtain ⟨b', events, r', hp, hresults, hu, hr⟩ := h.proceed_quiet hreturning
    have hlater := hst.later fun c hc hcnow => by
      have hc' := hmem c hc hcnow
      rw [hnow] at hc'
      cases hc'
    obtain ⟨record, looked, hplay, hforetold, hevents⟩ :=
      play_later seen hp hu hr (hnext hu hr hlater)
    refine ⟨record, looked, hplay, ?_, ?_⟩
    · rw [hreturning, List.map_nil, List.length_nil, Nat.add_zero, ← hr] at hlength
      exact hlength ▸ hforetold.of_perm hperm
    · rw [hevents, hresults, List.nil_append]
  · rw [hnow] at hperm hreturning
    have hfirst : ∀ c ∈ (arrivals false r.running b.now).filter (b.now < ·.instant),
        a.instant < c.instant := by
      intro c hc
      have ha : a ∈ (arrivals false r.running b.now).filter (·.instant ≤ b.now) := by simp [hnow]
      exact Int.lt_of_le_of_lt (of_decide_eq_true (List.mem_filter.mp ha).2)
        (of_decide_eq_true (List.mem_filter.mp hc).2)
    cases hv : a.result.verdict.conclusive with
    | true =>
      obtain ⟨b', events, r', hp, hresults, hd, hr⟩ := h.proceed_conclusive hreturning hv
      obtain ⟨record, hplay, hresult, hevents⟩ :=
        play_decided seen hp hd hr (sound_staying hs)
      refine ⟨record, [a], hplay, ?_, ?_⟩
      · rw [hresult]
        exact (Foretold.decided _ hv hfirst).of_perm hperm
      · rw [hevents, hresults]
        rfl
    | false =>
      obtain ⟨b', events, r', hp, hresults, hu, hr⟩ := h.proceed_inconclusive hreturning hv
      have hlater := hst.later fun c hc hcnow => by
        have hc' := hmem c hc hcnow
        rw [hnow] at hc'
        exact List.mem_singleton.mp hc' ▸ hv
      obtain ⟨record, looked, hplay, hforetold, hevents⟩ :=
        play_later seen hp hu hr (hnext hu hr hlater)
      refine ⟨record, a :: looked, hplay, ?_, ?_⟩
      · rw [hreturning, List.map_singleton, List.length_singleton, ← hr] at hlength
        exact hlength ▸ (hforetold.cons hv hfirst).of_perm hperm
      · rw [hevents, hresults]
        rfl

end Regatta.Race
