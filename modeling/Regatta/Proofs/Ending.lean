import Mathlib.Data.List.TakeWhile
import Regatta.Proofs.Calls

/-! What is sure to end.

A call that has its end in sight is over from some time on, and so is everything that waits for such
calls only. Whatever the tool's calls have and keep as they go on (`Upholds`) every call in progress
has, in a race (`Vital`) and in a verification; and a race keeps room for the results that are still
to come, so that it never waits for anything but its engines. -/
namespace Regatta

theorem Instant.exists_all {α : Type} {P : α → Instant → Prop} {xs : List α}
    (h : ∀ x ∈ xs, ∃ t, ∀ now, t ≤ now → P x now) : ∃ t, ∀ now, t ≤ now → ∀ x ∈ xs, P x now := by
  induction xs with
  | nil => exact ⟨0, fun _ _ x hx => absurd hx List.not_mem_nil⟩
  | cons x rest ih =>
    obtain ⟨s, hs⟩ := h x (List.mem_cons_self ..)
    obtain ⟨t, ht⟩ := ih fun y hy => h y (List.mem_cons_of_mem _ hy)
    refine ⟨max s t, fun now hnow y hy => ?_⟩
    rcases List.mem_cons.mp hy with rfl | hy
    · exact hs now (Int.le_trans (Int.le_max_left ..) hnow)
    · exact ht now (Int.le_trans (Int.le_max_right ..) hnow) y hy

namespace Activity

/-- The end of the call is in sight. -/
def Finite (a : Activity) : Prop := a.finish.isSome = true

variable {a a' : Activity} {now : Instant}

theorem Finite.ends (h : a.Finite) :
    ∃ t, ∀ now, t ≤ now → ∀ stop, ∃ lines r, a.advance now stop = (lines, .ended r) := by
  obtain ⟨f, hf⟩ := Option.isSome_iff_exists.mp h
  have hline : ∀ line ∈ a.pending, ∃ t : Instant, ∀ now, t ≤ now → line.1 ≤ now :=
    fun line _ => ⟨line.1, fun _ h => h⟩
  obtain ⟨s, hs⟩ := Instant.exists_all hline
  refine ⟨max s f, fun now hnow stop => ?_⟩
  have hlines : ∀ line ∈ a.pending, decide (line.1 ≤ now) = true := fun line hline =>
    decide_eq_true (hs now (Int.le_trans (Int.le_max_left ..) hnow) line hline)
  have hfinish : f ≤ now := Int.le_trans (Int.le_max_right ..) hnow
  have hrest : a.pending.dropWhile (fun line => decide (line.1 ≤ now)) = [] :=
    List.dropWhile_eq_nil_iff.mpr hlines
  have hproceed : (a.proceed now).2 = .ended ⟨a.ending, a.closing⟩ := by
    unfold proceed
    dsimp only
    rw [hrest, hf, if_pos (by simpa using hfinish)]
  unfold advance
  cases hp : a.proceed now with
  | mk lines p =>
  rw [hp] at hproceed
  cases hproceed
  exact ⟨lines, _, rfl⟩

theorem Finite.wakes (h : a.Finite) : ∃ t, a.wake = some t := by
  unfold wake
  split
  · exact ⟨_, rfl⟩
  · exact Option.isSome_iff_exists.mp h

theorem Finite.halt (h : a.Finite) (now : Instant) : (a.halt now).Finite := by
  unfold Activity.halt
  split
  · exact h
  · rfl

theorem Finite.going {stop : Bool} (h : a.Finite)
    (hgoing : (a.advance now stop).2 = .going a') : a'.Finite := by
  unfold advance at hgoing
  split at hgoing
  · cases hgoing
  · rename_i lines a₁ hproceed
    have hfirst : a₁.Finite := by
      unfold Finite
      rw [(proceed_going hproceed).finish]
      exact h
    cases stop with
    | false =>
      cases hgoing
      exact hfirst
    | true =>
      simp only [if_true] at hgoing
      have hsecond :=
        proceed_going (Prod.ext rfl hgoing : (a₁.halt now).proceed now = (_, .going a'))
      unfold Finite
      rw [hsecond.finish]
      exact hfirst.halt now

theorem Sound.finite (h : a.Sound) (hgoing : (a.advance now true).2 = .going a') : a'.Finite :=
  (advance_going hgoing).sound h ((advance_going hgoing).told rfl)

end Activity

/-- The tool's calls have `P` from the start, and calls keep it as they go on. -/
structure Tool.Upholds (tool : Tool) (P : Activity → Prop) : Prop where
  start : ∀ history files i now, P (.start (tool history files i) now)
  going : ∀ a now stop a', P a → (a.advance now stop).2 = .going a' → P a'

theorem Tool.upholds_sound (tool : Tool) : tool.Upholds Activity.Sound where
  start _ _ _ _ := Activity.start_sound _ _
  going _ _ _ _ h hgoing := (Activity.advance_going hgoing).sound h

theorem Tool.upholds_true (tool : Tool) : tool.Upholds fun _ => True where
  start _ _ _ _ := trivial
  going _ _ _ _ _ _ := trivial

/-- Whether every call of the tool ends by itself. -/
def Tool.Ends (tool : Tool) : Prop :=
  ∀ history files i, (tool history files i).length.isSome = true

theorem Tool.Ends.upholds {tool : Tool} (h : tool.Ends) : tool.Upholds Activity.Finite where
  start history files i now := by
    unfold Activity.Finite Activity.start
    rw [Option.isSome_map]
    exact h history files i
  going _ _ _ _ h hgoing := h.going hgoing

namespace Exchange

theorem receiveUpTo_frame (count : Nat) (x : Exchange) :
    (x.receiveUpTo count).2.isOpen = x.isOpen ∧ (x.receiveUpTo count).2.room = x.room ∧
      (x.receiveUpTo count).2.queue.length ≤ x.queue.length := by
  induction count generalizing x with
  | zero => exact ⟨rfl, rfl, Nat.le_refl _⟩
  | succ count ih =>
    rw [receiveUpTo]
    split
    · exact ⟨rfl, rfl, Nat.le_refl _⟩
    · rename_i r x' hreceive
      obtain ⟨-, rest, hqueue, rfl⟩ := receive?_eq_some hreceive
      obtain ⟨hopen, hroom, hlength⟩ := ih (x.look r rest)
      refine ⟨hopen, hroom, Nat.le_trans hlength ?_⟩
      rw [hqueue]
      exact Nat.le_succ _

theorem receiveAll_frame (x : Exchange) :
    x.receiveAll.2.isOpen = x.isOpen ∧ x.receiveAll.2.room = x.room ∧
      x.receiveAll.2.queue.length ≤ x.queue.length :=
  x.receiveUpTo_frame x.queue.length

end Exchange

namespace Race

theorem advance_going {r r' : Race} {b b' : Bench} {stop : Bool} {events : List RaceEvent}
    (h : r.advance b stop = (b', events, .going r')) :
    r' = (r.proceed b stop).2.2 ∧ r'.isOver = false := by
  unfold advance at h
  dsimp only at h
  split at h
  · cases h
  · rename_i hover
    cases h
    exact ⟨rfl, Bool.eq_false_iff.mpr hover⟩

variable {P : Activity → Prop} {tool : Tool}

/-- The calls of a race all have `P`, and there is room for the results that are still to come. -/
structure Vital (P : Activity → Prop) (r : Race) : Prop where
  held : r.held = []
  isOpen : r.exchange.isOpen = true
  room : r.exchange.queue.length + r.running.length ≤ r.exchange.room
  calls : ∀ w ∈ r.running, P w.activity

variable {b b' : Bench} {events : List RaceEvent} {r r' : Race}

theorem vital_start (h : b.tool.Upholds P) {id circuit : Text} {budget : Duration}
    {engines : List Engine}
    (hstart : start b id circuit budget engines = (b', .going r)) : r.Vital P := by
  unfold start at hstart
  split at hstart
  · cases hstart
  · cases hstart
    refine ⟨rfl, rfl, ?_, forall_startWorkers (fun b' htool _ e => ?_) engines⟩
    · have hlength := congrArg List.length (engines_start b id circuit budget engines)
      rw [List.length_map] at hlength
      exact Nat.le_of_eq ((Nat.zero_add _).trans hlength)
    · exact (htool ▸ h).start _ _ _ _

namespace Vital
variable (h : r.Vital P)
include h

theorem sent (now : Instant) (stop : Bool) :
    r.sent now stop = ({ r.exchange with
      queue := r.exchange.queue ++ returning r.running now (r.orders stop) }, []) := by
  have hcount := length_staying r.running now (r.orders stop)
  have hroom := h.room
  unfold Race.sent
  rw [h.held, List.nil_append]
  exact Exchange.sendAll_of_room _ h.isOpen (by omega)

theorem step_of {Q : Activity → Prop} (b : Bench) (stop : Bool)
    (hgoing : ∀ a stop' a', P a → (stop = true → stop' = true) →
      (a.advance b.now stop').2 = .going a' → Q a') : (r.step b stop).2.2.Vital Q := by
  have hcount := length_staying r.running b.now (r.orders stop)
  have hroom := h.room
  obtain ⟨hopen, hsame, hlength⟩ := Exchange.receiveAll_frame { r.exchange with
    queue := r.exchange.queue ++ returning r.running b.now (r.orders stop) }
  dsimp only at hopen hsame hlength
  rw [List.length_append] at hlength
  rw [(r.step_spec b stop).2.2, h.sent b.now stop]
  refine ⟨rfl, hopen.trans h.isOpen, ?_, ?_⟩
  · dsimp only
    omega
  · intro v hv
    obtain ⟨w, hw, hrespond⟩ := mem_staying.mp hv
    refine hgoing _ _ _ (h.calls w hw) (fun hstop => ?_) (Worker.respond_going hrespond).1
    simp [orders, hstop]

theorem step (hP : tool.Upholds P) (b : Bench) (stop : Bool) : (r.step b stop).2.2.Vital P :=
  h.step_of b stop fun a stop' a' ha _ => hP.going a b.now stop' a' ha

theorem proceed (hP : tool.Upholds P) (b : Bench) (stop : Bool) :
    (r.proceed b stop).2.2.Vital P := by
  unfold Race.proceed
  dsimp only
  split
  · exact (h.step hP b stop).step hP _ stop
  · exact h.step hP b stop

theorem advance (hP : tool.Upholds P) {stop : Bool}
    (hadvance : r.advance b stop = (b', events, .going r')) : r'.Vital P := by
  rw [(advance_going hadvance).1]
  exact h.proceed hP b stop

theorem running_ne_nil (hP : tool.Upholds P) {stop : Bool}
    (hadvance : r.advance b stop = (b', events, .going r')) : r'.running ≠ [] := by
  have hover := (advance_going hadvance).2
  intro hnil
  rw [isOver, hnil, (h.advance hP hadvance).held] at hover
  cases hover

end Vital

/-- The engines of a race that goes on although it is told to stop have their ends in sight. -/
theorem Vital.finite (h : r.Vital Activity.Sound)
    (hadvance : r.advance b true = (b', events, .going r')) :
    r'.Vital Activity.Finite := by
  have htold : ∀ (s : Race) (b : Bench), s.Vital Activity.Sound →
      (s.step b true).2.2.Vital Activity.Finite := by
    refine fun s b hs => hs.step_of b true fun a stop' a' ha hstop hgoing => ?_
    cases hstop rfl
    exact ha.finite hgoing
  rw [(advance_going hadvance).1]
  unfold Race.proceed
  dsimp only
  split
  · exact htold _ _ (h.step b.tool.upholds_sound b true)
  · exact htold r b h

theorem Vital.ends (h : r.Vital Activity.Finite) :
    ∃ t, ∀ b : Bench, t ≤ b.now → ∀ stop, ∃ b' events o,
      r.advance b stop = (b', events, .ended o) := by
  obtain ⟨t, ht⟩ := Instant.exists_all fun w hw => (h.calls w hw).ends
  refine ⟨t, fun b hb stop => ?_⟩
  -- all engines return in the first step, so none is there to go on after it
  have hdone : r.Vital fun a => ∀ stop, ∃ lines x, a.advance b.now stop = (lines, .ended x) :=
    ⟨h.held, h.isOpen, h.room, ht b.now hb⟩
  have hfirst : (r.step b stop).2.2.Vital fun _ => False := by
    refine hdone.step_of b stop fun a stop' a' ha _ hgoing => ?_
    obtain ⟨lines, x, hended⟩ := ha stop'
    rw [hended] at hgoing
    cases hgoing
  have hproceed : (r.proceed b stop).2.2.Vital fun _ => False := by
    unfold Race.proceed
    dsimp only
    split
    · exact hfirst.step_of _ stop fun _ _ _ hfalse _ _ => hfalse
    · exact hfirst
  have hover : (r.proceed b stop).2.2.isOver = true := by
    have hrunning : (r.proceed b stop).2.2.running = [] :=
      List.eq_nil_iff_forall_not_mem.mpr hproceed.calls
    simp [isOver, hrunning, hproceed.held]
  unfold Race.advance
  dsimp only
  rw [if_pos hover]
  exact ⟨_, _, _, rfl⟩

end Race

namespace Verification

variable {P : Activity → Prop}

/-- The calls of a verification all have `P`. -/
def Vital (P : Activity → Prop) (v : Verification) : Prop :=
  match v.phase with
  | .transforming _ _ _ _ a => P a
  | .racing race => race.Vital P
  | .raced _ => True

variable {b : Bench} {v : Verification}

theorem vital_startRace (h : b.tool.Upholds P) (r : Request) (circuit : Text)
    (budget : Duration) (scratch : Option Text) :
    Vital P ⟨r, budget, scratch, (startRace b r circuit).2⟩ := by
  unfold startRace
  split
  · rename_i hstart
    exact Race.vital_start h hstart
  · trivial

theorem vital_resume (h : b.tool.Upholds P) (v : Verification) (source : Text)
    (stages : List Stage) : (v.resume b source stages).2.Vital P := by
  cases stages with
  | nil => exact vital_startRace h _ _ _ _
  | cons s rest => exact h.start _ _ _ _

theorem vital_start (h : b.tool.Upholds P) (o : Options) (r : Request) :
    (start b o r).2.Holds (Vital P) (fun _ => True) := by
  have hbegins := begins b o r
  generalize start b o r = x at hbegins ⊢
  cases hbegins with
  | refused => trivial
  | resumes hworks =>
    rw [← hworks.makes.tool] at h
    exact vital_resume h _ _ _

/-- What the calls have they keep in a step, and the calls that are made have it from the start. -/
theorem Vital.step (h : v.Vital P) (hP : b.tool.Upholds P)
    (stop : Bool) : (v.step b stop).2.2.Holds (Vital P) (fun _ => True) := by
  unfold Vital at h
  have hdoes := v.does b stop
  generalize v.step b stop = x at hdoes ⊢
  cases hdoes with
  | @races race _ _ p hphase hadvance =>
    rw [hphase] at h
    cases p with
    | going race' => exact Race.Vital.advance h hP hadvance
    | ended result => trivial
  | closes | fails => trivial
  | waits hphase ha =>
    rw [hphase] at h
    exact hP.going _ _ _ _ h (congrArg Prod.snd ha)
  | resumes _ _ hworks =>
    rw [← hworks.makes.tool] at hP
    exact vital_resume hP v _ _

theorem Vital.halts (h : v.Vital Activity.Sound) (b : Bench) :
    (v.step b true).2.2.Holds (Vital Activity.Finite) (fun _ => True) := by
  unfold Vital at h
  have hdoes := v.does b true
  generalize v.step b true = x at hdoes ⊢
  cases hdoes with
  | @races race _ _ p hphase hadvance =>
    rw [hphase] at h
    cases p with
    | going race' => exact Race.Vital.finite h hadvance
    | ended result => trivial
  | closes | fails => trivial
  | waits hphase ha =>
    rw [hphase] at h
    exact Activity.Sound.finite h (congrArg Prod.snd ha)
  | resumes _ _ _ _ hstop => cases hstop

/-- Told to stop, a verification with all its ends in sight waits for no call from some time on. -/
theorem Vital.ends (h : v.Vital Activity.Finite) :
    ∃ t, ∀ b : Bench, t ≤ b.now →
      (v.step b true).2.2.Holds (fun v' => ∃ x, v'.phase = .raced x) (fun _ => True) := by
  unfold Vital at h
  cases hphase : v.phase with
  | racing race =>
    rw [hphase] at h
    obtain ⟨t, ht⟩ := Race.Vital.ends h
    refine ⟨t, fun b hb => ?_⟩
    obtain ⟨b', events, o, hadvance⟩ := ht b hb true
    unfold Verification.step
    rw [hphase]
    dsimp only
    rw [hadvance]
    exact ⟨o, rfl⟩
  | raced result =>
    refine ⟨0, fun b _ => ?_⟩
    unfold Verification.step
    rw [hphase]
    trivial
  | transforming s rest target deadline a =>
    rw [hphase] at h
    obtain ⟨t, ht⟩ := Activity.Finite.ends h
    refine ⟨t, fun b hb => ?_⟩
    obtain ⟨lines, x, hended⟩ := ht b.now hb (true || b.passed deadline)
    have hdoes := v.does b true
    generalize v.step b true = y at hdoes ⊢
    cases hdoes with
    | closes | fails => trivial
    | waits hwaits ha =>
      cases hphase.symm.trans hwaits
      cases ha.symm.trans hended
    | resumes _ _ _ _ hstop => cases hstop
    | races hraces => cases hphase.symm.trans hraces

end Verification
end Regatta
