import Regatta.Proofs.Log.Feed

/-! What reaches a listener.

One who joins a run first gets the newest of the lines that were published before, as many as a topic
remembers, and then every line that is published while it listens and has room. `arrivals` are the
latter: whether there is room depends on what was read up to that moment. Lines are neither repeated
nor reordered, a run that was closed has nothing more to say, and what happens to other runs makes no
difference (`delivery`). -/
namespace Regatta

/-- The line that is published by an act. -/
def Audience.Act.line? : Audience.Act → Option Text
  | .publish line => some line
  | _ => none

theorem Channel.drain_waiting (c : Channel) (limit : Option Nat) :
    (c.drain limit).1 ++ (c.drain limit).2.2.waiting = c.waiting := by
  cases limit <;> simp [drain]

namespace Guest

theorem received_next (i : Nat) (g : Guest) (act : Audience.Act) :
    (g.next i act).received = g.received ++
      if g.listens = true ∧ g.channel.waiting.length < backlog then act.line?.toList else [] := by
  cases act with
  | subscribe => simp [next, Audience.Act.line?]
  | publish line =>
    cases hlistens : g.listens with
    | false => simp [next, offered, hlistens]
    | true =>
      by_cases hroom : g.channel.waiting.length < backlog <;>
        simp [next, offered, Channel.offer, received, Audience.Act.line?, hlistens, hroom]
  | close => cases hlistens : g.listens <;> simp [next, released, received, hlistens, Audience.Act.line?]
  | unsubscribe j => by_cases hj : j = i <;> simp [next, leaves, received, hj, Audience.Act.line?]
  | read j limit =>
    by_cases hj : j = i <;>
      simp [next, reads, received, hj, Channel.drain_waiting, Audience.Act.line?]

/-- All that is done about a run, to the `i`th who joined. -/
def run (i : Nat) (g : Guest) : List Audience.Act → Guest
  | [] => g
  | act :: rest => (g.next i act).run i rest

theorem run_late (i : Nat) (acts : List Audience.Act) :
    run i ⟨[], ⟨[], false⟩, false⟩ acts = ⟨[], ⟨[], false⟩, false⟩ := by
  have hstep : ∀ act, next i ⟨[], ⟨[], false⟩, false⟩ act = ⟨[], ⟨[], false⟩, false⟩ := by
    intro act
    cases act with
    | read j limit => cases limit <;> simp [next, reads, Channel.drain]
    | _ => simp [next, offered, released, leaves]
  induction acts with
  | nil => rfl
  | cons act rest ih => rw [run, hstep, ih]

end Guest

/-- The lines that a topic still remembers when these were published. -/
def newest (lines : List Text) : List Text := lines.drop (lines.length - backlog)

theorem newest_concat (lines : List Text) (line : Text) : newest (lines ++ [line]) =
    (if (newest lines).length == backlog then (newest lines).drop 1 else newest lines) ++ [line] := by
  have hpos : 0 < backlog := by decide
  unfold newest
  by_cases hfull : backlog ≤ lines.length
  · have hlength : (lines.drop (lines.length - backlog)).length = backlog := by
      simp
      omega
    have hone : (lines ++ [line]).length - backlog = lines.length - backlog + 1 := by
      simp
      omega
    rw [if_pos (beq_iff_eq.mpr hlength), hone, List.drop_drop,
      List.drop_append_of_le_length (by omega)]
  · have hlength : (lines.drop (lines.length - backlog)).length ≠ backlog := by
      simp
      omega
    have hnone : (lines ++ [line]).length - backlog = 0 := by
      simp
      omega
    have hbefore : lines.length - backlog = 0 := by omega
    rw [if_neg (by simpa using hlength), hnone, hbefore]
    rfl

namespace Feed

def empty : Feed := ⟨[], false, []⟩

theorem sound_empty : empty.Sound :=
  ⟨Nat.zero_le _, fun _ => rfl, fun _ _ hg => absurd hg List.not_mem_nil,
    fun _ hg => absurd hg List.not_mem_nil⟩

theorem getElem?_guests_run {f : Feed} (h : f.Sound) {i : Nat} {g : Guest}
    (hg : f.guests[i]? = some g) (acts : List Audience.Act) :
    (f.run acts).guests[i]? = some (g.run i acts) := by
  induction acts generalizing f g with
  | nil => exact hg
  | cons act rest ih => exact ih (h.next act) (getElem?_guests_next h hg act)

theorem closed_next (f : Feed) (act : Audience.Act) :
    (f.next act).closed = true ↔ f.closed = true ∨ act = .close := by
  cases act with
  | publish line => cases h : f.closed <;> simp [next, h]
  | _ => simp [next]

/-- A run is closed for ever. -/
theorem closed_run (f : Feed) (acts : List Audience.Act) :
    (f.run acts).closed = true ↔ f.closed = true ∨ .close ∈ acts := by
  induction acts generalizing f with
  | nil => simp [run]
  | cons act rest ih => rw [run, ih, closed_next, List.mem_cons, or_assoc, @eq_comm _ act]

theorem recent_run {f : Feed} (hopen : f.closed = false) {lines : List Text}
    (hrecent : f.recent = newest lines) {acts : List Audience.Act} (hnever : .close ∉ acts) :
    (f.run acts).recent = newest (lines ++ acts.filterMap Audience.Act.line?) := by
  induction acts generalizing f lines with
  | nil => simpa [run] using hrecent
  | cons act rest ih =>
    obtain ⟨hact, hrest⟩ := not_or.mp (mt List.mem_cons.mpr hnever)
    have hopen' : (f.next act).closed = false := by
      refine Bool.eq_false_iff.mpr fun hclosed => ?_
      rcases (closed_next f act).mp hclosed with hwas | rfl
      · rw [hopen] at hwas
        exact Bool.false_ne_true hwas
      · exact hact rfl
    cases act with
    | publish line =>
      have hnext : (f.next (.publish line)).recent = newest (lines ++ [line]) := by
        simp [next, hopen, hrecent, newest_concat]
      rw [run, ih hopen' hnext hrest, List.append_assoc]
      rfl
    | close => exact absurd rfl hact
    | _ => exact ih hopen' hrecent hrest

end Feed

namespace Audience

/-- The lines published for a run. -/
def published (id : Text) (ops : List Operation) : List Text :=
  (actsOn id ops).filterMap Act.line?

def waiting (a : Audience) (id : Text) (i : Nat) : List Text :=
  ((a.listeners id)[i]?.map fun l => (a.broker.channel l.subscription.channel).waiting).getD []

/-- The lines that come in for the `i`th who joined a run while it listens: those that are published
when it has room. -/
def arrivals (id : Text) (i : Nat) (a : Audience) : List Operation → List Text
  | [] => []
  | o :: rest =>
    if o = ⟨id, .close⟩ ∨ o = ⟨id, .unsubscribe i⟩ then []
    else (if o.run = id ∧ (a.waiting id i).length < backlog then o.act.line?.toList else []) ++
      arrivals id i (a.next o) rest

theorem feed_empty (id : Text) : empty.feed id = .empty := rfl

theorem mem_actsOn {id : Text} {ops : List Operation} {act : Act} :
    act ∈ actsOn id ops ↔ ⟨id, act⟩ ∈ ops := by
  simp only [actsOn, List.mem_map, List.mem_filter, beq_iff_eq]
  constructor
  · rintro ⟨o, ⟨ho, rfl⟩, rfl⟩
    exact ho
  · intro ho
    exact ⟨_, ⟨ho, rfl⟩, rfl⟩

variable {a : Audience} {g : Guest} {i : Nat}

theorem exists_listener {id : Text} (hg : (a.feed id).guests[i]? = some g) :
    ∃ l, (a.listeners id)[i]? = some l ∧ a.guest id l = g := by
  rwa [feed, List.getElem?_map, Option.map_eq_some_iff] at hg

theorem waiting_eq {id : Text}
    (hg : (a.feed id).guests[i]? = some g) : a.waiting id i = g.channel.waiting := by
  obtain ⟨l, hl, rfl⟩ := exists_listener hg
  simp [waiting, hl, guest]

theorem received_run (h : a.Placed) {id : Text} (hs : (a.feed id).Sound)
    (hg : (a.feed id).guests[i]? = some g) (ops : List Operation) :
    (g.run i (actsOn id ops)).received =
      g.received ++ if g.listens then arrivals id i a ops else [] := by
  induction ops generalizing a g with
  | nil => simp [actsOn, Guest.run, arrivals]
  | cons o rest ih =>
    obtain ⟨run, act⟩ := o
    by_cases hrun : run = id
    · subst hrun
      have hfeed : (a.next ⟨run, act⟩).feed run = (a.feed run).next act := by
        rw [feed_next h, if_pos rfl]
      have hcons : actsOn run (⟨run, act⟩ :: rest) = act :: actsOn run rest := by simp [actsOn]
      have hthen := ih (h.next ⟨run, act⟩) (hfeed ▸ hs.next act)
        (hfeed ▸ Feed.getElem?_guests_next hs hg act)
      rw [hcons, Guest.run, hthen, Guest.received_next, List.append_assoc]
      congr 1
      cases hlistens : g.listens with
      | false =>
        have hstill : ¬(g.next i act).listens = true := by simp [Guest.listens_next, hlistens]
        simp [hstill]
      | true =>
        by_cases hend : act = .close ∨ act = .unsubscribe i
        · have hstops : ¬(g.next i act).listens = true := by
            rw [Guest.listens_next]
            tauto
          rcases hend with rfl | rfl <;> simp [hstops, arrivals, Act.line?]
        · have hstays : (g.next i act).listens = true := by
            rw [Guest.listens_next]
            tauto
          simp [hstays, arrivals, waiting_eq hg, hend]
    · have hfeed : (a.next ⟨run, act⟩).feed id = a.feed id := by
        rw [feed_next h, if_neg hrun]
      have hcons : actsOn id (⟨run, act⟩ :: rest) = actsOn id rest := by simp [actsOn, hrun]
      rw [hcons, ih (h.next _) (hfeed ▸ hs) (hfeed ▸ hg)]
      simp [arrivals, hrun]

theorem handed_grows (a : Audience) (ops : List Operation) (id : Text) :
    a.handed id <+: (a.run ops).handed id := by
  have hstep : ∀ (a : Audience) (o : Operation), a.handed id <+: (a.next o).handed id := by
    intro a o
    obtain ⟨run, act⟩ := o
    cases act with
    | subscribe =>
      rw [next, handed_welcome]
      split
      · rename_i heq
        rw [heq]
        exact List.prefix_append _ _
      · exact List.prefix_rfl
    | publish line => exact List.prefix_rfl
    | close => exact List.prefix_rfl
    | unsubscribe i => cases hl : (a.listeners run)[i]? <;> simp [next, hl, handed]
    | read i limit =>
      cases hl : (a.listeners run)[i]? with
      | none => simp [next, hl]
      | some l => simp [next, hl, handed_read hl]
  induction ops generalizing a with
  | nil => exact List.prefix_rfl
  | cons o rest ih => exact (hstep a o).trans (ih (a.next o))

theorem guests_subscribe (h : a.Placed) {id : Text} :
    ((a.next ⟨id, .subscribe⟩).feed id).guests[(a.listeners id).length]? =
      some (a.feed id).newcomer := by
  rw [feed_subscribe h]
  simp [Feed.next, feed]

theorem exists_joined (h : a.Placed) {id : Text} (hs : (a.feed id).Sound) (ops : List Operation) :
    ∃ l, (((a.next ⟨id, .subscribe⟩).run ops).listeners id)[(a.listeners id).length]? = some l ∧
      l.subscription = (a.broker.subscribe id).2 ∧
      ((a.next ⟨id, .subscribe⟩).run ops).guest id l =
        (a.feed id).newcomer.run (a.listeners id).length (actsOn id ops) := by
  have hlater : (((a.next ⟨id, .subscribe⟩).run ops).feed id).guests[(a.listeners id).length]? =
      some ((a.feed id).newcomer.run (a.listeners id).length (actsOn id ops)) := by
    rw [feed_run (h.next _)]
    exact Feed.getElem?_guests_run (feed_subscribe h id ▸ hs.next .subscribe)
      (guests_subscribe h) _
  obtain ⟨l, hl, hguest⟩ := exists_listener hlater
  refine ⟨l, hl, ?_, hguest⟩
  have hhanded : ((a.next ⟨id, .subscribe⟩).handed id)[(a.listeners id).length]? =
      some (a.broker.subscribe id).2 := by
    rw [next, handed_welcome, if_pos rfl]
    simp [handed]
  obtain ⟨hlt, hget⟩ := List.getElem?_eq_some_iff.mp hhanded
  have hsame := List.prefix_iff_getElem?.mp (handed_grows (a.next ⟨id, .subscribe⟩) ops id) _ hlt
  simpa [handed, hl, ← hget] using hsame

section
variable (id : Text) (before : List Operation)

theorem sound_feed : ((empty.run before).feed id).Sound := by
  rw [feed_run placed_empty, feed_empty]
  exact Feed.sound_empty.run _

theorem closed_topic :
    ((empty.run before).broker.topic id).closed = true ↔ ⟨id, .close⟩ ∈ before := by
  show ((empty.run before).feed id).closed = true ↔ _
  rw [feed_run placed_empty, feed_empty, Feed.closed_run, mem_actsOn]
  simp [Feed.empty]

theorem recent_topic (hnever : ⟨id, .close⟩ ∉ before) :
    ((empty.run before).broker.topic id).recent = newest (published id before) := by
  show ((empty.run before).feed id).recent = _
  have hstart : Feed.empty.recent = newest [] := by simp [Feed.empty, newest]
  rw [feed_run placed_empty, feed_empty,
    Feed.recent_run rfl hstart (mt mem_actsOn.mp hnever), List.nil_append]
  rfl

theorem newcomer_feed : ((empty.run before).feed id).newcomer =
    if ⟨id, .close⟩ ∈ before then ⟨[], ⟨[], false⟩, false⟩
    else ⟨[], ⟨newest (published id before), true⟩, true⟩ := by
  by_cases hclose : ⟨id, .close⟩ ∈ before
  · rw [if_pos hclose, Feed.newcomer]
    exact if_pos ((closed_topic id before).mpr hclose)
  · rw [if_neg hclose, Feed.newcomer, ← recent_topic id before hclose]
    exact if_neg (mt (closed_topic id before).mp hclose)

theorem received_newcomer (later : List Operation) :
    (((empty.run before).feed id).newcomer.run ((empty.run before).listeners id).length
        (actsOn id later)).received =
      if ⟨id, .close⟩ ∈ before then []
      else newest (published id before) ++
        arrivals id ((empty.run before).listeners id).length
          ((empty.run before).next ⟨id, .subscribe⟩) later := by
  by_cases hclose : ⟨id, .close⟩ ∈ before
  · rw [newcomer_feed, if_pos hclose, if_pos hclose, Guest.run_late]
    rfl
  · have hplaced := placed_empty.run before
    rw [received_run (hplaced.next _) (feed_subscribe hplaced id ▸ (sound_feed id before).next _)
      (guests_subscribe hplaced), newcomer_feed, if_neg hclose, if_neg hclose]
    simp only [Guest.received, List.nil_append, if_true]

end

theorem published_append (id : Text) (before later : List Operation) :
    published id (before ++ later) = published id before ++ published id later := by
  simp [published, actsOn]

/-- Lines come in the order in which they are published. -/
theorem arrivals_sublist (id : Text) (i : Nat) (a : Audience) (ops : List Operation) :
    (arrivals id i a ops).Sublist (published id ops) := by
  induction ops generalizing a with
  | nil => exact List.Sublist.refl _
  | cons o rest ih =>
    have hcons : published id (o :: rest) =
        (if o.run = id then o.act.line?.toList else []) ++ published id rest := by
      by_cases hrun : o.run = id <;> simp [published, actsOn, hrun]
      cases hline : o.act.line? <;> simp [hline]
    rw [arrivals, hcons]
    split
    · exact List.nil_sublist _
    · refine List.Sublist.append ?_ (ih _)
      by_cases hrun : o.run = id
      · by_cases hroom : (a.waiting id i).length < backlog <;> simp [hrun, hroom]
      · simp [hrun]

theorem delivery (id : Text) (before later : List Operation) :
    let a := empty.run before
    let i := (a.listeners id).length
    let joined := a.next ⟨id, .subscribe⟩
    let after := joined.run later
    (∃ l, (after.listeners id)[i]? = some l ∧ l.subscription = (a.broker.subscribe id).2 ∧
      let c := after.broker.channel l.subscription.channel
      (l.heard ++ c.waiting = if ⟨id, .close⟩ ∈ before then []
        else newest (published id before) ++ joined.arrivals id i later) ∧
      (l.heard ++ c.waiting).Sublist (published id (before ++ later)) ∧
      (⟨id, .close⟩ ∈ before → l.heard = [] ∧ c = ⟨[], false⟩)) ∧
    (⟨id, .close⟩ ∈ before → ∀ line, a.next ⟨id, .publish line⟩ = a) ∧
    a.feed id = (empty.run (before.filter (·.run == id))).feed id := by
  intro a i joined after
  obtain ⟨l, hl, hsubscription, hguest⟩ :=
    exists_joined (placed_empty.run before) (sound_feed id before) later
  have hreceived := received_newcomer id before later
  rw [← hguest] at hreceived
  change (after.guest id l).received = _ at hreceived
  refine ⟨⟨l, hl, hsubscription, hreceived, ?_, fun hclose => ?_⟩, fun hclose line => ?_, ?_⟩
  · show (after.guest id l).received.Sublist _
    rw [hreceived, published_append]
    split
    · exact List.nil_sublist _
    · exact (List.drop_sublist _ _).append (arrivals_sublist id i joined later)
  · rw [newcomer_feed, if_pos hclose, Guest.run_late] at hguest
    exact ⟨congrArg Guest.heard hguest, congrArg Guest.channel hguest⟩
  · show ({ a with broker := a.broker.publish id line } : Audience) = a
    rw [Broker.publish_closed ((closed_topic id before).mpr hclose)]
  · rw [feed_run placed_empty, feed_run placed_empty]
    congr 1
    simp [actsOn]

end Audience
end Regatta
