import Regatta.Proofs.Log.Delivery

/-! Sending, one line at a time.

A broker fills a channel, offers a line or closes a channel in one go, and all of it while it is
locked. Here the same is done send by send, on channels with their own rules: to send on a full
channel is to wait for a reader, and to send on a closed channel or to close it again is to break
down. Neither ever happens, whatever is done in whatever order, and nobody loses its place through
anybody else (`operations_safe`). -/
namespace Regatta

/-- What can go wrong with a channel. -/
inductive Mishap where
  | blocked
  | broken
deriving DecidableEq

namespace Channel

def fresh : Channel := ⟨[], true⟩

def send (c : Channel) (line : Text) : Except Mishap Channel :=
  if c.isOpen then
    if c.waiting.length < backlog then .ok { c with waiting := c.waiting ++ [line] }
    else .error .blocked
  else .error .broken

/-- Sends a line, or drops it where `send` would wait. -/
def trySend (c : Channel) (line : Text) : Except Mishap Channel :=
  match c.send line with
  | .error .blocked => .ok c
  | result => result

def shut (c : Channel) : Except Mishap Channel :=
  if c.isOpen then .ok { c with isOpen := false } else .error .broken

theorem trySend_open {c : Channel} (h : c.isOpen = true) (line : Text) :
    c.trySend line = .ok (c.offer line) := by
  by_cases hroom : c.waiting.length < backlog <;> simp [trySend, send, offer, h, hroom]

theorem shut_open {c : Channel} (h : c.isOpen = true) :
    c.shut = .ok { c with isOpen := false } := if_pos h

/-- As many lines as a channel holds can be sent at once. -/
theorem foldlM_send {c : Channel} (h : c.isOpen = true) {lines : List Text}
    (hroom : c.waiting.length + lines.length ≤ backlog) :
    lines.foldlM send c = .ok { c with waiting := c.waiting ++ lines } := by
  induction lines generalizing c with
  | nil => simp [pure, Except.pure]
  | cons line rest ih =>
    rw [List.length_cons] at hroom
    have hsend : c.send line = .ok { c with waiting := c.waiting ++ [line] } := by
      simp [send, h, show c.waiting.length < backlog by omega]
    rw [List.foldlM_cons, hsend]
    have hrest := ih (c := { c with waiting := c.waiting ++ [line] }) h (by simp; omega)
    exact hrest.trans (by simp)

end Channel

namespace Broker

/-- Does something to each of these channels, until it goes wrong. -/
def each (f : Channel → Except Mishap Channel) : List (Nat × Nat) → Broker → Except Mishap Broker
  | [], b => .ok b
  | e :: rest, b => do
    let c ← f (b.channel e.2)
    each f rest (b.updateChannel e.2 fun _ => c)

def sendSubscribe (b : Broker) (run : Text) : Except Mishap (Broker × Subscription) := do
  let t := b.topic run
  let i := b.channels.size
  if t.closed then
    let c ← Channel.fresh.shut
    return ({ b with channels := b.channels.push c }, ⟨run, i, none⟩)
  else
    let c ← t.recent.foldlM Channel.send .fresh
    return (({ b with channels := b.channels.push c } : Broker).setTopic run
      { t with listeners := t.listeners ++ [(t.next, i)], next := t.next + 1 },
      ⟨run, i, some t.next⟩)

def sendPublish (b : Broker) (run line : Text) : Except Mishap Broker :=
  let t := b.topic run
  if t.closed then .ok b
  else each (·.trySend line) t.listeners (b.setTopic run (t.remember line))

def sendClose (b : Broker) (run : Text) : Except Mishap Broker := do
  let t := b.topic run
  let b ← each Channel.shut t.listeners b
  return b.setTopic run { t with closed := true, recent := [], listeners := [] }

theorem updateChannel_const (b : Broker) (i : Nat) (f : Channel → Channel) :
    (b.updateChannel i fun _ => f (b.channel i)) = b.updateChannel i f := by
  unfold updateChannel
  congr 1
  refine Array.ext (by simp) fun j hj _ => ?_
  by_cases h : i = j
  · subst h
    simp [Array.getElem_modify, channel, show i < b.channels.size by simpa using hj]
  · simp [Array.getElem_modify, h]

/-- Where it goes well for each channel, it goes well for all, as none comes twice. -/
theorem each_eq {f : Channel → Except Mishap Channel} {g : Channel → Channel} {b : Broker}
    {entries : List (Nat × Nat)} (hnodup : (entries.map (·.2)).Nodup)
    (hin : ∀ e ∈ entries, e.2 < b.channels.size)
    (hwell : ∀ e ∈ entries, f (b.channel e.2) = .ok (g (b.channel e.2))) :
    each f entries b = .ok (b.updateAll entries g) := by
  induction entries generalizing b with
  | nil => rfl
  | cons e rest ih =>
    obtain ⟨he, hrest⟩ := List.nodup_cons.mp hnodup
    have hlt := hin e (List.mem_cons_self ..)
    rw [each, hwell e (List.mem_cons_self ..)]
    show each f rest (b.updateChannel e.2 fun _ => g (b.channel e.2)) = _
    rw [updateChannel_const]
    refine ih hrest (fun x hx => ?_) fun x hx => ?_
    · simpa using hin x (List.mem_cons_of_mem _ hx)
    · have hne : x.2 ≠ e.2 := fun heq => he (List.mem_map.mpr ⟨x, hx, heq⟩)
      rw [channel_updateChannel hlt, if_neg hne]
      exact hwell x (List.mem_cons_of_mem _ hx)

end Broker

namespace Audience

/-- The same as `next`, send by send. -/
def perform (a : Audience) (o : Operation) : Except Mishap Audience :=
  match o.act with
  | .subscribe => do
    let joined ← a.broker.sendSubscribe o.run
    return a.welcome o.run joined
  | .publish line => do
    let broker ← a.broker.sendPublish o.run line
    return { a with broker }
  | .close => do
    let broker ← a.broker.sendClose o.run
    return { a with broker }
  | _ => .ok (a.next o)

def performAll (a : Audience) : List Operation → Except Mishap Audience
  | [] => .ok a
  | o :: rest => do
    let a ← a.perform o
    a.performAll rest

section
variable {a : Audience} (h : a.Placed)
include h

theorem exists_guest {id : Text} {e : Nat × Nat} (he : e ∈ (a.broker.topic id).listeners) :
    ∃ g ∈ (a.feed id).guests, g.listens = true ∧ g.channel = a.broker.channel e.2 := by
  obtain ⟨s, hs, -, hchannel⟩ := exists_handed ((h.entered id).mem he)
  obtain ⟨l, hl, rfl⟩ := List.mem_map.mp hs
  refine ⟨a.guest id l, List.mem_map_of_mem hl, ?_, congrArg a.broker.channel hchannel⟩
  have hserved : l.subscription.channel ∈ a.served id := hchannel ▸ List.mem_map_of_mem he
  simpa [guest] using hserved

/-- Only a listener itself gives up its place, unless the run is closed. -/
theorem leaves_place {id : Text} {e : Nat × Nat} (he : e ∈ (a.broker.topic id).listeners)
    {o : Operation} (hgone : e ∉ ((a.next o).broker.topic id).listeners) :
    o = ⟨id, .close⟩ ∨ ∃ i l, o = ⟨id, .unsubscribe i⟩ ∧ (a.listeners id)[i]? = some l ∧
      l.subscription.entry? = some e := by
  obtain ⟨run, act⟩ := o
  by_cases hrun : id = run
  · subst hrun
    cases act with
    | subscribe =>
      refine absurd ?_ hgone
      cases hclosed : (a.broker.topic id).closed with
      | true => simpa [next, welcome, Broker.subscribe_closed hclosed] using he
      | false =>
        simp [next, welcome, Broker.subscribe_open hclosed, Broker.topic_setTopic_self, he]
    | publish line =>
      refine absurd ?_ hgone
      cases hclosed : (a.broker.topic id).closed with
      | true => simpa [next, Broker.publish_closed hclosed] using he
      | false =>
        simpa [next, Broker.publish_open hclosed, Broker.topic_setTopic_self, Topic.remember]
          using he
    | close => exact .inl rfl
    | unsubscribe i =>
      cases hl : (a.listeners id)[i]? with
      | none => exact absurd (by simpa [next, hl] using he) hgone
      | some l =>
        have hhanded : l.subscription ∈ a.handed id :=
          List.mem_map_of_mem (List.mem_of_getElem? hl)
        simp only [next, hl] at hgone
        cases hn : l.subscription.number with
        | none => exact absurd (by simpa [Broker.unsubscribe_unplaced hn] using he) hgone
        | some n =>
          have hnumber : e.1 = n := by
            by_contra hne
            rw [Broker.unsubscribe_placed hn, (h.own id _ hhanded).1, Broker.topic_setTopic_self]
              at hgone
            exact hgone (List.mem_filter.mpr ⟨he, bne_iff_ne.mpr hne⟩)
          refine .inr ⟨i, l, rfl, hl, ?_⟩
          rw [h.eq_entry hhanded hn he hnumber, Subscription.entry?, hn]
          rfl
    | read i limit =>
      refine absurd ?_ hgone
      cases hl : (a.listeners id)[i]? with
      | none => simpa [next, hl] using he
      | some l => simpa [next, hl, broker_read] using he
  · rw [h.topic_next_other hrun] at hgone
    exact absurd he hgone

variable (hs : ∀ id, (a.feed id).Sound)
include hs

theorem isOpen_served {id : Text} {e : Nat × Nat} (he : e ∈ (a.broker.topic id).listeners) :
    (a.broker.channel e.2).isOpen = true := by
  obtain ⟨g, hg, hlistens, hchannel⟩ := exists_guest h he
  rw [← hchannel]
  exact ((hs id).guests g hg).isOpen hlistens

theorem perform_eq (o : Operation) : a.perform o = .ok (a.next o) := by
  obtain ⟨id, act⟩ := o
  cases act with
  | subscribe =>
    have hsubscribe : a.broker.sendSubscribe id = .ok (a.broker.subscribe id) := by
      cases hclosed : (a.broker.topic id).closed with
      | true =>
        rw [Broker.subscribe_closed hclosed]
        simp [Broker.sendSubscribe, hclosed, Channel.fresh, Channel.shut, bind, Except.bind, pure,
          Except.pure]
      | false =>
        have hrecent : (a.broker.topic id).recent.length ≤ backlog := (hs id).recent
        have hreplay := Channel.foldlM_send (c := .fresh) rfl (by simpa [Channel.fresh] using hrecent)
        rw [Broker.subscribe_open hclosed]
        simp only [Broker.sendSubscribe, hclosed, hreplay]
        rfl
    show (do let joined ← a.broker.sendSubscribe id; pure (a.welcome id joined)) = _
    rw [hsubscribe]
    rfl
  | publish line =>
    have hpublish : a.broker.sendPublish id line = .ok (a.broker.publish id line) := by
      cases hclosed : (a.broker.topic id).closed with
      | true => simp [Broker.sendPublish, Broker.publish_closed, hclosed]
      | false =>
        rw [Broker.publish_open hclosed]
        simp only [Broker.sendPublish, hclosed]
        exact Broker.each_eq (h.nodup_served id) (h.served_lt id) fun e he =>
          Channel.trySend_open (isOpen_served h hs he) line
    show (do let broker ← a.broker.sendPublish id line; pure { a with broker }) = _
    rw [hpublish]
    rfl
  | close =>
    have hclose : a.broker.sendClose id = .ok (a.broker.close id) := by
      have heach := Broker.each_eq (f := Channel.shut) (g := ({ · with isOpen := false }))
        (h.nodup_served id) (h.served_lt id) fun e he => Channel.shut_open (isOpen_served h hs he)
      simp only [Broker.sendClose, heach]
      rfl
    show (do let broker ← a.broker.sendClose id; pure { a with broker }) = _
    rw [hclose]
    rfl
  | unsubscribe i => rfl
  | read i limit => rfl

theorem performAll_eq (ops : List Operation) : a.performAll ops = .ok (a.run ops) := by
  induction ops generalizing a with
  | nil => rfl
  | cons o rest ih =>
    rw [performAll, perform_eq h hs o]
    refine ih (h.next o) fun id => ?_
    rw [feed_next h]
    split
    · exact (hs id).next o.act
    · exact hs id

end

def numbers (a : Audience) (id : Text) : List Nat := (a.handed id).filterMap (·.number)

theorem Placed.numbers_eq {a : Audience} (h : a.Placed) (id : Text) :
    a.numbers id = List.range (a.broker.topic id).next := by
  rw [← h.numbered id, numbers, entries, List.map_filterMap]
  refine List.filterMap_congr fun s _ => ?_
  cases hn : s.number <;> simp [Subscription.entry?, hn]

/-- Whatever is done to a broker, no sender waits and no channel breaks. -/
theorem operations_safe (ops : List Operation) :
    let a := empty.run ops
    empty.performAll ops = .ok a ∧
    (∀ id, let t := a.broker.topic id
      t.recent.length ≤ backlog ∧
      (∀ e ∈ t.listeners, e.1 < t.next ∧ (a.broker.channel e.2).isOpen = true ∧
        (a.broker.channel e.2).waiting.length ≤ backlog) ∧
      a.numbers id = List.range t.next ∧
      (t.closed = true → t.listeners = [] ∧ t.recent = [])) ∧
    ∀ id, ∀ e ∈ (a.broker.topic id).listeners, ∀ o,
      e ∉ ((a.next o).broker.topic id).listeners →
        o = ⟨id, .close⟩ ∨ ∃ i l, o = ⟨id, .unsubscribe i⟩ ∧ (a.listeners id)[i]? = some l ∧
          l.subscription.entry? = some e := by
  intro a
  have hplaced : a.Placed := placed_empty.run ops
  have hsound : ∀ id, (a.feed id).Sound := fun id => sound_feed id ops
  refine ⟨performAll_eq placed_empty (fun _ => Feed.sound_empty) ops, fun id => ?_,
    fun id e he o hgone => leaves_place hplaced he hgone⟩
  refine ⟨(hsound id).recent, fun e he => ⟨hplaced.number_lt id e he, isOpen_served hplaced hsound he,
    ?_⟩, hplaced.numbers_eq id, fun hclosed => ⟨?_, (hsound id).forgotten hclosed⟩⟩
  · obtain ⟨g, hg, -, hchannel⟩ := exists_guest hplaced he
    rw [← hchannel]
    exact ((hsound id).guests g hg).room
  · refine List.eq_nil_iff_forall_not_mem.mpr fun e he => ?_
    obtain ⟨g, hg, hlistens, -⟩ := exists_guest hplaced he
    rw [(hsound id).released hclosed g hg] at hlistens
    exact Bool.false_ne_true hlistens

end Audience
end Regatta
