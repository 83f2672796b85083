import Regatta.Proofs.Log.Audience

/-! One run's share of a broker.

Seen from one run, a broker is small: the lines that it remembers, whether the run is closed, and of
each who joined what it has read, its channel, and whether it still listens. `Feed` is that, without
numbers and without other runs. An operation does to the feed of its run what `Feed.next` says, and
nothing to the feeds of other runs (`feed_next`); so the feed of a run depends on the operations on
that run only (`feed_run`). -/
namespace Regatta

structure Guest where
  heard : List Text
  channel : Channel
  listens : Bool

namespace Guest

def offered (line : Text) (g : Guest) : Guest :=
  if g.listens then { g with channel := g.channel.offer line } else g

def released (g : Guest) : Guest :=
  if g.listens then { g with channel := { g.channel with isOpen := false }, listens := false } else g

def leaves (g : Guest) : Guest := { g with listens := false }

def reads (limit : Option Nat) (g : Guest) : Guest :=
  { g with heard := g.heard ++ (g.channel.drain limit).1, channel := (g.channel.drain limit).2.2 }

def next (i : Nat) (g : Guest) : Audience.Act → Guest
  | .subscribe => g
  | .publish line => g.offered line
  | .close => g.released
  | .unsubscribe j => if j = i then g.leaves else g
  | .read j limit => if j = i then g.reads limit else g

/-- What it has read, and what waits for it. -/
def received (g : Guest) : List Text := g.heard ++ g.channel.waiting

structure Sound (g : Guest) : Prop where
  isOpen : g.listens = true → g.channel.isOpen = true
  room : g.channel.waiting.length ≤ backlog

theorem Sound.next {g : Guest} (h : g.Sound) (i : Nat) (act : Audience.Act) :
    (g.next i act).Sound := by
  have ⟨hopen, hroom⟩ := h
  cases act with
  | subscribe => exact h
  | publish line =>
    show (g.offered line).Sound
    unfold offered Channel.offer
    split
    · split
      · exact ⟨hopen, by simp; omega⟩
      · exact h
    · exact h
  | close =>
    show g.released.Sound
    unfold released
    split
    · exact ⟨by simp, hroom⟩
    · exact h
  | unsubscribe j =>
    show (if j = i then g.leaves else g).Sound
    split
    · exact ⟨by simp [leaves], hroom⟩
    · exact h
  | read j limit =>
    show (if j = i then g.reads limit else g).Sound
    split
    · cases limit with
      | none => exact ⟨hopen, Nat.zero_le _⟩
      | some n => exact ⟨hopen, by simp [reads, Channel.drain]; omega⟩
    · exact h

theorem listens_next (i : Nat) (g : Guest) (act : Audience.Act) : (g.next i act).listens = true ↔
    g.listens = true ∧ act ≠ .close ∧ act ≠ .unsubscribe i := by
  cases act with
  | subscribe => simp [next]
  | publish line => cases h : g.listens <;> simp [next, offered, h]
  | close => cases h : g.listens <;> simp [next, released, h]
  | unsubscribe j => by_cases hj : j = i <;> simp [next, leaves, hj]
  | read j limit => by_cases hj : j = i <;> simp [next, reads, hj]

end Guest

structure Feed where
  recent : List Text
  closed : Bool
  guests : List Guest

namespace Feed

def newcomer (f : Feed) : Guest :=
  if f.closed then ⟨[], ⟨[], false⟩, false⟩ else ⟨[], ⟨f.recent, true⟩, true⟩

def next (f : Feed) : Audience.Act → Feed
  | .subscribe => { f with guests := f.guests ++ [f.newcomer] }
  | .publish line =>
    if f.closed then f
    else
      let kept := if f.recent.length == backlog then f.recent.drop 1 else f.recent
      { f with recent := kept ++ [line], guests := f.guests.map (Guest.offered line) }
  | .close => ⟨[], true, f.guests.map Guest.released⟩
  | .unsubscribe i => { f with guests := f.guests.modify i Guest.leaves }
  | .read i limit => { f with guests := f.guests.modify i (Guest.reads limit) }

def run (f : Feed) : List Audience.Act → Feed
  | [] => f
  | act :: rest => (f.next act).run rest

structure Sound (f : Feed) : Prop where
  recent : f.recent.length ≤ backlog
  /-- A closed run has nothing to say, to nobody. -/
  forgotten : f.closed = true → f.recent = []
  released : f.closed = true → ∀ g ∈ f.guests, g.listens = false
  guests : ∀ g ∈ f.guests, g.Sound

theorem length_guests_next (f : Feed) (act : Audience.Act) : (f.next act).guests.length =
    f.guests.length + if act = .subscribe then 1 else 0 := by
  cases act with
  | publish line =>
    simp only [next]
    split <;> simp
  | _ => simp [next]

section
variable {f : Feed} (h : f.Sound)
include h

theorem Sound.newcomer : f.newcomer.Sound := by
  unfold Feed.newcomer
  split
  · exact ⟨by simp, Nat.zero_le _⟩
  · exact ⟨fun _ => rfl, h.recent⟩

theorem getElem?_guests_next {i : Nat} {g : Guest} (hg : f.guests[i]? = some g)
    (act : Audience.Act) : (f.next act).guests[i]? = some (g.next i act) := by
  cases act with
  | subscribe =>
    obtain ⟨hi, -⟩ := List.getElem?_eq_some_iff.mp hg
    simp [next, Guest.next, List.getElem?_append_left hi, hg]
  | publish line =>
    cases hclosed : f.closed with
    | true =>
      have hdeaf := h.released hclosed g (List.mem_of_getElem? hg)
      simp [next, Guest.next, Guest.offered, hclosed, hdeaf, hg]
    | false => simp [next, Guest.next, hclosed, hg]
  | close => simp [next, Guest.next, hg]
  | unsubscribe j | read j limit => by_cases hj : j = i <;> simp [next, Guest.next, hg, hj]

theorem mem_guests_next {act : Audience.Act} {g' : Guest} (hg : g' ∈ (f.next act).guests) :
    (act = .subscribe ∧ g' = f.newcomer) ∨ ∃ i, ∃ g ∈ f.guests, g' = g.next i act := by
  obtain ⟨i, hi⟩ := List.mem_iff_getElem?.mp hg
  cases hold : f.guests[i]? with
  | some g =>
    have hnext := getElem?_guests_next h hold act
    rw [hi] at hnext
    exact .inr ⟨i, g, List.mem_of_getElem? hold, Option.some.inj hnext⟩
  | none =>
    have hlength := length_guests_next f act
    obtain ⟨hlt, -⟩ := List.getElem?_eq_some_iff.mp hi
    have hge := List.getElem?_eq_none_iff.mp hold
    by_cases hact : act = .subscribe
    · subst hact
      rw [if_pos rfl] at hlength
      cases (show i = f.guests.length by omega)
      simp [next] at hi
      exact .inl ⟨rfl, hi.symm⟩
    · rw [if_neg hact] at hlength
      omega

theorem Sound.next (act : Audience.Act) : (f.next act).Sound := by
  have hguests : ∀ g ∈ (f.next act).guests, g.Sound := by
    intro g' hg'
    rcases mem_guests_next h hg' with ⟨-, rfl⟩ | ⟨i, g, hg, rfl⟩
    · exact h.newcomer
    · exact (h.guests g hg).next i act
  have hreleased : f.closed = true → ∀ g ∈ (f.next act).guests, g.listens = false := by
    intro hclosed g' hg'
    rcases mem_guests_next h hg' with ⟨-, rfl⟩ | ⟨i, g, hg, rfl⟩
    · simp [Feed.newcomer, hclosed]
    · refine Bool.eq_false_iff.mpr fun hlistens => ?_
      have := ((Guest.listens_next i g act).mp hlistens).1
      rw [h.released hclosed g hg] at this
      exact Bool.false_ne_true this
  cases act with
  | subscribe | unsubscribe j | read j limit =>
    exact ⟨h.recent, h.forgotten, hreleased, hguests⟩
  | publish line =>
    cases hclosed : f.closed with
    | true => simpa [Feed.next, hclosed] using h
    | false =>
      refine ⟨?_, fun hcl => ?_, fun hcl => ?_, hguests⟩
      · have hle := h.recent
        have hpos : 0 < backlog := by decide
        by_cases hfull : f.recent.length = backlog <;> simp [Feed.next, hclosed, hfull] <;> omega
      · simp [Feed.next, hclosed] at hcl
      · simp [Feed.next, hclosed] at hcl
  | close =>
    refine ⟨Nat.zero_le _, fun _ => rfl, fun _ g' hg' => ?_, hguests⟩
    rcases mem_guests_next h hg' with ⟨hact, -⟩ | ⟨i, g, hg, rfl⟩
    · cases hact
    · exact Bool.eq_false_iff.mpr fun hlistens => ((Guest.listens_next i g _).mp hlistens).2.1 rfl

theorem Sound.run (acts : List Audience.Act) : (f.run acts).Sound := by
  induction acts generalizing f with
  | nil => exact h
  | cons act rest ih => exact ih (h.next act)

end

end Feed

namespace Audience

/-- The channels to which the lines of a run go. -/
def served (a : Audience) (id : Text) : List Nat := (a.broker.topic id).listeners.map (·.2)

def guest (a : Audience) (id : Text) (l : Listener) : Guest :=
  ⟨l.heard, a.broker.channel l.subscription.channel,
    (a.served id).contains l.subscription.channel⟩

def feed (a : Audience) (id : Text) : Feed :=
  ⟨(a.broker.topic id).recent, (a.broker.topic id).closed, (a.listeners id).map (a.guest id)⟩

def actsOn (id : Text) (ops : List Operation) : List Act :=
  (ops.filter (·.run == id)).map (·.act)

namespace Placed
variable {a : Audience} (h : a.Placed) {id : Text}
include h

variable {l : Listener} {s : Subscription}

theorem lt_size (hl : l ∈ a.listeners id) :
    l.subscription.channel < a.broker.channels.size :=
  (h.own id _ (List.mem_map_of_mem hl)).2

theorem entry_of_served (hs : s ∈ a.handed id) {e : Nat × Nat}
    (he : e ∈ (a.broker.topic id).listeners) (hchannel : e.2 = s.channel) :
    s.entry? = some e := by
  obtain ⟨t, ht, hentry, hsame⟩ := exists_handed ((h.entered id).mem he)
  rw [List.inj_on_of_nodup_map (h.channels id) hs ht (hchannel.symm.trans hsame.symm), hentry]

theorem served_without (hs : s ∈ a.handed id) {n : Nat} (hn : s.number = some n) :
    (((a.broker.topic id).listeners.filter fun e => e.1 != n).map (·.2)) =
      (a.served id).filter (· != s.channel) := by
  unfold served
  rw [List.filter_map]
  congr 1
  refine List.filter_congr fun e he => ?_
  by_cases hnumber : e.1 = n
  · simp [h.eq_entry hs hn he hnumber]
  · have hother : e.2 ≠ s.channel := by
      intro hchannel
      have hentry := h.entry_of_served hs he hchannel
      rw [Subscription.entry?, hn] at hentry
      cases hentry
      exact hnumber rfl
    exact (bne_iff_ne.mpr hnumber).trans (bne_iff_ne.mpr hother).symm

theorem not_served {other : Text} (hne : other ≠ id) (hl : l ∈ a.listeners other) :
    l.subscription.channel ∉ a.served id := by
  intro hmem
  obtain ⟨e, he, hchannel⟩ := List.mem_map.mp hmem
  obtain ⟨t, ht, -, hsame⟩ := exists_handed ((h.entered id).mem he)
  exact h.apart other id hne _ (List.mem_map_of_mem hl) t ht (hchannel.symm.trans hsame.symm)

theorem eq_of_channel {i j : Nat} {m : Listener} (hl : (a.listeners id)[i]? = some l)
    (hm : (a.listeners id)[j]? = some m) (hsame : l.subscription.channel = m.subscription.channel) :
    i = j := by
  have hchannel : ∀ {k : Nat} {x : Listener}, (a.listeners id)[k]? = some x →
      ((a.handed id).map (·.channel))[k]? = some x.subscription.channel := by
    intro k x hx
    simp [handed, hx]
  obtain ⟨hi, hi'⟩ := List.getElem?_eq_some_iff.mp (hchannel hl)
  obtain ⟨hj, hj'⟩ := List.getElem?_eq_some_iff.mp (hchannel hm)
  exact (h.channels id).getElem_inj_iff.mp (hi'.trans (hsame.trans hj'.symm))

theorem channel_publish (hopen : (a.broker.topic id).closed = false) (line : Text) (i : Nat) :
    (a.broker.publish id line).channel i =
      if i ∈ a.served id then (a.broker.channel i).offer line else a.broker.channel i := by
  rw [Broker.publish_open hopen]
  exact Broker.channel_updateAll (b := a.broker.setTopic id _) (h.nodup_served id)
    (h.served_lt id) _ i

theorem channel_close (i : Nat) : (a.broker.close id).channel i =
    if i ∈ a.served id then { a.broker.channel i with isOpen := false }
    else a.broker.channel i :=
  Broker.channel_updateAll (h.nodup_served id) (h.served_lt id) _ i

theorem channel_read (hl : l ∈ a.listeners id) (i : Nat) (limit : Option Nat)
    (j : Nat) : (a.read id i limit l).broker.channel j =
      if j = l.subscription.channel then (Channel.drain (a.broker.channel j) limit).2.2
      else a.broker.channel j := by
  rw [broker_read, Broker.channel_updateChannel (h.lt_size hl)]
  split
  · rename_i heq
    rw [heq]
  · rfl

end Placed

/-! ### The other runs -/

theorem feed_congr {a a' : Audience} {id : Text} (htopic : a'.broker.topic id = a.broker.topic id)
    (hlisteners : a'.listeners id = a.listeners id)
    (hchannels : ∀ l ∈ a.listeners id,
      a'.broker.channel l.subscription.channel = a.broker.channel l.subscription.channel) :
    a'.feed id = a.feed id := by
  unfold feed
  rw [htopic, hlisteners]
  congr 1
  refine List.map_congr_left fun l hl => ?_
  unfold guest served
  rw [htopic, hchannels l hl]

theorem feed_next_other {a : Audience} (h : a.Placed) {run id : Text} (hne : id ≠ run) (act : Act) :
    (a.next ⟨run, act⟩).feed id = a.feed id := by
  have htopic := h.topic_next_other hne act
  cases act with
  | subscribe =>
    have hpushed : ∀ c, ∀ l ∈ a.listeners id,
        ({ a.broker with channels := a.broker.channels.push c } : Broker).channel
          l.subscription.channel = a.broker.channel l.subscription.channel := by
      intro c l hl
      rw [Broker.channel_push, if_neg (Nat.ne_of_lt (h.lt_size hl))]
    refine feed_congr htopic (if_neg hne) fun l hl => ?_
    cases hclosed : (a.broker.topic run).closed with
    | true => simp [next, welcome, Broker.subscribe_closed hclosed, hpushed _ l hl]
    | false => simp [next, welcome, Broker.subscribe_open hclosed, hpushed _ l hl]
  | publish line =>
    refine feed_congr htopic rfl fun l hl => ?_
    cases hclosed : (a.broker.topic run).closed with
    | true => simp [next, Broker.publish_closed hclosed]
    | false => exact (h.channel_publish hclosed line _).trans (if_neg (h.not_served hne hl))
  | close =>
    refine feed_congr htopic rfl fun l hl => ?_
    exact (h.channel_close _).trans (if_neg (h.not_served hne hl))
  | unsubscribe i =>
    cases hl : (a.listeners run)[i]? with
    | none => simp [next, hl]
    | some l =>
      simp only [next, hl] at htopic ⊢
      refine feed_congr htopic rfl fun _ _ => ?_
      cases hn : l.subscription.number with
      | none => rw [Broker.unsubscribe_unplaced hn]
      | some n => rw [Broker.unsubscribe_placed hn, Broker.channel_setTopic]
  | read i limit =>
    cases hl : (a.listeners run)[i]? with
    | none => simp [next, hl]
    | some l =>
      simp only [next, hl]
      refine feed_congr rfl (if_neg hne) fun m hm => ?_
      have hl := List.mem_of_getElem? hl
      rw [h.channel_read hl, if_neg]
      exact h.apart id run hne _ (List.mem_map_of_mem hm) _ (List.mem_map_of_mem hl)

/-! ### The run itself -/

theorem feed_joined {a c : Audience} (id : Text) {l : Listener}
    (hlisteners : c.listeners id = a.listeners id ++ [l])
    (hothers : ∀ m ∈ a.listeners id, c.guest id m = a.guest id m)
    (hthis : c.guest id l = (a.feed id).newcomer)
    (hrecent : (c.broker.topic id).recent = (a.broker.topic id).recent)
    (hclosed : (c.broker.topic id).closed = (a.broker.topic id).closed) :
    c.feed id = (a.feed id).next .subscribe := by
  have hguests : (c.listeners id).map (c.guest id) =
      (a.listeners id).map (a.guest id) ++ [(a.feed id).newcomer] := by
    rw [hlisteners, List.map_append, List.map_congr_left hothers, List.map_singleton, hthis]
  simp only [feed, hguests, hrecent, hclosed, Feed.next]

section
variable {a : Audience} (h : a.Placed) (id : Text)
include h

theorem feed_subscribe : (a.next ⟨id, .subscribe⟩).feed id = (a.feed id).next .subscribe := by
  have hold : ∀ l ∈ a.listeners id, l.subscription.channel ≠ a.broker.channels.size :=
    fun l hl => Nat.ne_of_lt (h.lt_size hl)
  cases hclosed : (a.broker.topic id).closed with
  | true =>
    have hnew : a.broker.channels.size ∉ a.served id := by
      intro hmem
      obtain ⟨e, he, heq⟩ := List.mem_map.mp hmem
      exact Nat.ne_of_lt (h.served_lt id e he) heq
    have hserved : (a.next ⟨id, .subscribe⟩).served id = a.served id := by
      simp [next, welcome, Broker.subscribe_closed hclosed, served]
    have hchannel : ∀ i, (a.next ⟨id, .subscribe⟩).broker.channel i =
        if i = a.broker.channels.size then ⟨[], false⟩ else a.broker.channel i := by
      intro i
      rw [← Broker.channel_push]
      simp [next, welcome, Broker.subscribe_closed hclosed]
    refine feed_joined id (l := ⟨⟨id, a.broker.channels.size, none⟩, []⟩) ?_ (fun l hl => ?_) ?_ ?_ ?_
    · simp [next, welcome, Broker.subscribe_closed hclosed]
    · simp [guest, hserved, hchannel, hold l hl]
    · simp [guest, hserved, hchannel, hnew, feed, Feed.newcomer, hclosed]
    · simp [next, welcome, Broker.subscribe_closed hclosed]
    · simp [next, welcome, Broker.subscribe_closed hclosed]
  | false =>
    have hserved : (a.next ⟨id, .subscribe⟩).served id =
        a.served id ++ [a.broker.channels.size] := by
      simp [next, welcome, Broker.subscribe_open hclosed, served, Broker.topic_setTopic_self]
    have hchannel : ∀ i, (a.next ⟨id, .subscribe⟩).broker.channel i =
        if i = a.broker.channels.size then ⟨(a.broker.topic id).recent, true⟩
        else a.broker.channel i := by
      intro i
      rw [← Broker.channel_push]
      simp [next, welcome, Broker.subscribe_open hclosed]
    refine feed_joined id (l := ⟨⟨id, a.broker.channels.size, some (a.broker.topic id).next⟩, []⟩) ?_
      (fun l hl => ?_) ?_ ?_ ?_
    · simp [next, welcome, Broker.subscribe_open hclosed]
    · simp [guest, hserved, hchannel, hold l hl]
    · simp [guest, hserved, hchannel, feed, Feed.newcomer, hclosed]
    · simp [next, welcome, Broker.subscribe_open hclosed, Broker.topic_setTopic_self]
    · simp [next, welcome, Broker.subscribe_open hclosed, Broker.topic_setTopic_self]

theorem feed_publish (line : Text) :
    (a.next ⟨id, .publish line⟩).feed id = (a.feed id).next (.publish line) := by
  cases hclosed : (a.broker.topic id).closed with
  | true => simp [next, Broker.publish_closed hclosed, feed, Feed.next, hclosed]
  | false =>
    have htopic : (a.next ⟨id, .publish line⟩).broker.topic id =
        (a.broker.topic id).remember line := by
      simp [next, Broker.publish_open hclosed, Broker.topic_setTopic_self]
    have hserved : (a.next ⟨id, .publish line⟩).served id = a.served id := by
      simp [served, htopic, Topic.remember]
    have hchannel : ∀ i, (a.next ⟨id, .publish line⟩).broker.channel i = _ :=
      h.channel_publish hclosed line
    simp only [feed, htopic, Feed.next, hclosed, Topic.remember]
    congr 1
    show (a.listeners id).map _ = _
    rw [List.map_map]
    refine List.map_congr_left fun l _ => ?_
    by_cases hmem : l.subscription.channel ∈ a.served id <;>
      simp [guest, hserved, Guest.offered, hmem, hchannel]

theorem feed_close : (a.next ⟨id, .close⟩).feed id = (a.feed id).next .close := by
  have htopic : (a.next ⟨id, .close⟩).broker.topic id =
      ⟨[], (a.broker.topic id).next, [], true⟩ := by
    simp [next, Broker.close_eq, Broker.topic_setTopic_self]
  have hserved : (a.next ⟨id, .close⟩).served id = [] := by
    simp [served, htopic]
  have hchannel : ∀ i, (a.next ⟨id, .close⟩).broker.channel i = _ := h.channel_close
  simp only [feed, htopic, Feed.next]
  congr 1
  show (a.listeners id).map _ = _
  rw [List.map_map]
  refine List.map_congr_left fun l _ => ?_
  by_cases hmem : l.subscription.channel ∈ a.served id <;>
    simp [guest, hserved, Guest.released, hmem, hchannel]

theorem guests_modify {c : Audience} {i : Nat} {l l' : Listener} {f : Guest → Guest}
    (hl : (a.listeners id)[i]? = some l) (hlisteners : c.listeners id = (a.listeners id).set i l')
    (hthis : c.guest id l' = f (a.guest id l))
    (hothers : ∀ m ∈ a.listeners id, m.subscription.channel ≠ l.subscription.channel →
      c.guest id m = a.guest id m) :
    (c.listeners id).map (c.guest id) = ((a.listeners id).map (a.guest id)).modify i f := by
  refine List.ext_getElem? fun j => ?_
  rw [hlisteners, List.getElem?_map, List.getElem?_set, List.getElem?_modify, List.getElem?_map]
  by_cases hj : i = j
  · subst hj
    obtain ⟨hi, rfl⟩ := List.getElem?_eq_some_iff.mp hl
    simp [hi, hthis]
  · simp only [hj, if_false]
    cases hm : (a.listeners id)[j]? with
    | none => rfl
    | some m =>
      have hne : m.subscription.channel ≠ l.subscription.channel :=
        fun heq => hj (h.eq_of_channel hl hm heq.symm)
      simp [hothers m (List.mem_of_getElem? hm) hne]

omit h in
theorem modify_absent {i : Nat} (hl : (a.listeners id)[i]? = none) (f : Guest → Guest) :
    ((a.listeners id).map (a.guest id)).modify i f = (a.listeners id).map (a.guest id) :=
  List.modify_eq_self (by simpa using hl)

theorem feed_unsubscribe (i : Nat) :
    (a.next ⟨id, .unsubscribe i⟩).feed id = (a.feed id).next (.unsubscribe i) := by
  cases hl : (a.listeners id)[i]? with
  | none => simp [next, hl, feed, Feed.next, modify_absent id hl]
  | some l =>
    have hmem := List.mem_of_getElem? hl
    have hhanded : l.subscription ∈ a.handed id := List.mem_map_of_mem hmem
    have hself : (a.listeners id).set i l = a.listeners id := by
      obtain ⟨hi, rfl⟩ := List.getElem?_eq_some_iff.mp hl
      exact List.set_getElem_self hi
    simp only [next, hl]
    cases hn : l.subscription.number with
    | none =>
      -- it never had a place
      have hunserved : l.subscription.channel ∉ a.served id := by
        intro hserved
        obtain ⟨e, he, hchannel⟩ := List.mem_map.mp hserved
        have hentry := h.entry_of_served hhanded he hchannel
        simp [Subscription.entry?, hn] at hentry
      rw [Broker.unsubscribe_unplaced hn]
      have hguests := guests_modify h id (f := Guest.leaves) hl hself.symm
        (by simp [guest, Guest.leaves, hunserved]) fun _ _ _ => rfl
      simp [feed, Feed.next, ← hguests]
    | some n =>
      rw [Broker.unsubscribe_placed hn, (h.own id _ hhanded).1]
      have hgone := h.served_without hhanded hn
      have hguests := guests_modify h id (f := Guest.leaves)
        (c := { a with broker := a.broker.setTopic id { a.broker.topic id with
          listeners := (a.broker.topic id).listeners.filter fun e => e.1 != n } }) hl hself.symm
        (by simp [guest, Guest.leaves, served, Broker.topic_setTopic_self, hgone])
        fun m _ hne => by
          simp only [guest, served, Broker.topic_setTopic_self, Broker.channel_setTopic, hgone]
          simp [List.contains_eq_mem, hne]
      simp [feed, Feed.next, ← hguests, Broker.topic_setTopic_self]

theorem feed_read (i : Nat) (limit : Option Nat) :
    (a.next ⟨id, .read i limit⟩).feed id = (a.feed id).next (.read i limit) := by
  cases hl : (a.listeners id)[i]? with
  | none => simp [next, hl, feed, Feed.next, modify_absent id hl]
  | some l =>
    simp only [next, hl]
    have hchannel := h.channel_read (List.mem_of_getElem? hl) i limit
    have hserved : (a.read id i limit l).served id = a.served id := by
      simp [served, broker_read]
    have hguests := guests_modify h id (f := Guest.reads limit) hl
      ((listeners_read a id i limit l id).trans (if_pos rfl))
      (by simp [guest, Guest.reads, hchannel, hserved])
      fun m _ hne => by simp [guest, hchannel, hserved, hne]
    simp [feed, Feed.next, ← hguests, broker_read]

theorem feed_next (o : Operation) :
    (a.next o).feed id = if o.run = id then (a.feed id).next o.act else a.feed id := by
  obtain ⟨run, act⟩ := o
  by_cases hrun : id = run
  · subst hrun
    rw [if_pos rfl]
    cases act with
    | subscribe => exact feed_subscribe h id
    | publish line => exact feed_publish h id line
    | close => exact feed_close h id
    | unsubscribe i => exact feed_unsubscribe h id i
    | read i limit => exact feed_read h id i limit
  · rw [if_neg (Ne.symm hrun)]
    exact feed_next_other h hrun act

/-- A feed depends on what is done about its own run only. -/
theorem feed_run (ops : List Operation) :
    (a.run ops).feed id = (a.feed id).run (actsOn id ops) := by
  induction ops generalizing a with
  | nil => rfl
  | cons o rest ih =>
    rw [run, ih (h.next o), feed_next h id o]
    by_cases hrun : o.run = id <;> simp [actsOn, hrun, Feed.run]

end

end Audience
end Regatta
