import Mathlib.Data.List.Nodup
import Regatta.Proofs.Log.Topics

/-! Those who listen to a broker.

Listeners join and leave, lines are published, runs are closed and channels are read, for any runs
and in any order. An `Audience` is a broker with everything that it has handed out, by run and in
the order of joining, and with what each listener has read. `Placed` says who has which place: every
listener has a channel and a number of its own, and a topic serves none but those who joined it. It
holds whatever is done (`Placed.run`). -/
namespace Regatta

/-! ### Channels -/

namespace Broker

@[simp] theorem channel_setTopic (b : Broker) (id : Text) (t : Topic) (i : Nat) :
    (b.setTopic id t).channel i = b.channel i := rfl

@[simp] theorem size_setTopic (b : Broker) (id : Text) (t : Topic) :
    (b.setTopic id t).channels.size = b.channels.size := rfl

theorem channel_push (b : Broker) (c : Channel) (i : Nat) :
    ({ b with channels := b.channels.push c } : Broker).channel i =
      if i = b.channels.size then c else b.channel i := by
  by_cases h : i = b.channels.size <;> simp [channel, Array.getElem?_push, h]

theorem channel_updateChannel {b : Broker} {i : Nat} (hi : i < b.channels.size)
    (f : Channel → Channel) (j : Nat) :
    (b.updateChannel i f).channel j = if j = i then f (b.channel j) else b.channel j := by
  by_cases h : j = i
  · subst h
    simp [channel, updateChannel, Array.getElem_modify, hi]
  · simp [channel, updateChannel, Array.getElem?_modify, h, Ne.symm h]

@[simp] theorem size_updateChannel (b : Broker) (i : Nat) (f : Channel → Channel) :
    (b.updateChannel i f).channels.size = b.channels.size := by
  simp [updateChannel]

def updateAll (b : Broker) (entries : List (Nat × Nat)) (f : Channel → Channel) : Broker :=
  entries.foldl (fun b e => b.updateChannel e.2 f) b

@[simp] theorem size_updateAll (b : Broker) (entries : List (Nat × Nat)) (f : Channel → Channel) :
    (b.updateAll entries f).channels.size = b.channels.size := by
  induction entries generalizing b with
  | nil => rfl
  | cons e rest ih => exact (ih _).trans (b.size_updateChannel e.2 f)

/-- Where no channel comes twice, each is changed once and the others stay. -/
theorem channel_updateAll {b : Broker} {entries : List (Nat × Nat)}
    (hnodup : (entries.map (·.2)).Nodup) (hin : ∀ e ∈ entries, e.2 < b.channels.size)
    (f : Channel → Channel) (i : Nat) :
    (b.updateAll entries f).channel i =
      if i ∈ entries.map (·.2) then f (b.channel i) else b.channel i := by
  induction entries generalizing b with
  | nil => simp [updateAll]
  | cons e rest ih =>
    obtain ⟨he, hrest⟩ := List.nodup_cons.mp hnodup
    have hfirst := channel_updateChannel (hin e (List.mem_cons_self ..)) f i
    have hothers : ((b.updateChannel e.2 f).updateAll rest f).channel i = _ :=
      ih hrest fun x hx => by simpa using hin x (List.mem_cons_of_mem _ hx)
    show ((b.updateChannel e.2 f).updateAll rest f).channel i = _
    rw [hothers, hfirst]
    by_cases hi : i = e.2
    · subst hi
      simp [he]
    · simp only [hi, if_false, List.map_cons, List.mem_cons, false_or]

/-! ### What each operation does -/

section
variable {b : Broker} {id : Text}

theorem subscribe_closed (h : (b.topic id).closed = true) : b.subscribe id =
    ({ b with channels := b.channels.push ⟨[], false⟩ }, ⟨id, b.channels.size, none⟩) := by
  simp [subscribe, h]

theorem subscribe_open (h : (b.topic id).closed = false) : b.subscribe id =
    let t := b.topic id
    (({ b with channels := b.channels.push ⟨t.recent, true⟩ } : Broker).setTopic id
        { t with listeners := t.listeners ++ [(t.next, b.channels.size)], next := t.next + 1 },
      ⟨id, b.channels.size, some t.next⟩) := by
  simp [subscribe, h]

theorem publish_closed (h : (b.topic id).closed = true) (line : Text) : b.publish id line = b := by
  simp [publish, h]

theorem publish_open (h : (b.topic id).closed = false) (line : Text) : b.publish id line =
    (b.setTopic id ((b.topic id).remember line)).updateAll (b.topic id).listeners
      (·.offer line) := by
  simp [publish, h, updateAll]

theorem close_eq (b : Broker) (id : Text) : b.close id =
    (b.updateAll (b.topic id).listeners ({ · with isOpen := false })).setTopic id
      { b.topic id with closed := true, recent := [], listeners := [] } := rfl

theorem unsubscribe_unplaced {s : Subscription} (h : s.number = none) : b.unsubscribe s = b := by
  simp [unsubscribe, h]

theorem unsubscribe_placed {s : Subscription} {n : Nat} (h : s.number = some n) :
    b.unsubscribe s = b.setTopic s.run { b.topic s.run with
      listeners := (b.topic s.run).listeners.filter fun e => e.1 != n } := by
  simp [unsubscribe, h]

@[simp] theorem topic_updateAll (b : Broker) (entries : List (Nat × Nat)) (f : Channel → Channel)
    (id : Text) : (b.updateAll entries f).topic id = b.topic id :=
  topic_updateChannels entries f b id

@[simp] theorem topic_updateChannel (b : Broker) (i : Nat) (f : Channel → Channel) (id : Text) :
    (b.updateChannel i f).topic id = b.topic id := rfl

@[simp] theorem topic_pushed (b : Broker) (channels : Array Channel) (id : Text) :
    ({ b with channels } : Broker).topic id = b.topic id := rfl

end
end Broker

/-! ### Operations -/

/-- Its place in the list of a topic, unless the topic was closed when it was handed out. -/
def Subscription.entry? (s : Subscription) : Option (Nat × Nat) :=
  s.number.map fun n => (n, s.channel)

/-- One who has joined: what it was given, and the lines that it has read. -/
structure Listener where
  subscription : Subscription
  heard : List Text

structure Audience where
  broker : Broker
  listeners : Text → List Listener

namespace Audience

/-- What can be done about a run. Listeners go by the order in which they joined it. -/
inductive Act where
  | subscribe
  | publish (line : Text)
  | close
  | unsubscribe (i : Nat)
  | read (i : Nat) (limit : Option Nat)
deriving DecidableEq

structure Operation where
  run : Text
  act : Act
deriving DecidableEq

def empty : Audience := ⟨.empty, fun _ => []⟩

def withListeners (a : Audience) (id : Text) (ls : List Listener) : Audience :=
  { a with listeners := fun other => if other = id then ls else a.listeners other }

def welcome (a : Audience) (id : Text) (joined : Broker × Subscription) : Audience :=
  ({ a with broker := joined.1 } : Audience).withListeners id
    (a.listeners id ++ [⟨joined.2, []⟩])

/-- Somebody reads what waits for it, up to a limit. -/
def read (a : Audience) (id : Text) (i : Nat) (limit : Option Nat) (l : Listener) : Audience :=
  let (broker, lines, _) := a.broker.drain l.subscription limit
  ({ a with broker } : Audience).withListeners id
    ((a.listeners id).set i { l with heard := l.heard ++ lines })

def next (a : Audience) (o : Operation) : Audience :=
  match o.act with
  | .subscribe => a.welcome o.run (a.broker.subscribe o.run)
  | .publish line => { a with broker := a.broker.publish o.run line }
  | .close => { a with broker := a.broker.close o.run }
  | .unsubscribe i =>
    match (a.listeners o.run)[i]? with
    | none => a
    | some l => { a with broker := a.broker.unsubscribe l.subscription }
  | .read i limit =>
    match (a.listeners o.run)[i]? with
    | none => a
    | some l => a.read o.run i limit l

def run (a : Audience) : List Operation → Audience
  | [] => a
  | o :: rest => (a.next o).run rest

theorem run_append (a : Audience) (before after : List Operation) :
    a.run (before ++ after) = (a.run before).run after := by
  induction before generalizing a with
  | nil => rfl
  | cons o rest ih => exact ih _

@[simp] theorem listeners_withListeners (a : Audience) (id other : Text) (ls : List Listener) :
    (a.withListeners id ls).listeners other = if other = id then ls else a.listeners other := rfl

@[simp] theorem broker_withListeners (a : Audience) (id : Text) (ls : List Listener) :
    (a.withListeners id ls).broker = a.broker := rfl

/-! ### Who has which place -/

def handed (a : Audience) (id : Text) : List Subscription :=
  (a.listeners id).map Listener.subscription

def entries (a : Audience) (id : Text) : List (Nat × Nat) :=
  (a.handed id).filterMap Subscription.entry?

structure Placed (a : Audience) : Prop where
  /-- What was handed out for a run is for that run, and its channel is there. -/
  own : ∀ id, ∀ s ∈ a.handed id, s.run = id ∧ s.channel < a.broker.channels.size
  channels : ∀ id, ((a.handed id).map (·.channel)).Nodup
  apart : ∀ id other, id ≠ other → ∀ s ∈ a.handed id, ∀ t ∈ a.handed other,
    s.channel ≠ t.channel
  /-- Those whom a topic serves are among those who joined, in the same order. -/
  entered : ∀ id, (a.broker.topic id).listeners.Sublist (a.entries id)
  numbered : ∀ id, (a.entries id).map (·.1) = List.range (a.broker.topic id).next

theorem placed_empty : Placed empty where
  own _ _ hs := absurd hs List.not_mem_nil
  channels _ := List.nodup_nil
  apart _ _ _ _ hs := absurd hs List.not_mem_nil
  entered _ := List.Sublist.refl _
  numbered _ := rfl

theorem exists_handed {a : Audience} {id : Text} {e : Nat × Nat} (he : e ∈ a.entries id) :
    ∃ s ∈ a.handed id, s.entry? = some e ∧ s.channel = e.2 := by
  obtain ⟨s, hs, hentry⟩ := List.mem_filterMap.mp he
  refine ⟨s, hs, hentry, ?_⟩
  obtain ⟨n, -, rfl⟩ := Option.map_eq_some_iff.mp hentry
  rfl

namespace Placed
variable {a a' : Audience} (h : a.Placed)
include h

theorem nodup_served (id : Text) : ((a.broker.topic id).listeners.map (·.2)).Nodup := by
  have hsublist : ((a.entries id).map (·.2)).Sublist ((a.handed id).map (·.channel)) := by
    unfold entries
    induction a.handed id with
    | nil => exact List.Sublist.refl _
    | cons s rest ih =>
      cases hentry : s.entry? with
      | none =>
        rw [List.filterMap_cons_none hentry]
        exact ih.cons _
      | some e =>
        obtain ⟨n, -, rfl⟩ := Option.map_eq_some_iff.mp hentry
        rw [List.filterMap_cons_some hentry]
        exact ih.cons_cons _
  exact (((h.entered id).map _).trans hsublist).nodup (h.channels id)

theorem served_lt (id : Text) :
    ∀ e ∈ (a.broker.topic id).listeners, e.2 < a.broker.channels.size := by
  intro e he
  obtain ⟨s, hs, -, hchannel⟩ := exists_handed ((h.entered id).mem he)
  rw [← hchannel]
  exact (h.own id s hs).2

theorem number_lt (id : Text) :
    ∀ e ∈ (a.broker.topic id).listeners, e.1 < (a.broker.topic id).next := by
  intro e he
  have hmem : e.1 ∈ (a.entries id).map (·.1) := List.mem_map_of_mem ((h.entered id).mem he)
  rw [h.numbered id] at hmem
  exact List.mem_range.mp hmem

theorem eq_entry {id : Text} {s : Subscription} (hs : s ∈ a.handed id) {n : Nat}
    (hn : s.number = some n) {e : Nat × Nat}
    (he : e ∈ (a.broker.topic id).listeners) (hnumber : e.1 = n) : e = (n, s.channel) := by
  have hentry : (n, s.channel) ∈ a.entries id :=
    List.mem_filterMap.mpr ⟨s, hs, by simp [Subscription.entry?, hn]⟩
  have hnodup : ((a.entries id).map (·.1)).Nodup := by
    rw [h.numbered id]
    exact List.nodup_range
  exact List.inj_on_of_nodup_map hnodup ((h.entered id).mem he) hentry hnumber

theorem shrink (hhanded : a'.handed = a.handed)
    (hsize : a'.broker.channels.size = a.broker.channels.size)
    (hserved : ∀ id, (a'.broker.topic id).listeners.Sublist (a.broker.topic id).listeners)
    (hnext : ∀ id, (a'.broker.topic id).next = (a.broker.topic id).next) : a'.Placed := by
  have hentries : a'.entries = a.entries := by
    unfold entries
    rw [hhanded]
  refine ⟨?_, ?_, ?_, fun id => ?_, fun id => ?_⟩
  · rw [hhanded, hsize]
    exact h.own
  · rw [hhanded]
    exact h.channels
  · rw [hhanded]
    exact h.apart
  · rw [hentries]
    exact (hserved id).trans (h.entered id)
  · rw [hentries, hnext]
    exact h.numbered id

end Placed

theorem broker_read (a : Audience) (id : Text) (i : Nat) (limit : Option Nat) (l : Listener) :
    (a.read id i limit l).broker = a.broker.updateChannel l.subscription.channel
      (fun _ => ((a.broker.channel l.subscription.channel).drain limit).2.2) := rfl

theorem listeners_read (a : Audience) (id : Text) (i : Nat) (limit : Option Nat) (l : Listener)
    (other : Text) : (a.read id i limit l).listeners other =
      if other = id then (a.listeners id).set i { l with
        heard := l.heard ++ ((a.broker.channel l.subscription.channel).drain limit).1 }
      else a.listeners other := rfl

theorem handed_read {a : Audience} {id : Text} {i : Nat} {l : Listener}
    (hl : (a.listeners id)[i]? = some l) (limit : Option Nat) :
    (a.read id i limit l).handed = a.handed := by
  funext other
  unfold handed
  rw [listeners_read]
  split
  · rename_i heq
    subst heq
    have hsame : ((a.listeners other).map Listener.subscription)[i]? = some l.subscription := by
      rw [List.getElem?_map, hl]
      rfl
    obtain ⟨hi', hget'⟩ := List.getElem?_eq_some_iff.mp hsame
    rw [List.map_set, ← hget', List.set_getElem_self]
  · rfl

theorem handed_welcome (a : Audience) (id other : Text) (joined : Broker × Subscription) :
    (a.welcome id joined).handed other =
      if other = id then a.handed id ++ [joined.2] else a.handed other := by
  unfold handed welcome
  rw [listeners_withListeners]
  split
  · rw [List.map_append]
    rfl
  · rfl

namespace Placed
variable {a : Audience} (h : a.Placed)
include h

theorem join {id : Text} {broker : Broker} {s : Subscription} (hrun : s.run = id)
    (hchannel : s.channel = a.broker.channels.size)
    (hsize : broker.channels.size = a.broker.channels.size + 1)
    (hothers : ∀ other, other ≠ id → broker.topic other = a.broker.topic other)
    (hserved : (broker.topic id).listeners = (a.broker.topic id).listeners ++ s.entry?.toList)
    (hnext : List.range (a.broker.topic id).next ++ (s.entry?.map (·.1)).toList =
      List.range (broker.topic id).next) : (a.welcome id (broker, s)).Placed := by
  have hlt : ∀ {other t}, t ∈ a.handed other → t.channel < s.channel := fun ht => by
    rw [hchannel]
    exact (h.own _ _ ht).2
  have hself : (a.welcome id (broker, s)).handed id = a.handed id ++ [s] := by
    rw [handed_welcome, if_pos rfl]
  have hother : ∀ {other}, other ≠ id → (a.welcome id (broker, s)).handed other = a.handed other :=
    fun hne => by rw [handed_welcome, if_neg hne]
  have hentries : (a.welcome id (broker, s)).entries id = a.entries id ++ s.entry?.toList := by
    unfold entries
    rw [hself, List.filterMap_append]
    cases hs : s.entry? <;> simp [hs]
  have hmem : ∀ {other t}, t ∈ (a.welcome id (broker, s)).handed other →
      t ∈ a.handed other ∨ other = id ∧ t = s := by
    intro other t ht
    rw [handed_welcome] at ht
    split at ht
    · rename_i heq
      exact (List.mem_append.mp ht).imp (heq ▸ ·) fun ht => ⟨heq, List.mem_singleton.mp ht⟩
    · exact .inl ht
  refine ⟨fun other t ht => ?_, fun other => ?_, fun one two hne t ht u hu => ?_, fun other => ?_,
    fun other => ?_⟩
  · show _ ∧ t.channel < broker.channels.size
    rcases hmem ht with ht | ⟨rfl, rfl⟩
    · exact ⟨(h.own other t ht).1, by have := (h.own other t ht).2; omega⟩
    · exact ⟨hrun, by omega⟩
  · by_cases heq : other = id
    · subst heq
      rw [hself, List.map_append, List.nodup_append]
      refine ⟨h.channels other, List.nodup_singleton _, fun c hc d hd => ?_⟩
      obtain ⟨t, ht, rfl⟩ := List.mem_map.mp hc
      cases List.mem_singleton.mp hd
      exact Nat.ne_of_lt (hlt ht)
    · rw [hother heq]
      exact h.channels other
  · rcases hmem ht with hold | ⟨hone, rfl⟩ <;> rcases hmem hu with hold' | ⟨htwo, rfl⟩
    · exact h.apart one two hne t hold u hold'
    · exact Nat.ne_of_lt (hlt hold)
    · exact (Nat.ne_of_lt (hlt hold')).symm
    · -- only one of the two runs can be the one that was joined
      exact absurd (hone.trans htwo.symm) hne
  · show (broker.topic other).listeners.Sublist _
    by_cases heq : other = id
    · subst heq
      rw [hentries, hserved]
      exact (h.entered other).append (List.Sublist.refl _)
    · unfold entries
      rw [hother heq, hothers other heq]
      exact h.entered other
  · show _ = List.range (broker.topic other).next
    by_cases heq : other = id
    · subst heq
      rw [hentries, List.map_append, h.numbered other, ← hnext]
      cases s.entry? <;> rfl
    · unfold entries
      rw [hother heq, hothers other heq]
      exact h.numbered other

theorem subscribe (id : Text) : (a.welcome id (a.broker.subscribe id)).Placed := by
  cases hclosed : (a.broker.topic id).closed with
  | true =>
    rw [Broker.subscribe_closed hclosed]
    refine h.join rfl rfl (by simp) (fun _ _ => rfl) ?_ ?_
    · simp [Subscription.entry?]
    · simp [Subscription.entry?]
  | false =>
    rw [Broker.subscribe_open hclosed]
    refine h.join rfl rfl (by simp) (fun other hne => ?_) ?_ ?_
    · rw [Broker.topic_setTopic_other _ hne]
      rfl
    · simp [Broker.topic_setTopic_self, Subscription.entry?]
    · simp [Broker.topic_setTopic_self, Subscription.entry?, List.range_succ]

theorem shrink_topic (id : Text) {broker : Broker}
    (hsize : broker.channels.size = a.broker.channels.size)
    (hothers : ∀ other, other ≠ id → broker.topic other = a.broker.topic other)
    (hserved : (broker.topic id).listeners.Sublist (a.broker.topic id).listeners)
    (hnext : (broker.topic id).next = (a.broker.topic id).next) :
    Placed { a with broker } := by
  refine h.shrink rfl hsize (fun other => ?_) fun other => ?_
  · by_cases heq : other = id
    · exact heq ▸ hserved
    · rw [hothers other heq]
  · by_cases heq : other = id
    · exact heq ▸ hnext
    · rw [hothers other heq]

theorem next (o : Operation) : (a.next o).Placed := by
  obtain ⟨id, act⟩ := o
  cases act with
  | subscribe => exact h.subscribe id
  | publish line =>
    cases hclosed : (a.broker.topic id).closed with
    | true =>
      show Placed { a with broker := a.broker.publish id line }
      rw [Broker.publish_closed hclosed]
      exact h
    | false =>
      refine h.shrink_topic id ?_ (fun other hne => ?_) ?_ ?_
      · simp [Broker.publish_open hclosed]
      · exact Broker.topic_publish_other a.broker hne line
      · simp [Broker.publish_open hclosed, Broker.topic_setTopic_self, Topic.remember]
      · simp [Broker.publish_open hclosed, Broker.topic_setTopic_self, Topic.remember]
  | close =>
    refine h.shrink_topic id ?_ (fun other hne => ?_) ?_ ?_
    · simp [Broker.close_eq]
    · exact Broker.topic_close_other a.broker hne
    · simp [Broker.close_eq, Broker.topic_setTopic_self]
    · simp [Broker.close_eq, Broker.topic_setTopic_self]
  | unsubscribe i =>
    cases hl : (a.listeners id)[i]? with
    | none => simpa [Audience.next, hl] using h
    | some l =>
      have hrun := (h.own id l.subscription (List.mem_map_of_mem (List.mem_of_getElem? hl))).1
      simp only [Audience.next, hl]
      cases hn : l.subscription.number with
      | none =>
        rw [Broker.unsubscribe_unplaced hn]
        exact h
      | some n =>
        rw [Broker.unsubscribe_placed hn, hrun]
        refine h.shrink_topic id rfl (fun other hne => ?_) ?_ ?_
        · rw [Broker.topic_setTopic_other _ hne]
        · rw [Broker.topic_setTopic_self]
          exact List.filter_sublist
        · rw [Broker.topic_setTopic_self]
  | read i limit =>
    cases hl : (a.listeners id)[i]? with
    | none => simpa [Audience.next, hl] using h
    | some l =>
      simp only [Audience.next, hl]
      refine h.shrink (handed_read hl limit) ?_ (fun other => ?_) fun other => ?_
      · simp [broker_read]
      · simp [broker_read]
      · simp [broker_read]

/-- An operation leaves the topics of other runs as they are. -/
theorem topic_next_other {run id : Text} (hne : id ≠ run) (act : Act) :
    (a.next ⟨run, act⟩).broker.topic id = a.broker.topic id := by
  cases act with
  | subscribe =>
    cases hclosed : (a.broker.topic run).closed with
    | true => simp [Audience.next, welcome, Broker.subscribe_closed hclosed]
    | false =>
      simp [Audience.next, welcome, Broker.subscribe_open hclosed,
        Broker.topic_setTopic_other _ hne]
  | publish line => exact Broker.topic_publish_other a.broker hne line
  | close => exact Broker.topic_close_other a.broker hne
  | unsubscribe i =>
    cases hl : (a.listeners run)[i]? with
    | none => simp [Audience.next, hl]
    | some l =>
      have hrun := (h.own run _ (List.mem_map_of_mem (List.mem_of_getElem? hl))).1
      cases hn : l.subscription.number with
      | none => simp [Audience.next, hl, Broker.unsubscribe_unplaced hn]
      | some n =>
        simp [Audience.next, hl, Broker.unsubscribe_placed hn, hrun,
          Broker.topic_setTopic_other _ hne]
  | read i limit => cases hl : (a.listeners run)[i]? <;> simp [Audience.next, hl, broker_read]

theorem run (ops : List Operation) : (a.run ops).Placed := by
  induction ops generalizing a with
  | nil => exact h
  | cons o rest ih => exact ih (h.next o)

end Placed

end Audience
end Regatta
