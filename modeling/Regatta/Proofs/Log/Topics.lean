import Regatta.Log.Broker

/-! What happens to the topics of a broker: an operation on one run leaves the others alone, and a
topic that is closed stays closed. -/
namespace Regatta.Broker

variable {id other : Text} (b : Broker) (run : Text)

theorem topic_setTopic_self (t : Topic) :
    (b.setTopic run t).topic run = t := by
  simp [setTopic, topic]

theorem lookup_forget (topics : List (Text × Topic)) {run : Text} (hne : other ≠ run) :
    (topics.filter fun entry => entry.1 != run).lookup other = topics.lookup other := by
  have hmiss : (other == run) = false := beq_eq_false_iff_ne.mpr hne
  induction topics with
  | nil => rfl
  | cons entry rest ih =>
    obtain ⟨key, t⟩ := entry
    by_cases hk : key = run
    · rw [List.filter_cons_of_neg (by simpa using hk), ih, List.lookup_cons, hk, hmiss]
    · rw [List.filter_cons_of_pos (by simpa using hk), List.lookup_cons, List.lookup_cons, ih]

theorem topic_setTopic_other {run : Text} (hne : other ≠ run) (t : Topic) :
    (b.setTopic run t).topic other = b.topic other := by
  have hmiss : (other == run) = false := beq_eq_false_iff_ne.mpr hne
  unfold setTopic topic
  rw [List.lookup_cons, hmiss]
  exact congrArg (·.getD .empty) (lookup_forget b.topics hne)

theorem topic_updateChannels (listeners : List (Nat × Nat)) (f : Channel → Channel) (b : Broker)
    (run : Text) :
    (listeners.foldl (fun b l => b.updateChannel l.2 f) b).topic run = b.topic run := by
  induction listeners generalizing b with
  | nil => rfl
  | cons l rest ih => exact ih _

theorem topic_publish_other {run : Text} (hne : other ≠ run) (line : Text) :
    (b.publish run line).topic other = b.topic other := by
  unfold publish
  dsimp only
  split
  · rfl
  · exact (topic_updateChannels _ _ _ other).trans (topic_setTopic_other b hne _)

theorem topic_close_other {run : Text} (hne : other ≠ run) :
    (b.close run).topic other = b.topic other :=
  (topic_setTopic_other _ hne _).trans (topic_updateChannels _ _ _ other)

theorem closed_close : ((b.close run).topic run).closed = true := by
  unfold close
  dsimp only
  rw [topic_setTopic_self]

theorem closed_subscribe {b : Broker} (h : (b.topic id).closed = true) (run : Text) :
    ((b.subscribe run).1.topic id).closed = true := by
  unfold subscribe
  dsimp only
  split
  · exact h
  · rename_i hopen
    have hne : id ≠ run := by
      rintro rfl
      exact hopen h
    rw [topic_setTopic_other _ hne]
    exact h

theorem closed_unsubscribe {b : Broker} (h : (b.topic id).closed = true)
    (s : Subscription) : ((b.unsubscribe s).topic id).closed = true := by
  unfold unsubscribe
  split
  · exact h
  · dsimp only
    by_cases heq : id = s.run
    · rw [heq, topic_setTopic_self, ← heq]
      exact h
    · rw [topic_setTopic_other _ heq]
      exact h

end Regatta.Broker
