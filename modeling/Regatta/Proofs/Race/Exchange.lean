import Regatta.Race.Exchange

/-! What is sent into an exchange, and what is received from it. -/
namespace Regatta.Exchange

variable {r : EngineResult} {x x' : Exchange}

theorem send?_eq_some (h : x.send? r = some x') :
    x.isOpen = true ∧ x.queue.length < x.room ∧ x' = { x with queue := x.queue ++ [r] } := by
  unfold send? at h
  split at h
  · rename_i hc
    simp only [Bool.and_eq_true, decide_eq_true_eq] at hc
    cases h
    exact ⟨hc.1, hc.2, rfl⟩
  · cases h

theorem send?_of_room (r : EngineResult) (ho : x.isOpen = true)
    (hr : x.queue.length < x.room) : x.send? r = some { x with queue := x.queue ++ [r] } := by
  simp [send?, ho, hr]

theorem sendAll_of_room (rs : List EngineResult) (ho : x.isOpen = true)
    (hr : x.queue.length + rs.length ≤ x.room) :
    x.sendAll rs = ({ x with queue := x.queue ++ rs }, []) := by
  induction rs generalizing x with
  | nil => simp [sendAll]
  | cons r rest ih =>
    rw [List.length_cons] at hr
    rw [sendAll, send?_of_room r ho (by omega)]
    refine (ih (x := { x with queue := x.queue ++ [r] }) ho ?_).trans ?_
    · simp only [List.length_append, List.length_cons, List.length_nil]
      omega
    · simp

theorem receive?_eq_some (h : x.receive? = some (r, x')) :
    x.watches = true ∧ ∃ rest, x.queue = r :: rest ∧ x' = x.look r rest := by
  unfold receive? at h
  split at h
  · rename_i hw hq
    cases h
    exact ⟨hw, _, hq, rfl⟩
  · cases h

theorem receive?_of_queue {rest : List EngineResult}
    (hw : x.watches = true) (hq : x.queue = r :: rest) :
    x.receive? = some (r, x.look r rest) := by
  unfold receive?
  rw [hw, hq]

theorem receive?_unwatched (h : x.watches = false) : x.receive? = none := by
  unfold receive?
  rw [h]

theorem receiveAll_unwatched (h : x.watches = false) : x.receiveAll = ([], x) := by
  unfold receiveAll
  cases x.queue.length with
  | zero => rfl
  | succ n => rw [receiveUpTo, receive?_unwatched h]

theorem receiveAll_nil (h : x.queue = []) : x.receiveAll = ([], x) := by
  unfold receiveAll
  rw [h]
  rfl

theorem receiveAll_singleton (hw : x.watches = true)
    (hq : x.queue = [r]) : x.receiveAll = ([r], x.look r []) := by
  unfold receiveAll
  rw [hq]
  simp only [List.length_cons, List.length_nil, receiveUpTo, receive?_of_queue hw hq]

theorem receiveUpTo_done {count : Nat} (h : x.queue.length ≤ count) :
    (x.receiveUpTo count).2.queue = [] ∨ (x.receiveUpTo count).2.watches = false := by
  induction count generalizing x with
  | zero => exact .inl (List.eq_nil_of_length_eq_zero (Nat.le_zero.mp h))
  | succ count ih =>
    rw [receiveUpTo]
    split
    · rename_i hnone
      cases hw : x.watches with
      | false => exact .inr rfl
      | true =>
        cases hq : x.queue with
        | nil => exact .inl rfl
        | cons r rest =>
          rw [receive?_of_queue hw hq] at hnone
          cases hnone
    · rename_i r x' hsome
      obtain ⟨_, rest, hq, rfl⟩ := receive?_eq_some hsome
      rw [hq, List.length_cons] at h
      exact ih (Nat.le_of_succ_le_succ h)

/-- Who has received all there is has no more need of results, or waits for one. -/
theorem receiveAll_done (x : Exchange) :
    x.receiveAll.2.queue = [] ∨ x.receiveAll.2.watches = false :=
  receiveUpTo_done (Nat.le_refl _)

theorem drain?_eq_some (h : x.drain? = some (r, x')) :
    ∃ rest, x.queue = r :: rest ∧ x' = { x with queue := rest } := by
  unfold drain? at h
  split at h
  · rename_i _ hq
    cases h
    exact ⟨_, hq, rfl⟩
  · cases h

theorem drain?_of_queue {rest : List EngineResult}
    (hc : x.isOpen = false) (hq : x.queue = r :: rest) :
    x.drain? = some (r, { x with queue := rest }) := by
  unfold drain?
  rw [hc, hq]

end Regatta.Exchange
