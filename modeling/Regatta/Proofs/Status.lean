import Regatta.Status

/-! How the status of a run moves: only along the edges that are allowed, so that the statuses a run
goes through have one shape (`Passes.shape`). -/
namespace Regatta

namespace Status

/-- A run has shown these statuses, and the last is where it is now. -/
inductive Passes : List Status → Status → Prop
  | created : Passes [pending] pending
  | stays {hist : List Status} {s : Status} (h : Passes hist s) : Passes (hist ++ [s]) s
  | moves {hist : List Status} {s t : Status} (h : Passes hist s) (ht : s.allows t = true) :
    Passes (hist ++ [t]) t

variable {hist : List Status} {s t : Status}

theorem allows_cases (h : s.allows t = true) :
    (s = pending ∨ s = running) ∧ (t.terminal = true ∨ (s = pending ∧ t = running)) := by
  simp only [allows, terminal, Bool.or_eq_true, Bool.and_eq_true, decide_eq_true_eq] at h ⊢
  grind

theorem not_allows_of_terminal (h : s.terminal = true) : s.allows t = false := by
  cases ha : s.allows t with
  | false => rfl
  | true =>
    rcases (allows_cases ha).1 with rfl | rfl
    · exact absurd h (by decide)
    · exact absurd h (by decide)

/-- Pending, then perhaps running, then at most one end. -/
def Shape (hist : List Status) : Prop :=
  ∃ a b c last, last.terminal = true ∧ 0 < a ∧
    hist = List.replicate a pending ++ (List.replicate b running ++ List.replicate c last)

/-- Where a run is determines how far it has come in its statuses. -/
inductive Reached : List Status → Status → Prop
  | pending (a : Nat) : Reached (List.replicate (a + 1) pending) pending
  | running (a b : Nat) :
    Reached (List.replicate (a + 1) pending ++ List.replicate (b + 1) running) running
  | ended (a b c : Nat) {t : Status} (ht : t.terminal = true) :
    Reached (List.replicate (a + 1) .pending ++ (List.replicate b .running ++
      List.replicate (c + 1) t)) t

theorem Reached.stays (h : Reached hist s) :
    Reached (hist ++ [s]) s := by
  cases h with
  | pending a =>
    rw [← List.replicate_succ']
    exact .pending (a + 1)
  | running a b =>
    rw [List.append_assoc, ← List.replicate_succ']
    exact .running a (b + 1)
  | ended a b c ht =>
    rw [List.append_assoc, List.append_assoc, ← List.replicate_succ']
    exact .ended a b (c + 1) ht

theorem Reached.moves (h : Reached hist s) (ht : s.allows t = true) : Reached (hist ++ [t]) t := by
  have hto := (allows_cases ht).2
  cases h with
  | pending a =>
    rcases hto with hto | ⟨_, rfl⟩
    · exact .ended a 0 0 hto
    · exact .running a 0
  | running a b =>
    rcases hto with hto | ⟨hs, _⟩
    · rw [List.append_assoc]
      exact .ended a (b + 1) 0 hto
    · exact absurd hs (by decide)
  | ended a b c hterminal =>
    rw [not_allows_of_terminal hterminal] at ht
    cases ht

namespace Passes
variable (h : Passes hist s)
include h

theorem reached : Reached hist s := by
  induction h with
  | created => exact .pending 0
  | stays _ ih => exact ih.stays
  | moves _ ht ih => exact ih.moves ht

theorem getLast? : hist.getLast? = some s := by
  cases h <;> simp

theorem mem : s ∈ hist :=
  List.mem_of_getLast? h.getLast?

/-- **The statuses of a run**: pending, then perhaps running, then one end that it keeps. -/
theorem shape : Shape hist := by
  cases h.reached with
  | pending a => exact ⟨a + 1, 0, 0, completed, by decide, by omega, by simp⟩
  | running a b => exact ⟨a + 1, b + 1, 0, completed, by decide, by omega, by simp⟩
  | ended a b c ht => exact ⟨a + 1, b, c + 1, s, ht, by omega, rfl⟩

end Passes

end Status
end Regatta
