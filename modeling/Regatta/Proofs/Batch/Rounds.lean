import Mathlib.Logic.Relation
import Regatta.Batch
import Regatta.Proofs.Clock

/-! The rounds of a batch, act by act.

Whatever a batch does to its executor is one of the four things that `Act` names; `play_acts` says
so of a whole run. A run comes to an end when the executor keeps its word (`Executor.Steady`): each
round collects a dataset, launches one, or brings the executor nearer to the end of those that are
under way. -/
namespace Regatta

/-- What a batch may ask of an executor between two looks at it. -/
inductive Executor.Change {κ : Type} (e : Executor κ) : κ → κ → Prop where
  | start (k : κ) (dataset : Text) : Change e k (e.start k dataset).1
  | note (k : κ) (level : Log.Level) (message : Text) : Change e k (e.note k level message)
  | settle (k : κ) : Change e k (e.settle k)
  | turn {k : κ} {t : Instant} (h : e.wake k = some t) : Change e k (e.setNow k t)

/-- An executor that ends what it has started, always with the same answer for a dataset. -/
structure Executor.Steady {κ : Type} (e : Executor κ) (answer : Text → Execution) where
  /-- The ticket was given out for the dataset. -/
  Holds : κ → (ticket : Nat) → (dataset : Text) → Prop
  /-- How often the clock can be turned at most before a dataset is started. -/
  left : κ → Nat
  started : ∀ k d, Holds (e.start k d).1 (e.start k d).2 d
  kept : ∀ {k k' t d}, e.Change k k' → Holds k t d → Holds k' t d
  answers : ∀ {k t d x}, Holds k t d → e.poll k t = some x → x = answer d
  lasting : ∀ {k k' t d}, e.Change k k' → Holds k t d → (e.poll k t).isSome = true →
    (e.poll k' t).isSome = true
  settles : ∀ k, left (e.settle k) ≤ left k
  turns : ∀ {k t}, e.wake k = some t → left (e.setNow k t) < left k
  wakes : ∀ {k t d}, Holds k t d → e.poll k t = none → e.wake k ≠ none

namespace Batch

variable {κ : Type} {e : Executor κ} {n : Nat}

/-- The things that a batch does, one at a time. -/
inductive Act (e : Executor κ) (n : Nat) : κ × Batch → κ × Batch → Prop where
  | collect {k : κ} {x : Nat × Text × Nat} {ended : Execution} {waiting : List (Nat × Text)}
      {before after : List (Nat × Text × Nat)} {rows : List (Nat × Row)}
      (h : e.poll k x.2.2 = some ended) :
      Act e n (k, ⟨waiting, before ++ x :: after, rows⟩)
        (e.note k (row x.2.1 ended).2.1 (row x.2.1 ended).2.2,
          ⟨waiting, before ++ after, rows ++ [(x.1, (row x.2.1 ended).1)]⟩)
  | launch {k : κ} {x : Nat × Text} {waiting : List (Nat × Text)}
      {running : List (Nat × Text × Nat)} {rows : List (Nat × Row)} (h : running.length < n) :
      Act e n (k, ⟨x :: waiting, running, rows⟩) (launch e (k, ⟨waiting, running, rows⟩) x)
  | settle (k : κ) (b : Batch) : Act e n (k, b) (e.settle k, b)
  | turn {k : κ} {t : Instant} (b : Batch) (h : e.wake k = some t) :
      Act e n (k, b) (e.setNow k t, b)

abbrev Acts (e : Executor κ) (n : Nat) : κ × Batch → κ × Batch → Prop :=
  Relation.ReflTransGen (Act e n)

theorem collectOne_none {s : κ × Batch} {x : Nat × Text × Nat} (hx : e.poll s.1 x.2.2 = none) :
    collectOne e s x = (s.1, { s.2 with running := s.2.running ++ [x] }) := by
  simp only [collectOne, hx]

theorem collectOne_some {s : κ × Batch} {x : Nat × Text × Nat} {ended : Execution}
    (hx : e.poll s.1 x.2.2 = some ended) :
    collectOne e s x = (e.note s.1 (row x.2.1 ended).2.1 (row x.2.1 ended).2.2,
      { s.2 with rows := s.2.rows ++ [(x.1, (row x.2.1 ended).1)] }) := by
  simp only [collectOne, hx]

theorem foldl_collectOne_acts (pending : List (Nat × Text × Nat)) (k : κ) (b : Batch) :
    Acts e n (k, { b with running := b.running ++ pending })
      (pending.foldl (collectOne e) (k, b)) := by
  induction pending generalizing k b with
  | nil =>
    rw [List.append_nil]
    exact .refl
  | cons x rest ih =>
    rw [List.foldl_cons]
    cases hx : e.poll k x.2.2 with
    | none =>
      have hrest := ih k { b with running := b.running ++ [x] }
      simp only [List.append_assoc, List.singleton_append] at hrest
      rw [collectOne_none hx]
      exact hrest
    | some ended =>
      rw [collectOne_some hx]
      exact .head (.collect hx)
        (ih _ { b with rows := b.rows ++ [(x.1, (row x.2.1 ended).1)] })

theorem collect_acts (s : κ × Batch) : Acts e n s (collect e s) :=
  foldl_collectOne_acts s.2.running s.1 { s.2 with running := [] }

theorem foldl_launch_acts (pending : List (Nat × Text)) (s : κ × Batch)
    (h : s.2.running.length + pending.length ≤ n) :
    Acts e n (s.1, { s.2 with waiting := pending ++ s.2.waiting })
      (pending.foldl (launch e) s) := by
  induction pending generalizing s with
  | nil => exact .refl
  | cons x rest ih =>
    rw [List.length_cons] at h
    have hroom : s.2.running.length < n := by omega
    refine .head (.launch hroom) (ih (launch e s x) ?_)
    simp only [launch, List.length_append, List.length_singleton]
    omega

theorem fill_acts (s : κ × Batch) : Acts e n s (fill e n s) := by
  by_cases hroom : s.2.running.length ≤ n
  · have htake := List.length_take_le (n - s.2.running.length) s.2.waiting
    have hacts : Acts e n _ (fill e n s) :=
      foldl_launch_acts (s.2.waiting.take (n - s.2.running.length))
        (s.1, { s.2 with waiting := s.2.waiting.drop (n - s.2.running.length) })
        (by simp only; omega)
    simp only [List.take_append_drop] at hacts
    exact hacts
  · have hnone : n - s.2.running.length = 0 := by omega
    simp only [fill, hnone, List.take_zero, List.drop_zero, List.foldl_nil]
    exact .refl

theorem round_acts (s : κ × Batch) : Acts e n s (round e n s) :=
  ((collect_acts s).trans (fill_acts _)).tail (.settle _ _)

section Play

variable {s : κ × Batch}

theorem play_idle (hlast : (round e n s).2.isOver = false)
    (hready : ready e (round e n s) = false) (hwake : e.wake (round e n s).1 = none) :
    play e n s = some (round e n s) := by
  rw [play]
  simp [hlast, hready, hwake]

/-- What is known of a batch that was played, from its last round back to the first. -/
@[elab_as_elim]
theorem play_induct {motive : κ × Batch → κ × Batch → Prop}
    (last : ∀ s, (round e n s).2.isOver = true → motive s (round e n s))
    (again : ∀ s s', (round e n s).2.isOver = false → ready e (round e n s) = true →
      motive (round e n s) s' → motive s s')
    (idle : ∀ s, (round e n s).2.isOver = false → ready e (round e n s) = false →
      e.wake (round e n s).1 = none → motive s (round e n s))
    (turn : ∀ s t s', (round e n s).2.isOver = false → ready e (round e n s) = false →
      e.wake (round e n s).1 = some t →
      motive (e.settle (e.setNow (round e n s).1 t), (round e n s).2) s' → motive s s')
    {s' : κ × Batch} (h : play e n s = some s') : motive s s' := by
  refine play.partial_correctness e (fun m s s' => m = n → motive s s')
    (fun play ih m s s' hplay hm => ?_) n s s' h rfl
  subst hm
  simp only at hplay
  split at hplay
  · rename_i hlast
    cases hplay
    exact last s hlast
  · rename_i hlast
    have hlast := eq_false_of_ne_true hlast
    split at hplay
    · rename_i hready
      exact again s s' hlast hready (ih _ _ _ hplay rfl)
    · rename_i hready
      have hready := eq_false_of_ne_true hready
      split at hplay
      · rename_i hwake
        cases hplay
        exact idle s hlast hready hwake
      · rename_i t hwake
        exact turn s t s' hlast hready hwake (ih _ _ _ hplay rfl)

end Play

/-! ### The last round -/

theorem foldl_launch_lengths (pending : List (Nat × Text)) (s : κ × Batch) :
    (pending.foldl (launch e) s).2.waiting = s.2.waiting ∧
      (pending.foldl (launch e) s).2.running.length = s.2.running.length + pending.length := by
  induction pending generalizing s with
  | nil => exact ⟨rfl, rfl⟩
  | cons x rest ih =>
    obtain ⟨hwaiting, hrunning⟩ := ih (launch e s x)
    have hlaunch : (launch e s x).2.running.length = s.2.running.length + 1 :=
      List.length_append
    refine ⟨hwaiting, hrunning.trans ?_⟩
    rw [hlaunch, List.length_cons]
    omega

theorem fill_lengths (s : κ × Batch) :
    (fill e n s).2.waiting = s.2.waiting.drop (n - s.2.running.length) ∧
      (fill e n s).2.running.length =
        s.2.running.length + min (n - s.2.running.length) s.2.waiting.length := by
  obtain ⟨hwaiting, hrunning⟩ :=
    foldl_launch_lengths (e := e) (s.2.waiting.take (n - s.2.running.length))
      (s.1, { s.2 with waiting := s.2.waiting.drop (n - s.2.running.length) })
  exact ⟨hwaiting, hrunning.trans (by rw [List.length_take])⟩

theorem fill_full (s : κ × Batch) :
    (fill e n s).2.waiting = [] ∨ n ≤ (fill e n s).2.running.length := by
  obtain ⟨hwaiting, hrunning⟩ := fill_lengths (e := e) (n := n) s
  rw [hwaiting, hrunning, List.drop_eq_nil_iff]
  omega

variable {answer : Text → Execution} (h : e.Steady answer)

/-- The executor answers for every dataset under way. -/
def Held (s : κ × Batch) : Prop := ∀ x ∈ s.2.running, h.Holds s.1 x.2.2 x.2.1

theorem Held.act {s s' : κ × Batch} (hs : Held h s) (hact : Act e n s s') : Held h s' := by
  cases hact with
  | collect =>
    intro y hy
    refine h.kept (.note _ _ _) (hs y ?_)
    rcases List.mem_append.mp hy with hbefore | hafter
    · exact List.mem_append_left _ hbefore
    · exact List.mem_append_right _ (List.mem_cons_of_mem _ hafter)
  | launch =>
    intro y hy
    rcases List.mem_append.mp hy with hy | hy
    · exact h.kept (.start _ _) (h.kept (.note _ _ _) (hs y hy))
    · rw [List.mem_singleton.mp hy]
      exact h.started _ _
  | settle k b => exact fun y hy => h.kept (.settle k) (hs y hy)
  | turn b hwake => exact fun y hy => h.kept (.turn hwake) (hs y hy)

theorem Held.acts {s s' : κ × Batch} (hs : Held h s) (hacts : Acts e n s s') : Held h s' := by
  induction hacts with
  | refl => exact hs
  | tail _ hact ih => exact ih.act h hact

/-- After a round that was not the last, with nothing to collect, the executor has a time to wake.
-/
theorem Held.wakes {s : κ × Batch} (hn : 0 < n) (hs : Held h s)
    (hlast : (round e n s).2.isOver = false) (hready : ready e (round e n s) = false) :
    e.wake (round e n s).1 ≠ none := by
  have hheld : Held h (round e n s) := hs.acts h (round_acts s)
  cases hrunning : (round e n s).2.running with
  | nil =>
    rcases fill_full (e := e) (n := n) (collect e s) with hnone | hfull
    · have hwaiting : (round e n s).2.waiting = [] := hnone
      simp [isOver, hwaiting, hrunning] at hlast
    · have hlen : n ≤ (round e n s).2.running.length := hfull
      rw [hrunning] at hlen
      exact absurd hlen (Nat.not_le.mpr hn)
  | cons x rest =>
    have hx : x ∈ (round e n s).2.running := hrunning ▸ List.mem_cons_self
    refine h.wakes (hheld x hx) ?_
    have hpoll := List.any_eq_false.mp hready x hx
    simpa using hpoll

section Rehearsed

variable {script : Text → Duration × Execution} {r r' : Rehearsal} {t : Nat} {d : Text}

/-- The ticket stands for the answer that the script has for the dataset. -/
def Rehearsal.Holds (script : Text → Duration × Execution) (r : Rehearsal) (t : Nat) (d : Text) :
    Prop :=
  ∃ ends, r.started[t]? = some (ends, (script d).2)

def Rehearsal.ahead (r : Rehearsal) : List Instant :=
  (r.started.toList.map (·.1)).filter (r.bench.now < ·)

end Rehearsed
end Batch
end Regatta
