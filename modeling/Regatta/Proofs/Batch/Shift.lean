import Regatta.Batch

/-! The schedules of a batch.

A batch is its owner and its workers. The owner empties the work directory, admits one dataset after
the other as long as a slot is free, waits until all slots are free again, looks whether the batch
was cancelled, and tidies up. There is a worker for each dataset that was admitted, who executes it,
stores its row and frees the slot. All go on at once: the moves of a `Shift` may be made in any
order in which each of them is possible. `Kept` is what holds whatever the order. -/
namespace Regatta.Batch

structure Plan where
  datasets : List Text
  parallel : Int
  /-- What comes of a dataset when it is executed. -/
  answer : Text → Execution
  /-- Why the work directory cannot be emptied, if so. -/
  obstacle : Option Workspace.Fault
  /-- Whether there is something to tidy up with. -/
  tidies : Bool

/-- How many slots there are; fewer than one counts as one. -/
def Plan.limit (p : Plan) : Nat := (max 1 p.parallel).toNat

theorem Plan.limit_pos (p : Plan) : 0 < p.limit := by
  unfold Plan.limit
  omega

/-- The row of what came of a dataset. Figures that are known stay known when it failed. -/
def rowOf (dataset : Text) : Execution → Row
  | .answered stats r => .ofResult dataset stats r
  | .failed stats => .ofFailure dataset stats
  | .breakdown => .ofFailure dataset none

/-- The rows of the datasets, one after the other. -/
def Plan.rows (p : Plan) : List Row := p.datasets.map fun d => rowOf d (p.answer d)

def blankRow : Row := ⟨[], none, none, none, [], [], none⟩

/-- How far a dataset has come. -/
inductive Stage where
  | waiting
  | admitted
  | executing
  | ended (x : Execution)
  /-- Its row is stored, and its slot still taken. -/
  | stored
  | released

namespace Stage

/-- What a worker does next, when this comes of its dataset. -/
def next? (x : Execution) : Stage → Option Stage
  | .admitted => some .executing
  | .executing => some (.ended x)
  | .ended _ => some .stored
  | .stored => some .released
  | .waiting | .released => none

def slots : Stage → Nat
  | .waiting | .released => 0
  | _ => 1

def executions : Stage → Nat
  | .executing => 1
  | _ => 0

/-- How many moves the dataset has ahead of it. -/
def ahead : Stage → Nat
  | .waiting => 5
  | .admitted => 4
  | .executing => 3
  | .ended _ => 2
  | .stored => 1
  | .released => 0

def isWritten : Stage → Bool
  | .stored | .released => true
  | _ => false

/-- The rows after a worker has gone on from here. -/
def leave (dataset : Text) (i : Nat) (rows : List Row) : Stage → List Row
  | .ended x => rows.set i (rowOf dataset x)
  | _ => rows

def total (w : Stage → Nat) : List Stage → Nat
  | [] => 0
  | st :: rest => w st + total w rest

variable {st : Stage} {stages : List Stage} {w : Stage → Nat}

theorem total_set {i : Nat} (h : stages[i]? = some st) (st' : Stage) :
    total w (stages.set i st') + w st = total w stages + w st' := by
  induction stages generalizing i with
  | nil => cases h
  | cons first rest ih =>
    cases i with
    | zero =>
      cases h
      simp only [List.set_cons_zero, total]
      omega
    | succ i =>
      have hrest := ih h
      simp only [List.set_cons_succ, total]
      omega

theorem total_le {w' : Stage → Nat} (h : ∀ st, w st ≤ w' st)
    (stages : List Stage) : total w stages ≤ total w' stages := by
  induction stages with
  | nil => exact Nat.le_refl 0
  | cons st rest ih => exact Nat.add_le_add (h st) ih

theorem le_total {i : Nat} (h : stages[i]? = some st) : w st ≤ total w stages := by
  induction stages generalizing i with
  | nil => cases h
  | cons first rest ih =>
    cases i with
    | zero =>
      cases h
      exact Nat.le_add_right _ _
    | succ i => exact Nat.le_trans (ih h) (Nat.le_add_left _ _)

theorem total_eq_zero (h : ∀ st ∈ stages, w st = 0) : total w stages = 0 := by
  induction stages with
  | nil => rfl
  | cons st rest ih =>
    obtain ⟨hst, hrest⟩ := List.forall_mem_cons.mp h
    rw [total, hst, ih hrest]

theorem exists_of_total_ne_zero
    (h : total w stages ≠ 0) : ∃ (i : Nat) (st : Stage), stages[i]? = some st ∧ w st ≠ 0 := by
  refine Classical.byContradiction fun hnone => h (total_eq_zero fun st hst => ?_)
  obtain ⟨i, hi⟩ := List.getElem?_of_mem hst
  exact Classical.byContradiction fun hw => hnone ⟨i, st, hi, hw⟩

theorem next?_eq_some {x : Execution} {st' : Stage} (h : st.next? x = some st') :
    st ≠ .waiting ∧ st' ≠ .waiting ∧ st.slots = 1 ∧ st'.slots ≤ 1 ∧ st.ahead = st'.ahead + 1 := by
  cases st <;> cases h <;> simp [slots, ahead]

theorem slots_eq_zero (h : st.slots = 0) : st = .waiting ∨ st = .released := by
  cases st <;> simp_all [slots]

theorem exists_next? (x : Execution) (h : st.slots ≠ 0) :
    ∃ st', st.next? x = some st' := by
  cases st <;> simp_all [slots, next?]

end Stage

/-- Where the owner of a batch stands. -/
inductive Place where
  | opening
  | launching
  | joined
  | leaving (fault : Option Fault)
  | returned (rows : List Row) (fault : Option Fault)

/-- How many moves the owner has ahead. -/
def Place.ahead : Place → Nat
  | .opening => 4
  | .launching => 3
  | .joined => 2
  | .leaving _ => 1
  | .returned .. => 0

structure Shift where
  place : Place
  stages : List Stage
  rows : List Row
  launched : Nat := 0
  cancelled : Bool := false
  cleanups : Nat := 0

namespace Shift

inductive Move where
  | reset
  | admitNext
  | work (i : Nat)
  | join
  | cancel
  | look
  | tidy

def start (p : Plan) : Shift where
  place := .opening
  stages := p.datasets.map fun _ => .waiting
  rows := p.datasets.map fun _ => blankRow

def reset? (p : Plan) (s : Shift) : Option Shift :=
  match s.place with
  | .opening =>
    match p.obstacle with
    | none => some { s with place := .launching }
    | some f => some { s with place := .returned [] (some (.workspace f)) }
  | _ => none

def admitNext? (p : Plan) (s : Shift) : Option Shift :=
  match s.place with
  | .launching =>
    if s.launched < p.datasets.length ∧ Stage.total Stage.slots s.stages < p.limit then
      some { s with stages := s.stages.set s.launched .admitted, launched := s.launched + 1 }
    else none
  | _ => none

/-- A worker begins to execute its dataset, ends with that, stores the row, or frees its slot. -/
def work? (p : Plan) (s : Shift) (i : Nat) : Option Shift :=
  match p.datasets[i]?, s.stages[i]? with
  | some d, some st =>
    (st.next? (p.answer d)).map fun st' =>
      { s with stages := s.stages.set i st', rows := st.leave d i s.rows }
  | _, _ => none

def join? (p : Plan) (s : Shift) : Option Shift :=
  match s.place with
  | .launching =>
    if s.launched = p.datasets.length ∧ Stage.total Stage.slots s.stages = 0 then
      some { s with place := .joined }
    else none
  | _ => none

def cancel? (s : Shift) : Option Shift :=
  if s.cancelled then none else some { s with cancelled := true }

def look? (s : Shift) : Option Shift :=
  match s.place with
  | .joined => some { s with place := .leaving (if s.cancelled then some .interrupted else none) }
  | _ => none

def tidy? (p : Plan) (s : Shift) : Option Shift :=
  match s.place with
  | .leaving fault => some { s with
      place := .returned s.rows fault
      cleanups := s.cleanups + if p.tidies then 1 else 0 }
  | _ => none

/-- The batch after a move; `none` when the move is not possible now. -/
def step? (p : Plan) (s : Shift) : Move → Option Shift
  | .reset => s.reset? p
  | .admitNext => s.admitNext? p
  | .work i => s.work? p i
  | .join => s.join? p
  | .cancel => s.cancel?
  | .look => s.look?
  | .tidy => s.tidy? p

def next (p : Plan) (s : Shift) (m : Move) : Shift := (s.step? p m).getD s

def run (p : Plan) (s : Shift) : List Move → Shift
  | [] => s
  | m :: rest => run p (s.next p m) rest

theorem run_append (p : Plan) (s : Shift) (a b : List Move) :
    s.run p (a ++ b) = (s.run p a).run p b := by
  induction a generalizing s with
  | nil => rfl
  | cons m rest ih => exact ih _

def Done (p : Plan) (s : Shift) : Prop :=
  s.launched = p.datasets.length ∧ Stage.total Stage.slots s.stages = 0

/-! ### What each move takes and does -/

section Moves

variable {p : Plan} {s s' : Shift}

theorem reset?_eq_some : s.reset? p = some s' ↔ s.place = .opening ∧
    (p.obstacle = none ∧ { s with place := .launching } = s' ∨
      ∃ f, p.obstacle = some f ∧ { s with place := .returned [] (some (.workspace f)) } = s') := by
  unfold reset?
  cases s.place <;> cases p.obstacle <;> simp

theorem admitNext?_eq_some : s.admitNext? p = some s' ↔ s.place = .launching ∧
    s.launched < p.datasets.length ∧ Stage.total Stage.slots s.stages < p.limit ∧
    { s with stages := s.stages.set s.launched .admitted, launched := s.launched + 1 } = s' := by
  unfold admitNext?
  cases s.place <;> simp [and_assoc]

theorem work?_eq_some {i : Nat} : s.work? p i = some s' ↔ ∃ d st st',
    p.datasets[i]? = some d ∧ s.stages[i]? = some st ∧ st.next? (p.answer d) = some st' ∧
    { s with stages := s.stages.set i st', rows := st.leave d i s.rows } = s' := by
  unfold work?
  cases p.datasets[i]? <;> cases s.stages[i]? <;> simp

theorem join?_eq_some : s.join? p = some s' ↔
    s.place = .launching ∧ s.Done p ∧ { s with place := .joined } = s' := by
  unfold join? Done
  cases s.place <;> simp

theorem cancel?_eq_some : s.cancel? = some s' ↔
    s.cancelled = false ∧ { s with cancelled := true } = s' := by
  unfold cancel?
  cases s.cancelled <;> simp

theorem look?_eq_some : s.look? = some s' ↔ s.place = .joined ∧
    { s with place := .leaving (if s.cancelled then some .interrupted else none) } = s' := by
  unfold look?
  cases s.place <;> simp

theorem tidy?_eq_some : s.tidy? p = some s' ↔ ∃ fault, s.place = .leaving fault ∧
    { s with
      place := .returned s.rows fault
      cleanups := s.cleanups + if p.tidies then 1 else 0 } = s' := by
  unfold tidy?
  cases s.place <;> simp

end Moves

def ahead (s : Shift) : Nat :=
  s.place.ahead + Stage.total Stage.ahead s.stages + if s.cancelled then 0 else 1

/-! ### What holds at any time -/

/-- A fault after the work directory was emptied can only be that the batch was cancelled. -/
def Excused (s : Shift) (fault : Option Fault) : Prop :=
  fault = none ∨ fault = some .interrupted ∧ s.cancelled = true

/-- What the owner's place says about the rest. -/
def Placed (p : Plan) (s : Shift) : Place → Prop
  | .opening => s.launched = 0 ∧ s.cleanups = 0
  | .launching => p.obstacle = none ∧ s.cleanups = 0
  | .joined => p.obstacle = none ∧ s.cleanups = 0 ∧ s.Done p
  | .leaving fault => p.obstacle = none ∧ s.cleanups = 0 ∧ s.Done p ∧ s.Excused fault
  | .returned rows fault =>
    (∃ f, p.obstacle = some f ∧ rows = [] ∧ fault = some (.workspace f) ∧ s.launched = 0 ∧
      s.cleanups = 0) ∨
    (p.obstacle = none ∧ rows = s.rows ∧ s.Done p ∧ s.Excused fault ∧
      s.cleanups = if p.tidies then 1 else 0)

structure Kept (p : Plan) (s : Shift) : Prop where
  count : s.stages.length = p.datasets.length
  launched : s.launched ≤ p.datasets.length
  waiting : ∀ (i : Nat) (st : Stage), s.stages[i]? = some st → (st = .waiting ↔ s.launched ≤ i)
  ended : ∀ (i : Nat) (d : Text) (x : Execution), p.datasets[i]? = some d →
    s.stages[i]? = some (.ended x) → x = p.answer d
  rows : s.rows.length = p.datasets.length
  written : ∀ (i : Nat) (d : Text) (st : Stage), p.datasets[i]? = some d →
    s.stages[i]? = some st →
    s.rows[i]? = some (if st.isWritten then rowOf d (p.answer d) else blankRow)
  slots : Stage.total Stage.slots s.stages ≤ p.limit
  placed : s.Placed p s.place

variable {p : Plan} {s s' : Shift}

theorem Kept.placed_at {place : Place} (h : Kept p s) (hplace : s.place = place) :
    s.Placed p place := hplace ▸ h.placed

theorem slots_start (p : Plan) : Stage.total Stage.slots (start p).stages = 0 := by
  refine Stage.total_eq_zero fun st hst => ?_
  obtain ⟨d, _, rfl⟩ := List.mem_map.mp hst
  rfl

theorem kept_start (p : Plan) : Kept p (start p) where
  count := List.length_map _
  launched := Nat.zero_le _
  waiting i st h := by
    simp only [start, List.getElem?_map, Option.map_eq_some_iff] at h
    obtain ⟨d, _, rfl⟩ := h
    exact ⟨fun _ => Nat.zero_le i, fun _ => rfl⟩
  ended i d x hd h := by
    simp only [start, List.getElem?_map, hd, Option.map_some, Option.some.injEq] at h
    cases h
  rows := List.length_map _
  written i d st hd h := by
    simp only [start, List.getElem?_map, hd, Option.map_some, Option.some.injEq] at h ⊢
    rw [← h]
    rfl
  slots := slots_start p ▸ Nat.zero_le _
  placed := ⟨rfl, rfl⟩

theorem getElem?_set_of_some {α : Type} {l : List α} {i : Nat} {a : α} (h : l[i]? = some a)
    (b : α) (j : Nat) : (l.set i b)[j]? = if i = j then some b else l[j]? := by
  rw [List.getElem?_set, if_pos (List.getElem?_eq_some_iff.mp h).1]

namespace Kept
variable (h : Kept p s)
include h

theorem all_waiting (hl : s.launched = 0) : ∀ st ∈ s.stages, st = .waiting := by
  intro st hst
  obtain ⟨i, hi⟩ := List.getElem?_of_mem hst
  exact (h.waiting i st hi).mpr (by omega)

theorem all_released (hd : s.Done p) : ∀ st ∈ s.stages, st = .released := by
  intro st hst
  obtain ⟨i, hi⟩ := List.getElem?_of_mem hst
  have hle : st.slots ≤ 0 := hd.2 ▸ Stage.le_total hi
  rcases Stage.slots_eq_zero (Nat.le_zero.mp hle) with hw | hr
  · have hlt : i < s.stages.length := (List.getElem?_eq_some_iff.mp hi).1
    have hlaunched := (h.waiting i st hi).mp hw
    have hcount := h.count
    have hall := hd.1
    omega
  · exact hr

/-- When all datasets are through, the rows are those of the datasets in order. -/
theorem rows_eq (hd : s.Done p) : s.rows = p.rows := by
  apply List.ext_getElem?
  intro i
  cases hi : p.datasets[i]? with
  | none =>
    have hlen := List.getElem?_eq_none_iff.mp hi
    rw [List.getElem?_eq_none (h.rows ▸ hlen), Plan.rows, List.getElem?_map, hi, Option.map_none]
  | some d =>
    have hlt : i < s.stages.length := h.count ▸ (List.getElem?_eq_some_iff.mp hi).1
    have hst : s.stages[i]? = some .released := by
      rw [List.getElem?_eq_getElem hlt, h.all_released hd _ (List.getElem_mem hlt)]
    rw [h.written i d _ hi hst, Plan.rows, List.getElem?_map, hi]
    rfl

/-- Workers work only while the owner admits datasets or waits for them. -/
theorem launching_of_slots {i : Nat} {st : Stage} (hi : s.stages[i]? = some st)
    (hst : st.slots = 1) : s.place = .launching := by
  have hnone : s.launched ≠ 0 := by
    intro hl
    rw [h.all_waiting hl st (List.mem_of_getElem? hi)] at hst
    cases hst
  have hdone : ¬s.Done p := by
    intro hd
    rw [h.all_released hd st (List.mem_of_getElem? hi)] at hst
    cases hst
  have hplaced := h.placed
  generalize hplace : s.place = place at hplaced ⊢
  cases place with
  | launching => rfl
  | opening =>
    exact absurd hplaced.1 hnone
  | joined =>
    exact absurd hplaced.2.2 hdone
  | leaving fault =>
    exact absurd hplaced.2.2.1 hdone
  | returned rows fault =>
    rcases hplaced with ⟨f, _, _, _, hl, _⟩ | ⟨_, _, hd, _⟩
    · exact absurd hl hnone
    · exact absurd hd hdone

/-! ### One move at a time -/

theorem reset (hm : s.reset? p = some s') : Kept p s' := by
  obtain ⟨hplace, hm⟩ := reset?_eq_some.mp hm
  have hplaced := h.placed_at hplace
  rcases hm with ⟨hobstacle, rfl⟩ | ⟨f, hobstacle, rfl⟩
  · exact { h with placed := ⟨hobstacle, hplaced.2⟩ }
  · exact { h with placed := .inl ⟨f, hobstacle, rfl, rfl, hplaced⟩ }

theorem next_waits (hl : s.launched < p.datasets.length) :
    s.stages[s.launched]? = some .waiting := by
  have hlt : s.launched < s.stages.length := h.count ▸ hl
  have hst := List.getElem?_eq_getElem hlt
  rw [hst, (h.waiting _ _ hst).mpr (Nat.le_refl _)]

theorem admitNext (hm : s.admitNext? p = some s') : Kept p s' := by
  obtain ⟨hplace, hl, hroom, rfl⟩ := admitNext?_eq_some.mp hm
  have hnext := h.next_waits hl
  have hplaced := h.placed_at hplace
  refine { h with count := ?_, launched := hl, waiting := ?_, ended := ?_, written := ?_,
                  slots := ?_, placed := ?_ }
  · exact (List.length_set ..).trans h.count
  · intro i st hi
    rw [getElem?_set_of_some hnext] at hi
    split at hi
    · cases hi
      simp
      omega
    · rw [h.waiting i st hi]
      simp only
      omega
  · intro i d x hd hi
    rw [getElem?_set_of_some hnext] at hi
    split at hi
    · cases hi
    · exact h.ended i d x hd hi
  · intro i d st hd hi
    rw [getElem?_set_of_some hnext] at hi
    split at hi
    · rename_i hsame
      cases hi
      exact h.written i d .waiting hd (hsame ▸ hnext)
    · exact h.written i d st hd hi
  · have hset := Stage.total_set (w := Stage.slots) hnext .admitted
    simp only [Stage.slots] at hset
    simp only
    omega
  · simp only [hplace]
    exact hplaced

/-- A worker writes the row of its own dataset only, and that row is the right one. -/
theorem written_leave {i : Nat} {d : Text} {st st' : Stage}
    (hd : p.datasets[i]? = some d) (hst : s.stages[i]? = some st)
    (hst' : st.next? (p.answer d) = some st') (j : Nat) :
    (st.leave d i s.rows)[j]? =
      if i = j then some (if st'.isWritten then rowOf d (p.answer d) else blankRow)
      else s.rows[j]? := by
  have hrow := h.written i d st hd hst
  cases st with
  | waiting => cases hst'
  | released => cases hst'
  | ended x =>
    cases hst'
    rw [Stage.leave, getElem?_set_of_some hrow, h.ended i d x hd hst]
    rfl
  | _ =>
    cases hst'
    simp only [Stage.leave]
    split
    · rename_i hsame
      exact hsame ▸ hrow
    · rfl

theorem work {i : Nat} (hm : s.work? p i = some s') : Kept p s' := by
  obtain ⟨d, st, st', hd, hst, hst', rfl⟩ := work?_eq_some.mp hm
  obtain ⟨hwas, his, htaken, hslots, _⟩ := Stage.next?_eq_some hst'
  have hplace := h.launching_of_slots hst htaken
  have hplaced := h.placed_at hplace
  have hrows := h.written_leave hd hst hst'
  refine { h with count := ?_, waiting := ?_, ended := ?_, rows := ?_, written := ?_,
                  slots := ?_, placed := ?_ }
  · exact (List.length_set ..).trans h.count
  · intro j st'' hj
    rw [getElem?_set_of_some hst] at hj
    split at hj
    · rename_i hsame
      cases hj
      rw [← hsame, ← h.waiting i st hst]
      exact ⟨fun hw => absurd hw his, fun hw => absurd hw hwas⟩
    · exact h.waiting j st'' hj
  · intro j d' x hd' hj
    rw [getElem?_set_of_some hst] at hj
    split at hj
    · rename_i hsame
      rw [← hsame, hd] at hd'
      cases hd'
      cases hj
      -- Only an execution ends.
      cases st <;> cases hst'
      rfl
    · exact h.ended j d' x hd' hj
  · cases st <;> simp [Stage.leave, h.rows]
  · intro j d' st'' hd' hj
    simp only [hrows j]
    rw [getElem?_set_of_some hst] at hj
    split at hj
    · rename_i hsame
      rw [← hsame, hd] at hd'
      cases hd'
      cases hj
      rw [if_pos hsame]
    · rename_i hother
      rw [if_neg hother]
      exact h.written j d' st'' hd' hj
  · have hset := Stage.total_set (w := Stage.slots) hst st'
    have hbefore := h.slots
    simp only
    omega
  · simp only [hplace]
    exact hplaced

theorem join (hm : s.join? p = some s') : Kept p s' := by
  obtain ⟨hplace, hdone, rfl⟩ := join?_eq_some.mp hm
  have hplaced := h.placed_at hplace
  exact { h with placed := ⟨hplaced.1, hplaced.2, hdone⟩ }

theorem cancel (hm : s.cancel? = some s') : Kept p s' := by
  obtain ⟨_, rfl⟩ := cancel?_eq_some.mp hm
  refine { h with placed := ?_ }
  -- A fault that was excused before is so all the more.
  have hexcused {fault : Option Fault} (hf : s.Excused fault) :
      { s with cancelled := true }.Excused fault := hf.imp_right fun hf => ⟨hf.1, rfl⟩
  have hplaced := h.placed
  generalize hplace : s.place = place at hplaced ⊢
  cases place with
  | opening | launching | joined =>
    exact hplaced
  | leaving fault =>
    exact ⟨hplaced.1, hplaced.2.1, hplaced.2.2.1, hexcused hplaced.2.2.2⟩
  | returned rows fault =>
    rcases hplaced with hrefused | ⟨hobstacle, hrows, hdone, hfault, hcleanups⟩
    · exact .inl hrefused
    · exact .inr ⟨hobstacle, hrows, hdone, hexcused hfault, hcleanups⟩

end Kept

namespace Kept
variable (h : Kept p s)
include h

theorem look (hm : s.look? = some s') : Kept p s' := by
  obtain ⟨hplace, rfl⟩ := look?_eq_some.mp hm
  have hplaced := h.placed_at hplace
  refine { h with placed := ⟨hplaced.1, hplaced.2.1, hplaced.2.2, ?_⟩ }
  cases hc : s.cancelled
  · exact .inl rfl
  · exact .inr ⟨rfl, rfl⟩

theorem tidy (hm : s.tidy? p = some s') : Kept p s' := by
  obtain ⟨fault, hplace, rfl⟩ := tidy?_eq_some.mp hm
  have hplaced := h.placed_at hplace
  obtain ⟨hobstacle, hcleanups, hdone, hfault⟩ := hplaced
  refine { h with placed := .inr ⟨hobstacle, rfl, hdone, hfault, ?_⟩ }
  simp only [hcleanups, Nat.zero_add]

theorem step {m : Move} (hm : s.step? p m = some s') : Kept p s' := by
  cases m with
  | reset => exact h.reset hm
  | admitNext => exact h.admitNext hm
  | work i => exact h.work hm
  | join => exact h.join hm
  | cancel => exact h.cancel hm
  | look => exact h.look hm
  | tidy => exact h.tidy hm

/-! ### To the end -/

/-- Until the owner has returned, it or a worker can go on, without anyone who cancels. -/
theorem progress (hplace : ∀ rows fault, s.place ≠ .returned rows fault) :
    ∃ m s', m ≠ .cancel ∧ s.step? p m = some s' := by
  cases hp : s.place with
  | opening =>
    cases ho : p.obstacle with
    | none => exact ⟨.reset, _, by simp, reset?_eq_some.mpr ⟨hp, .inl ⟨ho, rfl⟩⟩⟩
    | some f => exact ⟨.reset, _, by simp, reset?_eq_some.mpr ⟨hp, .inr ⟨f, ho, rfl⟩⟩⟩
  | launching =>
    by_cases hslots : Stage.total Stage.slots s.stages = 0
    · by_cases hl : s.launched < p.datasets.length
      · have hroom : Stage.total Stage.slots s.stages < p.limit := hslots ▸ p.limit_pos
        exact ⟨.admitNext, _, by simp, admitNext?_eq_some.mpr ⟨hp, hl, hroom, rfl⟩⟩
      · have hall : s.launched = p.datasets.length := by
          have := h.launched
          omega
        exact ⟨.join, _, by simp, join?_eq_some.mpr ⟨hp, ⟨hall, hslots⟩, rfl⟩⟩
    · obtain ⟨i, st, hi, hst⟩ := Stage.exists_of_total_ne_zero hslots
      have hlt : i < p.datasets.length := h.count ▸ (List.getElem?_eq_some_iff.mp hi).1
      obtain ⟨st', hst'⟩ := Stage.exists_next? (p.answer (p.datasets.get ⟨i, hlt⟩)) hst
      exact ⟨.work i, _, by simp,
        work?_eq_some.mpr ⟨_, st, st', List.getElem?_eq_getElem hlt, hi, hst', rfl⟩⟩
  | joined => exact ⟨.look, _, by simp, look?_eq_some.mpr ⟨hp, rfl⟩⟩
  | leaving fault => exact ⟨.tidy, _, by simp, tidy?_eq_some.mpr ⟨fault, hp, rfl⟩⟩
  | returned rows fault => exact absurd hp (hplace rows fault)

/-- Each move leaves fewer moves ahead. -/
theorem ahead_lt {m : Move} (hm : s.step? p m = some s') : s'.ahead < s.ahead := by
  unfold ahead
  cases m with
  | reset =>
    obtain ⟨hplace, ⟨_, rfl⟩ | ⟨f, _, rfl⟩⟩ := reset?_eq_some.mp hm <;> simp [hplace, Place.ahead]
  | admitNext =>
    obtain ⟨_, hl, _, rfl⟩ := admitNext?_eq_some.mp hm
    have hset := Stage.total_set (w := Stage.ahead) (h.next_waits hl) .admitted
    simp only [Stage.ahead] at hset
    simp only
    omega
  | work i =>
    obtain ⟨d, st, st', _, hst, hst', rfl⟩ := work?_eq_some.mp hm
    have hset := Stage.total_set (w := Stage.ahead) hst st'
    have hless := (Stage.next?_eq_some hst').2.2.2.2
    simp only
    omega
  | join =>
    obtain ⟨hplace, _, rfl⟩ := join?_eq_some.mp hm
    simp [hplace, Place.ahead]
  | cancel =>
    obtain ⟨hc, rfl⟩ := cancel?_eq_some.mp hm
    simp [hc]
  | look =>
    obtain ⟨hplace, rfl⟩ := look?_eq_some.mp hm
    simp [hplace, Place.ahead]
  | tidy =>
    obtain ⟨fault, hplace, rfl⟩ := tidy?_eq_some.mp hm
    simp [hplace, Place.ahead]

end Kept

/-- The owner will say that the batch was cancelled, or has said so. -/
structure Told (p : Plan) (s : Shift) : Prop where
  cancelled : s.cancelled = true
  leaving : ∀ fault, s.place = .leaving fault → fault = some .interrupted
  returned : ∀ rows fault, s.place = .returned rows fault → p.obstacle = none →
    fault = some .interrupted

theorem Told.step (h : Told p s) {m : Move} (hm : s.step? p m = some s') : Told p s' := by
  cases m with
  | reset =>
    obtain ⟨_, ⟨_, rfl⟩ | ⟨f, hobstacle, rfl⟩⟩ := reset?_eq_some.mp hm
    · exact ⟨h.cancelled, by simp, by simp⟩
    · exact ⟨h.cancelled, by simp, by simp [hobstacle]⟩
  | admitNext =>
    obtain ⟨_, _, _, rfl⟩ := admitNext?_eq_some.mp hm
    exact ⟨h.cancelled, h.leaving, h.returned⟩
  | work i =>
    obtain ⟨d, st, st', _, _, _, rfl⟩ := work?_eq_some.mp hm
    exact ⟨h.cancelled, h.leaving, h.returned⟩
  | join =>
    obtain ⟨_, _, rfl⟩ := join?_eq_some.mp hm
    exact ⟨h.cancelled, by simp, by simp⟩
  | cancel =>
    obtain ⟨_, rfl⟩ := cancel?_eq_some.mp hm
    exact ⟨rfl, h.leaving, h.returned⟩
  | look =>
    obtain ⟨_, rfl⟩ := look?_eq_some.mp hm
    exact ⟨h.cancelled, by simp [h.cancelled], by simp⟩
  | tidy =>
    obtain ⟨fault, hplace, rfl⟩ := tidy?_eq_some.mp hm
    exact ⟨h.cancelled, by simp, by simp [h.leaving fault hplace]⟩

/-! ### Every schedule -/

theorem run_induct {motive : Shift → Prop}
    (step : ∀ {s s' : Shift}, motive s → ∀ {m : Move}, s.step? p m = some s' → motive s')
    (h : motive s) (moves : List Move) : motive (s.run p moves) := by
  induction moves generalizing s with
  | nil => exact h
  | cons m rest ih =>
    apply ih
    unfold next
    cases hm : s.step? p m with
    | none => exact h
    | some s' => exact step h hm

theorem kept_run (p : Plan) (moves : List Move) : Kept p ((start p).run p moves) :=
  run_induct Kept.step (kept_start p) moves

/-- What can be said of a batch at any time. -/
structure Orderly (p : Plan) (s : Shift) : Prop where
  bounded : Stage.total Stage.executions s.stages ≤ p.limit
  emptied : s.place = .opening ∨ p.obstacle ≠ none → ∀ st ∈ s.stages, st = .waiting
  /-- The owner tidies up once, after the last dataset. -/
  tidied : s.cleanups ≠ 0 → s.cleanups = 1 ∧ ∀ st ∈ s.stages, st = .released
  refused : ∀ f rows fault, p.obstacle = some f → s.place = .returned rows fault →
    rows = [] ∧ fault = some (.workspace f) ∧ s.cleanups = 0
  /-- Any other batch has all rows, whatever was cancelled. -/
  complete : ∀ rows fault, p.obstacle = none → s.place = .returned rows fault →
    rows = p.rows ∧ s.Excused fault ∧ s.cleanups = if p.tidies then 1 else 0
  /-- Who cancels before the owner looks is heard. -/
  heard : s.cancelled = true → 1 < s.place.ahead → ∀ moves rows fault,
    p.obstacle = none → (s.run p moves).place = .returned rows fault → fault = some .interrupted
  progress : (∀ rows fault, s.place ≠ .returned rows fault) →
    ∃ m s', m ≠ .cancel ∧ s.step? p m = some s'
  nearer : ∀ m s', s.step? p m = some s' → s'.ahead < s.ahead

theorem Kept.tidied (h : Kept p s) (hc : s.cleanups ≠ 0) :
    s.cleanups = 1 ∧ ∀ st ∈ s.stages, st = .released := by
  have hplaced := h.placed
  generalize hplace : s.place = place at hplaced
  cases place with
  | opening | launching =>
    exact absurd hplaced.2 hc
  | joined | leaving fault =>
    exact absurd hplaced.2.1 hc
  | returned rows fault =>
    rcases hplaced with ⟨f, _, _, _, _, hnone⟩ | ⟨_, _, hdone, _, honce⟩
    · exact absurd hnone hc
    · refine ⟨?_, h.all_released hdone⟩
      split at honce
      · exact honce
      · exact absurd honce hc

theorem Kept.emptied (h : Kept p s) (ho : s.place = .opening ∨ p.obstacle ≠ none) :
    ∀ st ∈ s.stages, st = .waiting := by
  apply h.all_waiting
  have hplaced := h.placed
  generalize hplace : s.place = place at hplaced
  cases place with
  | opening =>
    exact hplaced.1
  | launching | joined | leaving fault =>
    simp [hplace, hplaced.1] at ho
  | returned rows fault =>
    rcases hplaced with ⟨f, _, _, _, hl, _⟩ | ⟨hnone, _⟩
    · exact hl
    · simp [hplace, hnone] at ho

theorem Kept.orderly (h : Kept p s) : Orderly p s where
  bounded := by
    refine Nat.le_trans (Stage.total_le (fun st => ?_) _) h.slots
    cases st <;> simp [Stage.executions, Stage.slots]
  emptied := h.emptied
  tidied := h.tidied
  refused f rows fault hobstacle hplace := by
    have hplaced := h.placed_at hplace
    rcases hplaced with ⟨f', ho, hrows, hfault, _, hc⟩ | ⟨ho, _⟩
    · rw [hobstacle] at ho
      cases ho
      exact ⟨hrows, hfault, hc⟩
    · rw [hobstacle] at ho
      cases ho
  complete rows fault hobstacle hplace := by
    have hplaced := h.placed_at hplace
    rcases hplaced with ⟨f, ho, _⟩ | ⟨_, hrows, hdone, hfault, hc⟩
    · rw [hobstacle] at ho
      cases ho
    · exact ⟨hrows.trans (h.rows_eq hdone), hfault, hc⟩
  heard hc hplace moves rows fault hobstacle hend := by
    have htold : Told p s :=
      ⟨hc, fun f hf => by simp [hf, Place.ahead] at hplace,
        fun r f hf => by simp [hf, Place.ahead] at hplace⟩
    exact (run_induct Told.step htold moves).returned rows fault hend hobstacle
  progress := h.progress
  nearer m s' hm := h.ahead_lt hm

end Shift
end Regatta.Batch
