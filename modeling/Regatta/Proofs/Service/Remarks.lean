import Regatta.Proofs.Voices

/-! Remarks, and the orders in which they can be heard.

A remark is a line with the stage or the engine that wrote it. It has to wait for earlier remarks of its
own source, and for those of the stages, which come one after the other and before all engines. Where an
engine takes part twice, though, two workers speak under one name and do not wait for each other. As long
as every remark waits for what it has to wait for (`Patient`), the order in which remarks get somewhere
is one in which every source could have spoken, with stages first (`Arranged.settle`). -/
namespace Regatta

/-- A line with who wrote it: a stage or an engine. -/
structure Remark where
  staged : Bool
  source : Text
  line : Text
deriving DecidableEq

namespace Remark

def text (x : Remark) : Text := x.source ++ ": " ++ x.line

/-- Whether no two workers of a race speak under this name. -/
def single (engines : List Engine) (source : Text) : Bool := engines.countP (·.name == source) ≤ 1

/-- Whether a remark has to wait for one that was made before it. -/
def awaits (engines : List Engine) (x y : Remark) : Bool :=
  y.staged || y.source == x.source && single engines x.source

def of? (staged : Bool) : RaceEvent → Option Remark
  | .line source text => some ⟨staged, source, text⟩
  | .result _ => none

/-- The source is a stage or an engine of the request. -/
def Named (q : Verification.Request) (x : Remark) : Prop :=
  if x.staged = true then Verification.Named q.stages x.source else Race.Named q.engines x.source

end Remark

/-- How far a remark has come. -/
inductive Handling where
  | made
  | numbered (seq : Int)
  | kept
  | passed
deriving DecidableEq

def Handling.begun (h : Handling) : Bool := h != .made

/-! ### Orders that every source could have spoken in -/

/-- Stages before engines. -/
def StagesFirst (xs : List Remark) : Prop :=
  xs.Pairwise fun x y => y.staged = true → x.staged = true

/-- Remarks in an order in which every source could have spoken, with stages first. -/
structure Arranged (engines : List Engine) (made told : List Remark) : Prop where
  perm : told.Perm made
  source : ∀ s, Remark.single engines s = true →
    told.filter (·.source == s) = made.filter (·.source == s)
  stages : StagesFirst told

variable {engines : List Engine}

theorem arranged_nil : Arranged engines [] [] := ⟨.nil, fun _ _ => rfl, .nil⟩

/-- The remarks that have come so far. -/
def settled (p : Handling → Bool) (remarks : List (Remark × Handling)) : List Remark :=
  (remarks.filter fun y => p y.2).map (·.1)

theorem settled_append (p : Handling → Bool) (a b : List (Remark × Handling)) :
    settled p (a ++ b) = settled p a ++ settled p b := by
  simp [settled]

theorem settled_cons (p : Handling → Bool) (x : Remark) (h : Handling)
    (b : List (Remark × Handling)) :
    settled p ((x, h) :: b) = (if p h = true then [x] else []) ++ settled p b := by
  by_cases hp : p h = true <;> simp [settled, hp]

/-- Whatever has begun has waited for what it had to wait for. -/
def Patient (engines : List Engine) (remarks : List (Remark × Handling)) : Prop :=
  remarks.Pairwise fun y x => x.2.begun = true → x.1.awaits engines y.1 = true → y.2 = .passed

/-- Remarks that have just been made wait for everything and are waited for by nothing. -/
theorem Patient.made {remarks : List (Remark × Handling)} (h : Patient engines remarks)
    (more : List Remark) : Patient engines (remarks ++ more.map fun x => (x, .made)) := by
  have hmade : ∀ y ∈ more.map fun x => (x, Handling.made), ¬y.2.begun = true := by
    intro y hy
    obtain ⟨x, -, rfl⟩ := List.mem_map.mp hy
    simp [Handling.begun]
  refine List.pairwise_append.mpr ⟨h, ?_, fun y _ z hz hbegun => absurd hbegun (hmade z hz)⟩
  exact List.Pairwise.imp_of_mem (fun _ hz _ hbegun => absurd hbegun (hmade _ hz))
    (List.pairwise_of_forall fun _ _ => trivial)

theorem settled_made {p : Handling → Bool} (hp : p .made = false)
    (remarks : List (Remark × Handling)) (more : List Remark) :
    settled p (remarks ++ more.map fun x => (x, .made)) = settled p remarks := by
  simp [settled, List.filter_map, Function.comp_def, hp]

section
variable {a b : List (Remark × Handling)} {x : Remark} {h h' : Handling}

/-- A remark that has not been passed on keeps those waiting that come after it. -/
theorem Patient.later (hpatient : Patient engines (a ++ (x, h) :: b)) (hh : h ≠ .passed) :
    ∀ y ∈ b, y.2.begun = true → y.1.awaits engines x = false := by
  intro y hy hbegun
  have hcons := (List.pairwise_append.mp hpatient).2.1
  have hy := (List.pairwise_cons.mp hcons).1 y hy hbegun
  exact Bool.eq_false_iff.mpr fun hawaits => hh (hy hawaits)

theorem Patient.waited (hpatient : Patient engines (a ++ (x, h) :: b)) (hbegun : h.begun = true) :
    ∀ y ∈ a, x.awaits engines y.1 = true → y.2 = .passed := by
  intro y hy
  exact (List.pairwise_append.mp hpatient).2.2 y hy _ (List.mem_cons_self ..) hbegun

theorem Patient.handle (hpatient : Patient engines (a ++ (x, h) :: b)) (hh : h ≠ .passed)
    (hready : ∀ y ∈ a, x.awaits engines y.1 = true → y.2 = .passed) :
    Patient engines (a ++ (x, h') :: b) := by
  have hlater := hpatient.later hh
  obtain ⟨ha, hcons, hacross⟩ := List.pairwise_append.mp hpatient
  refine List.pairwise_append.mpr ⟨ha, List.pairwise_cons.mpr ⟨fun y hy hbegun hawaits => ?_,
    (List.pairwise_cons.mp hcons).2⟩, fun y hy z hz => ?_⟩
  · rw [hlater y hy hbegun] at hawaits
    cases hawaits
  · rcases List.mem_cons.mp hz with rfl | hz
    · exact fun _ => hready y hy
    · exact hacross y hy z (List.mem_cons_of_mem _ hz)

variable {p : Handling → Bool} {told : List Remark}

theorem Arranged.settle
    (harranged : Arranged engines (settled p (a ++ (x, h) :: b)) told) (hp : p h = false)
    (hp' : p h' = true) (hsorted : StagesFirst ((a ++ (x, h) :: b).map (·.1)))
    (hlater : ∀ y ∈ b, p y.2 = true → y.1.awaits engines x = false) :
    Arranged engines (settled p (a ++ (x, h') :: b)) (told ++ [x]) := by
  have hbefore : settled p (a ++ (x, h) :: b) = settled p a ++ settled p b := by
    rw [settled_append, settled_cons, hp]
    rfl
  have hafter : settled p (a ++ (x, h') :: b) = settled p a ++ x :: settled p b := by
    rw [settled_append, settled_cons, if_pos hp']
    rfl
  rw [hbefore] at harranged
  rw [hafter]
  have hmem : ∀ y ∈ settled p b, y.awaits engines x = false := by
    intro y hy
    obtain ⟨e, he, rfl⟩ := List.mem_map.mp hy
    obtain ⟨he, hpe⟩ := List.mem_filter.mp he
    exact hlater e he hpe
  refine ⟨?_, fun s hs => ?_, List.pairwise_append.mpr ⟨harranged.stages,
    List.pairwise_singleton _ _, fun y hy z hz hstaged => ?_⟩⟩
  · exact (List.perm_append_singleton x told).trans
      ((harranged.perm.cons x).trans List.perm_middle.symm)
  · rw [List.filter_append, harranged.source s hs, List.filter_append, List.filter_append]
    by_cases hx : x.source = s
    · -- nothing of this source that was made after `x` can have come
      have hnil : (settled p b).filter (·.source == s) = [] := by
        refine List.filter_eq_nil_iff.mpr fun y hy hsource => ?_
        have hawaits := hmem y hy
        rw [Remark.awaits, hx, beq_iff_eq.mp hsource, hs] at hawaits
        simp at hawaits
      simp [hx, hnil]
    · simp [hx]
  · cases List.mem_singleton.mp hz
    rcases List.mem_append.mp (harranged.perm.mem_iff.mp hy) with hy | hy
    · obtain ⟨e, he, rfl⟩ := List.mem_map.mp hy
      rw [List.map_append, List.map_cons] at hsorted
      exact (List.pairwise_append.mp hsorted).2.2 e.1
        (List.mem_map_of_mem (List.mem_filter.mp he).1) x (List.mem_cons_self ..) hstaged
    · have hawaits := hmem y hy
      rw [Remark.awaits, hstaged] at hawaits
      cases hawaits

theorem Arranged.handle
    (harranged : Arranged engines (settled p (a ++ (x, h) :: b)) told) (hp : p h = p h') :
    Arranged engines (settled p (a ++ (x, h') :: b)) told := by
  rw [settled_append, settled_cons, hp, ← settled_cons, ← settled_append] at harranged
  exact harranged

end

theorem settled_eq {p : Handling → Bool} {remarks : List (Remark × Handling)}
    (h : ∀ x ∈ remarks, p x.2 = true) : settled p remarks = remarks.map (·.1) := by
  rw [settled, List.filter_eq_self.mpr h]

/-- What was made, rearranged, with sources that the request names. -/
structure Orderly (q : Verification.Request) (made told : List Remark) : Prop
    extends Arranged q.engines made told where
  named : ∀ x ∈ told, x.Named q

end Regatta
