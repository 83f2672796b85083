import Regatta.Proofs.Bench
import Regatta.Proofs.Files.Tree

/-! Tools that write the file they are told to write, and no other.

`Tool.Confined` says so of everything that a call does to the files, whether it ends by itself or is
told to stop. An engine is told to write nothing, so a race leaves the files as they are
(`Race.Confined.advance`). -/
namespace Regatta

namespace FileTree

/-- Nothing is changed but what is at these places. -/
structure ChangesOnly (places : Location → Prop) (t t' : FileTree) : Prop where
  current : t'.current = t.current
  lookup : ∀ l, ¬ places l → t'.lookup l = t.lookup l

abbrev Same (t t' : FileTree) : Prop := ChangesOnly (fun _ => False) t t'

variable {places : Location → Prop} {t t' t'' : FileTree}

theorem ChangesOnly.refl (places : Location → Prop) (t : FileTree) : ChangesOnly places t t :=
  ⟨rfl, fun _ _ => rfl⟩

theorem ChangesOnly.trans (h : ChangesOnly places t t') (h' : ChangesOnly places t' t'') :
    ChangesOnly places t t'' :=
  ⟨h'.current.trans h.current, fun l hl => (h'.lookup l hl).trans (h.lookup l hl)⟩

theorem ChangesOnly.weaken {more : Location → Prop} (h : ChangesOnly places t t')
    (hmore : ∀ l, places l → more l) : ChangesOnly more t t' :=
  ⟨h.current, fun l hl => h.lookup l fun hl' => hl (hmore l hl')⟩

/-- Changes nothing but what is at the place that the path names, if it names one. -/
def Writes (target : Option Text) (f : FileTree → FileTree) : Prop :=
  ∀ t, ChangesOnly (fun l => ∃ p, target = some p ∧ t.locate p = .ok l) t (f t)

theorem Writes.same {f : FileTree → FileTree} (h : Writes none f) (t : FileTree) : Same t (f t) :=
  (h t).weaken fun _ ⟨_, hp, _⟩ => by cases hp

theorem changesOnly_write {p content : Text} (h : t.write p content = .ok t') :
    ChangesOnly (fun l => t.locate p = .ok l) t t' := by
  unfold write at h
  cases hlocate : t.locate p with
  | error e =>
    rw [hlocate] at h
    cases h
  | ok l =>
    rw [hlocate] at h
    have hinsert : l ≠ [] ∧ ∃ e, t' = t.insert l e := by
      refine ⟨?_, ?_⟩
      · rintro rfl
        cases h
      · simp only [bind, Except.bind] at h
        split at h
        · cases h
        · cases h
          exact ⟨_, rfl⟩
        · split at h
          · cases h
            exact ⟨_, rfl⟩
          · split at h <;> cases h
    obtain ⟨hl, e, rfl⟩ := hinsert
    refine ⟨rfl, fun k hk => ?_⟩
    rw [t.lookup_insert hl, if_neg]
    rintro rfl
    exact hk rfl

theorem writes_id (target : Option Text) : Writes target id := fun t => .refl _ t

end FileTree

open FileTree (ChangesOnly Same Writes)

/-- Whatever the tool is called for, it changes nothing but the file that it is told to write. -/
structure Tool.Confined (tool : Tool) : Prop where
  opening : ∀ history files i, Writes i.target? (tool history files i).opening
  closing : ∀ history files i, Writes i.target? (tool history files i).closing
  halted : ∀ history files i d, Writes i.target? ((tool history files i).halted d).closing

/-! ### Calls -/

/-- A call in progress that changes nothing but the file `target`, whatever comes. -/
structure Activity.Confined (target : Option Text) (a : Activity) : Prop where
  closing : Writes target a.closing
  halted : ∀ react, a.halted = some react → ∀ d, Writes target (react d).closing

namespace Activity.Confined

variable {target : Option Text} {a : Activity}

theorem proceed (h : a.Confined target) (now : Instant) :
    (a.proceed now).2.Holds (Activity.Confined target) (fun r => Writes target r.closing) := by
  unfold Activity.proceed
  dsimp only
  split
  · exact h.closing
  · exact ⟨h.closing, h.halted⟩

theorem halt (h : a.Confined target) (now : Instant) : (a.halt now).Confined target := by
  unfold Activity.halt
  split
  · exact h
  · rename_i react hreact
    refine ⟨h.halted react hreact _, fun _ hnone => ?_⟩
    cases hnone

theorem advance (h : a.Confined target) (now : Instant) (stop : Bool) :
    (a.advance now stop).2.Holds (Activity.Confined target) (fun r => Writes target r.closing) := by
  have hfirst := h.proceed now
  unfold Activity.advance
  split <;> rename_i heq <;> rw [heq] at hfirst
  · exact hfirst
  · split
    · exact (Activity.Confined.halt hfirst now).proceed now
    · exact hfirst

end Activity.Confined

namespace Bench

theorem confined_call {b : Bench} (h : b.tool.Confined) (i : Invocation) :
    (b.call i).2.Confined i.target? := by
  refine ⟨h.closing _ _ i, ?_⟩
  rintro react ⟨⟩ d
  exact h.halted _ _ i d

end Bench

/-! ### Engines -/

namespace Worker

theorem same_advance {w : Worker} (h : w.activity.Confined none) (b : Bench) (stop : Bool) :
    Same b.files (w.advance b stop).1.files ∧
      (w.advance b stop).2.2.Holds (fun w' => w'.activity.Confined none) (fun _ => True) := by
  have hadvance := h.advance b.now (stop || w.isLate b.now)
  unfold advance
  split <;> rename_i heq <;> rw [heq] at hadvance
  · exact ⟨.refl _ _, hadvance⟩
  · refine ⟨?_, trivial⟩
    dsimp only [Bench.count]
    rw [(note_frame ..).2]
    exact FileTree.Writes.same hadvance b.files

end Worker

namespace Race

/-- No engine that runs changes any file. -/
def Confined (r : Race) : Prop := ∀ w ∈ r.running, w.activity.Confined none

theorem confined_startWorkers {b : Bench} (h : b.tool.Confined) (id circuit : Text)
    (budget : Duration) (engines : List Engine) :
    Same b.files (startWorkers b id circuit budget engines).1.files ∧
      ∀ w ∈ (startWorkers b id circuit budget engines).2, w.activity.Confined none := by
  induction engines generalizing b with
  | nil => exact ⟨.refl _ _, fun w hw => absurd hw List.not_mem_nil⟩
  | cons e rest ih =>
    have hcall : Same b.files (Worker.start b id circuit budget e).1.files :=
      FileTree.Writes.same (h.opening _ _ (.engine id (b.absolute circuit) e)) b.files
    obtain ⟨hsame, hrest⟩ := ih (b := (Worker.start b id circuit budget e).1) h
    refine ⟨hcall.trans hsame, fun w hw => ?_⟩
    rcases List.mem_cons.mp hw with rfl | hw
    · exact Bench.confined_call h (.engine id (b.absolute circuit) e)
    · exact hrest w hw

theorem confined_start {b : Bench} (h : b.tool.Confined) (id circuit : Text) (budget : Duration)
    (engines : List Engine) : Same b.files (start b id circuit budget engines).1.files ∧
      (start b id circuit budget engines).2.Holds Confined (fun _ => True) := by
  unfold start
  split
  · exact ⟨.refl _ _, trivial⟩
  · exact confined_startWorkers h id circuit budget engines

theorem confined_advanceWorkers (b : Bench) (stop : Bool) {ws : List Worker}
    (h : ∀ w ∈ ws, w.activity.Confined none) : Same b.files (advanceWorkers b stop ws).1.files ∧
      ∀ w ∈ (advanceWorkers b stop ws).2.2.2, w.activity.Confined none := by
  induction ws generalizing b with
  | nil => exact ⟨.refl _ _, h⟩
  | cons w rest ih =>
    obtain ⟨hw, hrest⟩ := List.forall_mem_cons.mp h
    obtain ⟨hsame, hstate⟩ := Worker.same_advance hw b stop
    obtain ⟨hothers, hgoing⟩ := ih (w.advance b stop).1 hrest
    rw [advanceWorkers]
    dsimp only
    split <;> rename_i heq <;> rw [heq] at hstate
    · exact ⟨hsame.trans hothers, List.forall_mem_cons.mpr ⟨hstate, hgoing⟩⟩
    · exact ⟨hsame.trans hothers, hgoing⟩

theorem files_conclude (r : Race) (b : Bench) : (r.conclude b).files = b.files := by
  unfold conclude
  dsimp only
  split <;> exact (notes_frame _ _ _ b).2

namespace Confined

variable {r : Race}

theorem step (h : r.Confined) (b : Bench) (stop : Bool) :
    Same b.files (r.step b stop).1.files ∧ (r.step b stop).2.2.Confined := by
  unfold Race.step
  dsimp only
  rw [(notes_frame ..).2]
  exact confined_advanceWorkers b _ h

theorem proceed (h : r.Confined) (b : Bench) (stop : Bool) :
    Same b.files (r.proceed b stop).1.files ∧ (r.proceed b stop).2.2.Confined := by
  have hfirst := h.step b stop
  unfold Race.proceed
  dsimp only
  split
  · have hsecond := Confined.step hfirst.2 (r.step b stop).1 stop
    exact ⟨hfirst.1.trans hsecond.1, hsecond.2⟩
  · exact hfirst

theorem advance (h : r.Confined) (b : Bench) (stop : Bool) :
    Same b.files (r.advance b stop).1.files ∧
      (r.advance b stop).2.2.Holds Race.Confined (fun _ => True) := by
  have hproceed := h.proceed b stop
  unfold Race.advance
  dsimp only
  split
  · rw [files_conclude]
    exact ⟨hproceed.1, trivial⟩
  · exact hproceed

end Confined
end Race
end Regatta
