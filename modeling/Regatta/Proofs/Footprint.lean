import Regatta.Proofs.Scratch
import Regatta.Proofs.Tool.Confined

/-! What a verification leaves behind.

With a tool that writes what it is told to write, the files outside the scratch directory stay as
they were when it was made, step by step (`Guarded.step`), and at the end the directory is removed
(`Scratch.restored`). So a verification leaves nothing behind but its place of work, whichever way
it comes to its end (`run_tidy`). -/
namespace Regatta.Verification

open Regatta.Path (Canonical Plain parts)
open FileTree (ChangesOnly Same Writes)

variable {scratch : Option Text} {t : FileTree} {v : Verification} {b b' : Bench}

/-! ### While it goes on -/

/-- The places right in the scratch directory. -/
def Within (scratch : Option Text) (l : Location) : Prop :=
  ∃ d name, scratch = some d ∧ l = parts d ++ [name]

structure Inside (scratch : Option Text) (target : Text) : Prop where
  canonical : Canonical target
  within : Within scratch (parts target)

theorem Inside.changesOnly {target : Text} (h : Inside scratch target)
    {f : FileTree → FileTree} (hf : Writes (some target) f) (t : FileTree) :
    ChangesOnly (Within scratch) t (f t) := by
  refine (hf t).weaken ?_
  rintro l ⟨p, ⟨⟩, hl⟩
  rw [FileTree.locate_parts h.canonical hl]
  exact h.within

/-- What goes on writes to the scratch directory only, and so will what comes after it. -/
def Phase.Confined (scratch : Option Text) : Phase → Prop
  | .transforming _ rest target _ a =>
    Inside scratch target ∧ a.Confined (some target) ∧ ∀ s ∈ rest, Path.slash ∉ s.name
  | .racing race => race.Confined
  | .raced _ => True

/-- A verification that has changed nothing outside its scratch directory since the files were `t`,
and is not about to. -/
structure Guarded (scratch : Option Text) (t : FileTree) (v : Verification) (b : Bench) :
    Prop where
  own : v.scratch = scratch
  directory : ∀ d, scratch = some d → Canonical d
  tool : b.tool.Confined
  files : ChangesOnly (Within scratch) t b.files
  phase : v.phase.Confined scratch

def swept (t : FileTree) : (scratch : Option Text) → FileTree
  | none => t
  | some d => (t.removeAll d).toOption.getD t

theorem files_clear (b : Bench) (scratch : Option Text) :
    (clear b scratch).files = swept b.files scratch := by
  cases scratch <;> rfl

/-- Swept after changes in the scratch directory. -/
def Cleared (scratch : Option Text) (t files : FileTree) : Prop :=
  ∃ t', ChangesOnly (Within scratch) t t' ∧ files = swept t' scratch

theorem cleared_of_changes (hown : v.scratch = scratch)
    (h : ChangesOnly (Within scratch) t b.files) :
    Cleared scratch t (clear b v.scratch).files := by
  rw [hown]
  exact ⟨b.files, h, files_clear b scratch⟩

theorem guarded_resume (hscratch : v.scratch = scratch)
    (hdirectory : ∀ d, scratch = some d → Canonical d) (htool : b.tool.Confined)
    (hfiles : ChangesOnly (Within scratch) t b.files) {source : Text} (hsource : Canonical source)
    {stages : List Stage} (hplace : stages ≠ [] → scratch.isSome = true)
    (hnames : ∀ s ∈ stages, Path.slash ∉ s.name) :
    Guarded scratch t (v.resume b source stages).2 (v.resume b source stages).1 := by
  cases stages with
  | nil =>
    obtain ⟨calls, hworks, -⟩ := works_startRace b v.request source
    have hrace := Race.confined_start htool v.request.id source v.request.budget v.request.engines
    unfold resume startRace at *
    cases hstart : Race.start b v.request.id source v.request.budget v.request.engines with
    | mk b' progress =>
    rw [hstart] at hrace hworks
    have hkept := hfiles.trans (hrace.1.weaken fun _ hl => hl.elim)
    cases progress with
    | going race => exact ⟨hscratch, hdirectory, hworks.makes.tool ▸ htool, hkept, hrace.2⟩
    | ended o => exact ⟨hscratch, hdirectory, hworks.makes.tool ▸ htool, hkept, trivial⟩
  | cons s rest =>
    obtain ⟨d, rfl⟩ := Option.isSome_iff_exists.mp (hplace (by simp))
    obtain ⟨hname, hrest⟩ := List.forall_mem_cons.mp hnames
    have hd := hdirectory d rfl
    have hinside : Inside (some d) (target d s source) :=
      ⟨canonical_target hd, d, _, rfl, parts_target hd hsource hname⟩
    have hcall := htool.opening (b.calls.map (·.2)) b.files (stageCall v.request d source s)
    have hactivity := Bench.confined_call htool (stageCall v.request d source s)
    rw [stageCall, Invocation.target?_transform] at hcall hactivity
    have hown : v.scratch.getD "" = d := by
      rw [hscratch]
      rfl
    rw [resume_cons hown]
    exact ⟨hscratch, hdirectory, htool, hfiles.trans (hinside.changesOnly hcall b.files),
      hinside, hactivity, hrest⟩

/-- **A step keeps to the scratch directory, and removes it if it is the last.** -/
theorem Guarded.step (h : Guarded scratch t v b) (stop : Bool) : (v.step b stop).2.2.Holds
    (fun v' => Guarded scratch t v' (v.step b stop).1)
    (fun _ => Cleared scratch t (v.step b stop).1.files) := by
  have hconfined := h.phase
  have hdoes := v.does b stop
  generalize v.step b stop = x at hdoes ⊢
  cases hdoes with
  | @races race _ _ p hphase hadvance =>
    rw [hphase] at hconfined
    obtain ⟨hsame, hrace⟩ := Race.Confined.advance hconfined b stop
    have htool := (race.works_advance b stop).makes.tool
    rw [hadvance] at hsame hrace htool
    refine ⟨h.own, h.directory, htool ▸ h.tool,
      h.files.trans (hsame.weaken fun _ hl => hl.elim), ?_⟩
    cases p with
    | going race' => exact hrace
    | ended result => trivial
  | closes => exact cleared_of_changes h.own h.files
  | @waits _ _ _ deadline a _ _ hphase ha =>
    rw [hphase] at hconfined
    obtain ⟨hinside, hactivity, hnames⟩ := hconfined
    have hnext := hactivity.advance b.now (stop || b.passed deadline)
    rw [ha] at hnext
    exact ⟨h.own, h.directory, h.tool, h.files, hinside, hnext, hnames⟩
  | @fails _ _ _ deadline a _ _ _ _ hphase ha hworks hfiles =>
    rw [hphase] at hconfined
    have hnext := hconfined.2.1.advance b.now (stop || b.passed deadline)
    rw [ha] at hnext
    exact cleared_of_changes h.own (hfiles ▸ h.files.trans (hconfined.1.changesOnly hnext b.files))
  | @resumes _ _ _ deadline a _ _ _ hphase ha hworks hfiles =>
    rw [hphase] at hconfined
    obtain ⟨hinside, hactivity, hnames⟩ := hconfined
    have hnext := hactivity.advance b.now (stop || b.passed deadline)
    rw [ha] at hnext
    obtain ⟨d, _, hd, -⟩ := hinside.within
    exact guarded_resume h.own h.directory (hworks.makes.tool ▸ h.tool)
      (hfiles ▸ h.files.trans (hinside.changesOnly hnext b.files)) hinside.canonical
      (fun _ => hd ▸ rfl) hnames

theorem Guarded.settle (h : Guarded scratch t v b) (fuel : Nat) (stop : Bool) :
    (settle fuel v b stop).2.2.Holds
      (fun v' => Guarded scratch t v' (settle fuel v b stop).1)
      (fun _ => Cleared scratch t (settle fuel v b stop).1.files) := by
  induction fuel generalizing v b with
  | zero => exact h
  | succ fuel ih =>
    have hstep := h.step stop
    rw [Verification.settle]
    split <;> rename_i heq <;> rw [heq] at hstep
    · exact hstep
    · split
      · exact ih hstep
      · exact hstep

theorem Guarded.advance (h : Guarded scratch t v b) (stop : Bool) : (v.advance b stop).2.2.Holds
    (fun v' => Guarded scratch t v' (v.advance b stop).1)
    (fun _ => Cleared scratch t (v.advance b stop).1.files) :=
  h.settle v.depth stop

/-- A verification that comes to an end has removed its scratch directory. -/
theorem Guarded.play {cancelAt : Option Instant} {seen : List RaceEvent}
    {record : Timeline.Record RaceEvent Outcome}
    (hplay : Timeline.play cancelAt b seen v = some record) (h : Guarded scratch t v b)
    (hresult : record.result.isSome = true) : Cleared scratch t record.bench.files := by
  revert h hresult
  refine Timeline.play_induct ?_ ?_ ?_ hplay
  · intro b seen v b' events o hadvance h _
    have hended := h.advance (b.passed cancelAt)
    rw [show v.advance b (b.passed cancelAt) = _ from hadvance] at hended
    exact hended
  · intro b seen v b' events v' _ _ _ hresult
    cases hresult
  · intro b seen v b' events v' now record hadvance _ ih h hresult
    have hgoing := h.advance (b.passed cancelAt)
    rw [show v.advance b (b.passed cancelAt) = _ from hadvance] at hgoing
    exact ih ⟨hgoing.own, hgoing.directory, hgoing.tool, hgoing.files, hgoing.phase⟩ hresult

/-! ### From the start to the end -/

/-- What a verification leaves of the files on its bench. -/
structure Restored (b : Bench) (o : Options) (r : Request) (scratch : Option Text)
    (files : FileTree) : Prop where
  current : files.current = b.files.current
  gone : ∀ d, scratch = some d → ∀ l, parts d <+: l → files.lookup l = none
  /-- Everywhere else things are as they were, but for the place of work and its parents. These may
  be new if there are stages. -/
  kept : ∀ l, (∀ d, scratch = some d → ¬ parts d <+: l) → files.lookup l = b.files.lookup l ∨
    r.stages ≠ [] ∧ b.files.lookup l = none ∧ files.lookup l = some .directory ∧
      l <+: parts (workplace b o)

variable {o : Options} {r : Request} {d : Text} {files : FileTree}

/-- What has happened in the scratch directory does not keep it from being removed. -/
theorem Scratch.swept (h : Scratch b o d b')
    (hchanges : ChangesOnly (Within (some d)) b'.files t) : swept t (some d) = t.erase (parts d) := by
  have hlocated : t.locate d = .ok (parts d) := by
    rw [← h.located]
    refine FileTree.locate_congr h.canonical fun k hk _ => hchanges.lookup k ?_
    rintro ⟨_, name, ⟨⟩, rfl⟩
    have hlength := hk.length_le
    rw [List.length_append, List.length_singleton] at hlength
    omega
  unfold Verification.swept
  dsimp only
  rw [FileTree.removeAll_located hlocated]
  rfl

theorem Scratch.restored (h : Scratch b o d b') (hstages : r.stages ≠ [])
    (hcleared : Cleared (some d) b'.files files) : Restored b o r (some d) files := by
  obtain ⟨t, hchanges, rfl⟩ := hcleared
  obtain ⟨name, hname⟩ := h.below
  have hne : parts d ≠ [] := by simp [hname]
  rw [h.swept hchanges]
  refine ⟨hchanges.current.trans h.made.current, ?_, ?_⟩
  · rintro _ ⟨⟩ l hl
    rw [t.lookup_erase hne, if_pos hl]
  · intro l hl
    have hout := hl d rfl
    have houtside : ¬ Within (some d) l := by
      rintro ⟨_, _, ⟨⟩, rfl⟩
      exact hout (List.prefix_append _ _)
    rw [t.lookup_erase hne, if_neg hout, hchanges.lookup l houtside]
    refine (h.made.lookup l).imp_right fun ⟨hnone, hnew, hprefix⟩ => ⟨hstages, hnone, hnew, ?_⟩
    -- the scratch directory itself is not outside, so what is new is above it
    rw [hname] at hprefix
    rcases List.prefix_concat_iff.mp hprefix with rfl | habove
    · exact absurd (hname ▸ List.prefix_refl _) hout
    · exact habove

theorem restored_of_made (hstages : r.stages ≠ [])
    (h : FileTree.Made (parts (workplace b o)) b.files files) : Restored b o r none files :=
  ⟨h.current, by simp, fun l _ => (h.lookup l).imp_right fun hnew => ⟨hstages, hnew⟩⟩

theorem restored_of_cleared (h : Cleared none b.files files) : Restored b o r none files := by
  obtain ⟨t, hchanges, rfl⟩ := h
  refine ⟨hchanges.current, by simp, fun l _ => .inl (hchanges.lookup l ?_)⟩
  rintro ⟨_, _, hd, -⟩
  cases hd

/-- **A verification tidies up, whichever way it comes to its end.** A stage that cannot be run
changes nothing. Otherwise the stages write to different files in a directory of the verification's
own, and not to the file it starts from; at the end that directory is gone and every other file is
as it was. -/
theorem run_tidy (b : Bench) (o : Options) (r : Request) (cancelAt : Option Instant)
    (hendings : ∀ n, Path.slash ∉ b.randomEnding n) (htool : b.tool.Confined) :
    ((∃ s ∈ r.stages, s.validate ≠ .ok ()) → (run b o r cancelAt).bench = b) ∧
    ((∀ s ∈ r.stages, s.validate = .ok ()) → ∃ scratch calls,
      (run b o r cancelAt).bench.invoked = calls.reverse ++ b.invoked ∧
      (∀ d, scratch = some d → Own b o d) ∧
      Separate scratch (b.absolute r.circuit) calls ∧
      ((run b o r cancelAt).result.isSome = true →
        Restored b o r scratch (run b o r cancelAt).bench.files)) := by
  have hcircuit := b.canonical_absolute r.circuit
  have hworks := works_scratchDirectory b o r.id
  have hstarts := starts b o r
  unfold run
  generalize start b o r = x at hstarts
  refine ⟨?_, fun hvalid => ?_⟩
  · rintro ⟨s, hs, hinvalid⟩
    cases hstarts with
    | invalid => rfl
    | unplaced hvalid | staged hvalid => exact absurd (hvalid s hs) hinvalid
    | direct hnil => exact absurd (hnil ▸ hs) List.not_mem_nil
  · have hnames : ∀ s ∈ r.stages, Path.slash ∉ s.name := fun s hs =>
      Stage.slash_not_mem_name (hvalid s hs)
    cases hstarts with
    | @invalid before after s f hstages _ hs =>
      have hok := hvalid s (by simp [hstages])
      rw [hs] at hok
      cases hok
    | direct hnil hnext =>
      obtain ⟨record, hplay, -, hcalls⟩ := play_startRace cancelAt
        ⟨r, o.transformBudget, none, .raced .failed⟩ b hcircuit []
      have hguarded : Guarded none b.files _ _ := guarded_resume
        (v := ⟨r, o.transformBudget, none, .raced .failed⟩) rfl (by simp) htool (.refl _ _) hcircuit
        (absurd rfl) (by simp)
      rw [hnext] at hplay hguarded
      rw [Timeline.complete_going hplay]
      exact ⟨none, _, hcalls, by simp, separate_engines .., fun hresult =>
        restored_of_cleared (hguarded.play hplay hresult)⟩
    | unplaced _ hne hscratch =>
      rw [hscratch] at hworks
      exact ⟨none, [], hworks.makes.invoked, by simp, separate_engines none _ r.id "" [],
        fun _ => restored_of_made hne (scratchDirectory_failed hscratch)⟩
    | @staged b' _ d _ _ hnil hscratch hnext =>
      rw [hscratch] at hworks
      have hown := scratchDirectory_made hendings hscratch
      have hne : parts d ≠ [] := by
        obtain ⟨name, hname⟩ := hown.below
        simp [hname]
      obtain ⟨calls, record, hplay, hrelay, hcalls⟩ := play_resume cancelAt
        ⟨r, o.transformBudget, some d, .raced .failed⟩ rfl hown.canonical.isAbsolute b' hcircuit
        r.stages []
      have hguarded : Guarded (some d) b'.files _ _ := guarded_resume
        (v := ⟨r, o.transformBudget, some d, .raced .failed⟩) rfl (by simpa using hown.canonical)
        (hworks.makes.tool ▸ htool) (.refl _ _) hcircuit (fun _ => rfl) hnames
      rw [hnext] at hplay hguarded
      rw [Timeline.complete_going hplay]
      refine ⟨some d, calls, ?_, ?_, (hrelay.growing hown.canonical hne hcircuit hnames).1, ?_⟩
      · exact hcalls.trans (congrArg (_ ++ ·) hworks.makes.invoked)
      · rintro _ ⟨⟩
        exact hown.toOwn
      · exact fun hresult => hown.restored hnil (hguarded.play hplay hresult)

theorem confined_obliging : obliging.Confined where
  opening _ _ _ := FileTree.writes_id _
  closing _ _ i files := by
    unfold obliging
    dsimp only
    cases i.target? with
    | none => exact .refl _ _
    | some p =>
      dsimp only [Option.bind]
      cases hwrite : files.write p "aig" with
      | error e => exact .refl _ _
      | ok t => exact (FileTree.changesOnly_write hwrite).weaken fun l hl => ⟨p, rfl, hl⟩
  halted _ _ _ _ := FileTree.writes_id _

/-- A bench with a circuit on it, and with a tool that writes what it is told to write. -/
def circuitBench : Bench :=
  { obligingBench with files := ⟨[], [(["c.aig"], .file "aig" false)]⟩ }

theorem run_tidy_two_stages : circuitBench.tool.Confined ∧
    (∀ s ∈ twoStages.stages, s.validate = .ok ()) ∧
    (run circuitBench ⟨"/w", 0⟩ twoStages none).result.isSome = true ∧ ∃ scratch calls,
      (run circuitBench ⟨"/w", 0⟩ twoStages none).bench.invoked = calls.reverse ∧
      Separate scratch "/c.aig" calls ∧
      outputs calls = (["/w/run-1/s_c.aig", "/w/run-1/t_s_c.aig"] : List Text) ∧
      Restored circuitBench ⟨"/w", 0⟩ twoStages scratch
        (run circuitBench ⟨"/w", 0⟩ twoStages none).bench.files := by
  have hvalid : ∀ s ∈ twoStages.stages, s.validate = .ok () := by decide
  have hending : Path.slash ∉ Text.ofString "1" := by decide
  obtain ⟨b, v, hstart, b', events, outcome, hadvance, hmade⟩ : ∃ b v,
      start circuitBench ⟨"/w", 0⟩ twoStages = (b, .going v) ∧ ∃ b' events o,
        v.advance b (b.passed none) = (b', events, .ended o) ∧
          outputs b'.invoked.reverse =
            (["/w/run-1/s_c.aig", "/w/run-1/t_s_c.aig"] : List Text) :=
    ⟨_, _, rfl, _, _, _, rfl, rfl⟩
  have hrun := run_of_ended hstart hadvance
  have hresult : (run circuitBench ⟨"/w", 0⟩ twoStages none).result.isSome = true := by
    rw [hrun]
    rfl
  obtain ⟨scratch, calls, hcalls, -, hseparate, hrestored⟩ :=
    (run_tidy circuitBench ⟨"/w", 0⟩ twoStages none (fun _ => hending) confined_obliging).2
      hvalid
  have hinvoked := hcalls.trans (List.append_nil _)
  refine ⟨confined_obliging, hvalid, hresult, scratch, calls, hinvoked, hseparate, ?_,
    hrestored hresult⟩
  rw [← hmade, ← List.reverse_reverse calls, ← hinvoked, hrun]

end Regatta.Verification
