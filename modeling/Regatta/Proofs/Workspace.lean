import Regatta.Proofs.Files.Way
import Regatta.Workspace

/-! What resetting a directory does to the files.

`Outcome` says how a reset ends for a path that has a name in it: an empty directory takes the
place of what was there, or something is in the way and nothing has changed, or directories are made
as far as a name that is too long. A path without a name leads to the current directory or to one
above it. Refused are those paths that have no part left when cleaned (`guarded_iff`). That is one
spelling of the root and one of the current directory; by any other spelling they are emptied. -/
namespace Regatta.Workspace

open FileTree (Above Free Made Topped Walked Sound)

/-- The paths that are refused. -/
def Guarded (path : Text) : Prop := path = [] ∨ Path.clean path = "/" ∨ Path.clean path = "."

instance (path : Text) : Decidable (Guarded path) :=
  inferInstanceAs (Decidable (path = [] ∨ Path.clean path = "/" ∨ Path.clean path = "."))

/-- The paths that can name something new. -/
structure Fits (t : FileTree) (path : Text) : Prop where
  zero : (Path.clean path).any (· == 0) = false
  short : ∀ c ∈ t.place path, c.length ≤ FileTree.maxName

/-- An empty directory takes the place of what was there. What is elsewhere stays, and directories
may be new on the way. -/
structure Emptied (l : Location) (t t' : FileTree) : Prop where
  current : t'.current = t.current
  directory : t'.lookup l = some .directory
  empty : ∀ k, Above l k → t'.lookup k = none
  elsewhere : ∀ k, ¬ l <+: k → t'.lookup k = t.lookup k ∨
    t.lookup k = none ∧ t'.lookup k = some .directory ∧ Above k l
  way : ∀ k, Above k l → t'.lookup k = some .directory

variable {t : FileTree} {path : Text} {up : Nat} {names : List Text}

theorem reset_guarded (t : FileTree) (h : Guarded path) : ∃ f, reset t path = (t, some f) := by
  unfold reset
  by_cases hempty : path.isEmpty = true
  · exact ⟨_, if_pos hempty⟩
  · refine ⟨.refused path, ?_⟩
    have hrefused : (Path.clean path == Text.ofString "/" ||
        Path.clean path == Text.ofString ".") = true := by
      simpa using h.resolve_left (by simpa using hempty)
    rw [if_neg hempty]
    exact if_pos hrefused

theorem not_refused (h : ¬ Guarded path) : path.isEmpty = false ∧
    (Path.clean path == Text.ofString "/" || Path.clean path == Text.ofString ".") = false := by
  simp only [Guarded, not_or] at h
  exact ⟨by simpa using h.1, by simpa using h.2⟩

variable {cleared t' : FileTree} {l : Location}

theorem reset_of_failed {f : Fault} (h : ¬ Guarded path)
    (hclear : clear t (Path.clean path) = (t', some f)) : reset t path = (t', some f) := by
  obtain ⟨hempty, hrefused⟩ := not_refused h
  simp only [reset, hempty, hrefused, hclear, Bool.false_eq_true, if_false]

theorem reset_of_cleared (h : ¬ Guarded path) (hclear : clear t (Path.clean path) = (cleared, none))
    (hsteps : Path.Steps (Path.clean path) up names) : ∃ failure : Option Fault,
      let made := cleared.makeAlong (cleared.turn (Path.clean path) up) (Path.ups up) names
      reset t path = (made.1, failure) ∧ (failure = none ↔ made.2 = none) := by
  obtain ⟨hempty, hrefused⟩ := not_refused h
  obtain ⟨hfiles, hfailure⟩ := FileTree.makeAll_steps (t := cleared) hsteps
  simp only [reset, hempty, hrefused, hclear, Bool.false_eq_true, if_false]
  split <;> rename_i hmake <;> rw [hmake] at hfiles hfailure
  · exact ⟨none, by rw [← hfiles], iff_of_true rfl (hfailure.mp rfl)⟩
  · exact ⟨some _, by rw [← hfiles], iff_of_false (by simp) fun h => by simpa using hfailure.mpr h⟩

theorem reset_stuck {e : FileError} (hnot : ¬ Guarded path)
    (h : t.locate (Path.clean path) = .error e) (he : e ≠ .notFound) :
    ∃ f, reset t path = (t, some f) := by
  refine Exists.imp (fun f => reset_of_failed hnot) ?_
  unfold clear
  rw [h]
  cases e with
  | notFound => contradiction
  | _ =>
    dsimp only
    split
    · exact ⟨_, rfl⟩
    · exact ⟨_, rfl⟩

/-! ### Paths with a name in them -/

theorem guarded_iff : Guarded path ↔ Path.parts (Path.clean path) = [] := by
  constructor
  · rintro (rfl | hroot | hhere)
    · decide
    · rw [hroot]
      decide
    · rw [hhere]
      decide
  · intro hparts
    rw [Path.parts_clean] at hparts
    have hclean := Path.clean_eq path
    cases habs : Path.isAbsolute path with
    | true =>
      rw [habs] at hparts hclean
      rw [if_pos rfl, hparts] at hclean
      exact .inr (.inl hclean)
    | false =>
      rw [habs] at hparts hclean
      rw [if_neg (by simp), if_pos hparts] at hclean
      exact .inr (.inr hclean)

theorem not_guarded (h : Path.Steps (Path.clean path) up names) (hne : names ≠ []) :
    ¬ Guarded path := by
  rw [guarded_iff, h.parts]
  simp [hne]

theorem endsUp_steps (h : Path.Steps (Path.clean path) up names) (hne : names ≠ []) :
    endsUp (Path.clean path) = false := by
  unfold endsUp
  rw [h.parts, List.getLast?_append, List.getLast?_eq_some_getLast hne]
  simpa using (h.plain _ (List.getLast_mem hne)).not_up

theorem place_eq (t : FileTree) (h : Path.Steps (Path.clean path) up names) :
    t.place path = t.turn (Path.clean path) up ++ names := by
  rw [← t.place_clean, t.place_steps h]

theorem clear_located (h : Path.Steps (Path.clean path) up names) (hne : names ≠ [])
    (hlocate : t.locate (Path.clean path) = .ok l) :
    clear t (Path.clean path) = (t.erase l, none) := by
  unfold clear
  rw [hlocate]
  dsimp only
  rw [endsUp_steps h hne, if_neg Bool.false_ne_true]

theorem clear_notFound {p : Text} (h : t.locate p = .error .notFound) : clear t p = (t, none) := by
  unfold clear
  rw [h]

/-- A tree with nothing at or below the place is as good as one where that is removed. -/
theorem emptied_of_made (hcleared : ∀ k, cleared.lookup k = if l <+: k then none else t.lookup k)
    (hcurrent : cleared.current = t.current) (hmade : Made l cleared t')
    (hway : ∀ k, k <+: l → t'.lookup k = some .directory) : Emptied l t t' where
  current := hmade.current.trans hcurrent
  directory := hway l List.prefix_rfl
  empty k hk := by
    rcases hmade.lookup k with hsame | ⟨-, -, hback⟩
    · rw [hsame, hcleared, if_pos hk.upto]
    · exact absurd hback hk.not_prefix
  elsewhere k hk := by
    have hkept := hcleared k
    rw [if_neg hk] at hkept
    rw [← hkept]
    exact (hmade.lookup k).imp_right fun ⟨hnone, hnew, hupto⟩ =>
      ⟨hnone, hnew, hupto, fun heq => hk (heq ▸ List.prefix_rfl)⟩
  way k hk := hway k hk.upto

/-- How a reset ends. -/
inductive Outcome (t : FileTree) (path : Text) (names : List Text) : FileTree × Option Fault → Prop
  | done {t' : FileTree} (free : ∀ k, Above k (t.place path) → t.Free k)
      (proper : ∀ c ∈ names, FileTree.misnamed? c = none)
      (emptied : Emptied (t.place path) t t') (topped : Topped (t.place path) t') :
      Outcome t path names (t', none)
  | failed {f : Fault} (why : (∃ k, Above k (t.place path) ∧ ¬ t.Free k) ∨ ¬ Fits t path) :
      Outcome t path names (t, some f)
  /-- Directories have been made up to a name that is too long. -/
  | halted {t' : FileTree} {f : Fault} (free : ∀ k, Above k (t.place path) → t.Free k)
      (unfit : ¬ Fits t path) (stuck : t'.locate (Path.clean path) = .error .nameTooLong) :
      Outcome t path names (t', some f)

theorem zero_of_clean (h : ∀ c ∈ Path.parts (Path.clean path), 0 ∉ c) :
    (Path.clean path).any (· == 0) = false := by
  have hzero : (0 : UInt8) ∉ Path.clean path := by
    rw [Path.parts_clean] at h
    have hjoin : ∀ {cs : List Text}, (∀ c ∈ cs, 0 ∉ c) → 0 ∉ Text.join [Path.slash] cs :=
      fun hcs hmem => (Text.mem_join hmem).elim (by decide) fun ⟨c, hc, hb⟩ => hcs c hc hb
    rw [Path.clean_eq]
    cases habs : Path.isAbsolute path with
    | true =>
      rw [habs] at h
      exact fun hmem => (List.mem_cons.mp hmem).elim (by decide) (hjoin h)
    | false =>
      rw [habs] at h
      rw [if_neg (by simp)]
      split
      · decide
      · exact hjoin h
  exact List.any_eq_false.mpr fun b hb heq => hzero (beq_iff_eq.mp heq ▸ hb)

theorem fits_ancestor (ht : t.Sound) (hl : t.place path <+: t.current) : Fits t path := by
  obtain ⟨up, names, hsteps⟩ := Path.exists_steps path
  have hname : ∀ c ∈ t.place path, FileTree.Name c := fun c hc =>
    ht.name (by simp [ht.current]) (hl.subset hc)
  refine ⟨zero_of_clean fun c hc => ?_, fun c hc => (hname c hc).length⟩
  rw [hsteps.parts] at hc
  rcases List.mem_append.mp hc with hup | hc
  · rw [List.eq_of_mem_replicate hup]
    decide
  · refine (hname c ?_).zero
    rw [place_eq t hsteps]
    exact List.mem_append_right _ hc

theorem outcome_of_cleared (ht : t.Sound) (h : Path.Steps (Path.clean path) up names)
    (hne : names ≠ []) (hzero : (Path.clean path).any (· == 0) = false)
    (hclear : clear t (Path.clean path) = (cleared, none)) (hcurrent : cleared.current = t.current)
    (hcleared : ∀ k, cleared.lookup k = if t.place path <+: k then none else t.lookup k)
    (hfree : ∀ k, Above k (t.place path) → t.Free k) : Outcome t path names (reset t path) := by
  have hnames : ∀ c ∈ names, c ≠ Text.ofString ".." ∧ 0 ∉ c := fun c hc =>
    ⟨(h.plain c hc).not_up, fun hb => List.any_eq_false.mp hzero 0
      (Path.mem_of_mem_parts (h.parts ▸ List.mem_append_right _ hc) hb) rfl⟩
  have hup : ∀ c ∈ names, c ≠ Text.ofString ".." := fun c hc => (hnames c hc).1
  have hplace := place_eq t h
  have hturn {t' : FileTree} (h' : t'.current = t.current) :
      t'.turn (Path.clean path) up = t.turn (Path.clean path) up := by
    unfold FileTree.turn FileTree.start
    rw [h']
  have hbase : Above (t.turn (Path.clean path) up) (t.place path) :=
    hplace ▸ ⟨List.prefix_append .., by simpa using hne⟩
  have hkept {k : Location} (hk : k <+: t.current) (hbeside : ¬ t.place path <+: k) :
      cleared.lookup k = some .directory := by
    rw [hcleared, if_neg hbeside]
    exact ht.directories hk
  obtain ⟨failure, hreset, hfailure⟩ := reset_of_cleared (not_guarded h hne) hclear h
  rw [hturn hcurrent] at hreset hfailure
  have hlaid := FileTree.laid_makeAlong (t := cleared) (Path.ups up) hnames
    (fun k hk => hkept (hk.trans (t.turn_prefix ..)) fun hback => hbase.not_prefix (hback.trans hk))
    (fun k hk content x => by
      rw [hcleared]
      split
      · exact fun heq => by cases heq
      · rename_i hnot
        exact hfree k ⟨hplace ▸ hk, fun heq => hnot (heq ▸ List.prefix_rfl)⟩ content x)
  have hmade := FileTree.made_makeAlong cleared (t.turn (Path.clean path) up) (Path.ups up) hup
  have htopped := FileTree.makeAlong_topped (Path.ups up) cleared (t.turn (Path.clean path) up) hup
    hne fun e he hbelow =>
      FileTree.lookup_of_mem he (by rw [hcleared, if_pos (hplace ▸ hbelow)])
  rw [← hplace] at hmade htopped
  generalize cleared.makeAlong .. = made at hreset hfailure hlaid hmade htopped
  rw [hreset]
  cases hlaid with
  | whole proper directories =>
    obtain rfl : failure = none := hfailure.mpr rfl
    rw [← hplace] at directories
    exact .done hfree proper (emptied_of_made hcleared hcurrent hmade directories) (htopped rfl)
  | @halted t' x _ long stuck =>
    obtain ⟨c, hc, hlong⟩ := long
    have hunfit : ¬ Fits t path := fun hfits =>
      Nat.not_lt.mpr (hfits.short c (hplace ▸ List.mem_append_right _ hc)) hlong
    have hcurrent' : t'.current = t.current := hmade.current.trans hcurrent
    cases failure with
    | none => cases hfailure.mp rfl
    | some f =>
      refine .halted hfree hunfit ?_
      rw [FileTree.locate_steps h hzero, hturn hcurrent', stuck]
      intro k hk
      rw [hcurrent'] at hk
      have hdirectory := hkept hk fun hback => hunfit (fits_ancestor ht (hback.trans hk))
      rcases hmade.lookup k with hsame | ⟨hnone, -⟩
      · exact hsame.trans hdirectory
      · rw [hdirectory] at hnone
        cases hnone

theorem outcome_reset (ht : t.Sound) (h : Path.Steps (Path.clean path) up names)
    (hne : names ≠ []) : Outcome t path names (reset t path) := by
  have hnot := not_guarded h hne
  have hfailed : ∀ {e}, t.locate (Path.clean path) = .error e → e ≠ .notFound →
      ((∃ k, Above k (t.place path) ∧ ¬ t.Free k) ∨ ¬ Fits t path) →
      Outcome t path names (reset t path) := by
    intro e hlocate he why
    obtain ⟨f, hreset⟩ := reset_stuck hnot hlocate he
    rw [hreset]
    exact .failed why
  cases hzero : (Path.clean path).any (· == 0) with
  | true =>
    have hlocate := t.locate_clean path
    rw [if_pos hzero] at hlocate
    exact hfailed hlocate (by decide) (.inr fun hfits => by simp [hfits.zero] at hzero)
  | false =>
    have hwalked := FileTree.walked_locate h hzero fun k hk => ht.directories hk
    generalize hlocate : t.locate (Path.clean path) = r at hwalked
    cases hwalked with
    | arrived directories =>
      refine outcome_of_cleared ht h hne hzero (clear_located h hne hlocate) rfl
        (t.lookup_erase ?_) fun k hk content x => by simp [directories k hk]
      rw [place_eq t h]
      simp [hne]
    | @lost a above nothing directories =>
      have hbelow : ∀ k, Above a k → t.lookup k = none := fun k hk =>
        ht.nothing_below (by simp [nothing]) hk.upto hk.ne
      refine outcome_of_cleared ht h hne hzero (clear_notFound hlocate) rfl (fun k => ?_)
        fun k hk content x => ?_
      · split
        · rename_i hk
          exact hbelow k ⟨above.upto.trans hk, fun heq => above.not_prefix (heq ▸ hk)⟩
        · rfl
      · -- above the first missing directory all are there, and below it nothing is
        by_cases heq : k = a
        · simp [heq, nothing]
        · rcases List.prefix_or_prefix_of_prefix hk.upto above.upto with hka | hak
          · simp [directories k ⟨hka, heq⟩]
          · simp [hbelow k ⟨hak, Ne.symm heq⟩]
    | blocked above file =>
      exact hfailed hlocate (by decide) (.inl ⟨_, above, fun hfree => hfree _ _ file⟩)
    | overlong mem long =>
      exact hfailed hlocate (by decide) (.inr fun hfits => Nat.not_lt.mpr (hfits.short _ mem) long)

/-! ### A place of its own -/

theorem exists_names (hl : ¬ t.place path <+: t.current) :
    ∃ up names, Path.Steps (Path.clean path) up names ∧ names ≠ [] := by
  obtain ⟨up, names, h⟩ := Path.exists_steps path
  refine ⟨up, names, h, fun hnil => hl ?_⟩
  rw [place_eq t h, hnil, List.append_nil]
  exact t.turn_prefix ..

/-- The directories that lead to the current one are still there after another place is reset. -/
theorem Emptied.directories (h : Emptied l t t') (ht : t.Sound)
    (hl : ¬ l <+: t.current) {k : Location} (hk : k <+: t'.current) :
    t'.lookup k = some .directory := by
  rw [h.current] at hk
  rcases h.elsewhere k fun hlk => hl (hlk.trans hk) with hsame | ⟨-, hnew, -⟩
  · rw [hsame, ht.directories hk]
  · exact hnew

/-- A place that was reset is not changed by another reset. -/
theorem reset_emptied (ht : t.Sound) (hl : ¬ t.place path <+: t.current)
    (hsteps : Path.Steps (Path.clean path) up names) (hne : names ≠ [])
    (hproper : ∀ c ∈ names, FileTree.misnamed? c = none) (h : Emptied (t.place path) t t')
    (htopped : Topped (t.place path) t') : (reset t' path).1 = t' := by
  have hnot := not_guarded hsteps hne
  have hplace : t'.place path = t.place path := by
    unfold FileTree.place FileTree.start
    rw [h.current]
  have hfailed : ∀ {e}, t'.locate (Path.clean path) = .error e → e ≠ .notFound →
      (reset t' path).1 = t' := by
    intro e hlocate he
    obtain ⟨f, hreset⟩ := reset_stuck hnot hlocate he
    rw [hreset]
  cases hzero : (Path.clean path).any (· == 0) with
  | true =>
    have hlocate := t'.locate_clean path
    rw [if_pos hzero] at hlocate
    exact hfailed hlocate (by decide)
  | false =>
    have hwalked := FileTree.walked_locate hsteps hzero fun k hk => h.directories ht hl hk
    rw [hplace] at hwalked
    generalize hlocate : t'.locate (Path.clean path) = r at hwalked
    cases hwalked with
    | arrived =>
      have hturn := place_eq t' hsteps
      rw [hplace] at hturn
      have hroot : t.place path ≠ [] := by
        rw [hturn]
        simp [hne]
      obtain ⟨failure, hreset, -⟩ := reset_of_cleared hnot (clear_located hsteps hne hlocate) hsteps
      have hlast := FileTree.makeAlong_last (t := t'.erase (t.place path)) (Path.ups up)
        (fun c hc => (hsteps.plain c hc).not_up) hne hproper
        (fun k hk => by
          rw [← hturn] at hk
          rw [FileTree.lookup_erase _ hroot, if_neg hk.not_prefix, h.way k hk])
        (by rw [← hturn, FileTree.lookup_erase _ hroot, if_pos List.prefix_rfl])
      rw [← hturn, htopped.again] at hlast
      exact (congrArg Prod.fst hreset).trans (congrArg Prod.fst hlast)
    | lost above nothing =>
      rw [h.way _ above] at nothing
      cases nothing
    | blocked => exact hfailed hlocate (by decide)
    | overlong => exact hfailed hlocate (by decide)

/-- A reset of a place that is neither the current directory nor above it. If it succeeds, the place
is an empty directory, and elsewhere only directories on the way to it are new. It fails if there is
a file on the way, and then nothing has changed; for a path of proper names that is the only reason.
A second reset changes nothing. No refused path is reset, wherever it leads. -/
theorem reset_replaces (ht : t.Sound) (path : Text) :
    (Guarded path → ∃ f, reset t path = (t, some f)) ∧
    (¬ t.place path <+: t.current →
      ((reset t path).2 = none → Emptied (t.place path) t (reset t path).1) ∧
      ((∃ k, Above k (t.place path) ∧ ¬ t.Free k) → ∃ f, reset t path = (t, some f)) ∧
      (Fits t path → (∀ k, Above k (t.place path) → t.Free k) → (reset t path).2 = none) ∧
      (reset (reset t path).1 path).1 = (reset t path).1) := by
  refine ⟨reset_guarded t, fun hl => ?_⟩
  obtain ⟨up, names, hsteps, hne⟩ := exists_names hl
  have houtcome := outcome_reset ht hsteps hne
  generalize hreset : reset t path = r at houtcome
  cases houtcome with
  | done free proper emptied topped =>
    refine ⟨fun _ => emptied, fun ⟨k, hk, hfile⟩ => absurd (free k hk) hfile, fun _ _ => rfl, ?_⟩
    exact reset_emptied ht hl hsteps hne proper emptied topped
  | @failed f why =>
    refine ⟨fun h => (by cases h), fun _ => ⟨f, rfl⟩, fun hfits hfree => ?_, ?_⟩
    · rcases why with ⟨k, hk, hfile⟩ | hlong
      · exact absurd (hfree k hk) hfile
      · exact absurd hfits hlong
    · rw [hreset]
  | halted free unfit stuck =>
    refine ⟨fun h => (by cases h), fun ⟨k, hk, hfile⟩ => absurd (free k hk) hfile,
      fun hfits _ => absurd hfits unfit, ?_⟩
    obtain ⟨f, hstuck⟩ := reset_stuck (not_guarded hsteps hne) stuck (by decide)
    rw [hstuck]

def home : FileTree where
  current := ["home"]
  entries := [(["home"], .directory), (["home", "work"], .directory),
    (["home", "work", "old"], .file "" false), (["home", "notes"], .file "" false)]

theorem reset_replaces_home : (reset home "./work").2 = none ∧
    Emptied (home.place "./work") home (reset home "./work").1 :=
  have hdone : (reset home "./work").2 = none := by decide +kernel
  ⟨hdone, ((reset_replaces (t := home) (by decide +kernel) "./work").2 (by decide +kernel)).1 hdone⟩

/-! ### The current directory and what is above it -/

structure Cleared (l : Location) (t t' : FileTree) : Prop where
  current : t'.current = t.current
  below : ∀ k, Above l k → t'.lookup k = none
  elsewhere : ∀ k, ¬ Above l k → t'.lookup k = t.lookup k

theorem kept_iff {k : Location} : (!(l.isPrefixOf k && k != l)) = true ↔ ¬ Above l k := by
  simp only [Bool.not_eq_true', ← Bool.not_eq_true, Bool.and_eq_true, List.isPrefixOf_iff_prefix,
    bne_iff_ne]
  exact not_congr ⟨fun ⟨hupto, hne⟩ => ⟨hupto, Ne.symm hne⟩, fun h => ⟨h.upto, h.ne.symm⟩⟩

theorem cleared_eraseBelow (t : FileTree) (l : Location) : Cleared l t (t.eraseBelow l) := by
  have hlookup : ∀ k, k ≠ [] → (t.eraseBelow l).lookup k =
      if (!(l.isPrefixOf k && k != l)) = true then t.lookup k else none := fun k hk => by
    rw [FileTree.lookup_entries _ hk, FileTree.lookup_entries _ hk]
    exact FileTree.lookup_filter (fun x => !(l.isPrefixOf x && x != l)) t.entries k
  refine ⟨rfl, fun k hk => ?_, fun k hk => ?_⟩
  · have hroot : k ≠ [] := fun heq => hk.ne ((List.prefix_nil.mp (heq ▸ hk.upto)).trans heq.symm)
    rw [hlookup k hroot, if_neg fun hkept => kept_iff.mp hkept hk]
  · by_cases hroot : k = []
    · rw [hroot]
      rfl
    · rw [hlookup k hroot, if_pos (kept_iff.mpr hk)]

theorem eraseBelow_eq_self :
    t.eraseBelow l = t ↔ ∀ k, Above l k → t.lookup k = none := by
  constructor
  · intro h k hk
    rw [← h]
    exact (cleared_eraseBelow t l).below k hk
  · intro h
    unfold FileTree.eraseBelow
    rw [List.filter_eq_self.mpr fun e he => kept_iff.mpr fun hk =>
      FileTree.lookup_of_mem he (h _ hk)]

theorem locate_ancestor (ht : t.Sound) (hl : t.place path <+: t.current) :
    t.locate (Path.clean path) = .ok (t.place path) := by
  obtain ⟨up, names, hsteps⟩ := Path.exists_steps path
  have hfits := fits_ancestor ht hl
  have hwalked := FileTree.walked_locate hsteps hfits.zero fun k hk => ht.directories hk
  have hdirectory : ∀ {k}, Above k (t.place path) → t.lookup k = some .directory := fun hk =>
    ht.directories (hk.upto.trans hl)
  generalize t.locate (Path.clean path) = r at hwalked
  cases hwalked with
  | arrived => rfl
  | lost above nothing =>
    rw [hdirectory above] at nothing
    cases nothing
  | blocked above file =>
    rw [hdirectory above] at file
    cases file
  | overlong mem long => exact absurd (hfits.short _ mem) (Nat.not_le.mpr long)

/-- A path that ends in a step up: the directory cannot be removed by that name, but everything
below it is. -/
theorem reset_endsUp (ht : t.Sound) (hl : t.place path <+: t.current)
    (hup : endsUp (Path.clean path) = true) :
    reset t path =
      (t.eraseBelow (t.place path), some (.notRemoved (Path.clean path) .notEmpty)) := by
  have hnot : ¬ Guarded path := fun h => by
    rw [endsUp, guarded_iff.mp h] at hup
    cases hup
  refine reset_of_failed hnot ?_
  unfold clear
  rw [locate_ancestor ht hl]
  exact if_pos hup

theorem reset_named (ht : t.Sound) (hl : t.place path <+: t.current) (hnot : ¬ Guarded path)
    (hup : endsUp (Path.clean path) = false) :
    ∃ t', reset t path = (t', none) ∧ Emptied (t.place path) t t' := by
  obtain ⟨up, names, hsteps⟩ := Path.exists_steps path
  have hne : names ≠ [] := fun hnil => by
    rw [guarded_iff, hsteps.parts, hnil, List.append_nil] at hnot
    rw [endsUp, hsteps.parts, hnil, List.append_nil, List.getLast?_eq_some_getLast hnot,
      List.eq_of_mem_replicate (List.getLast_mem hnot)] at hup
    cases hup
  have houtcome := outcome_reset ht hsteps hne
  generalize reset t path = r at houtcome
  cases houtcome with
  | done free proper emptied topped => exact ⟨_, rfl, emptied⟩
  | halted free unfit => exact absurd (fits_ancestor ht hl) unfit
  | failed why =>
    rcases why with ⟨k, hk, hfile⟩ | hlong
    · refine absurd (fun content x hlookup => ?_) hfile
      rw [ht.directories (hk.upto.trans hl)] at hlookup
      cases hlookup
    · exact absurd (fits_ancestor ht hl) hlong

theorem guarded_absolute (habs : Path.isAbsolute path = true) :
    Guarded path ↔ t.place path = [] := by
  obtain ⟨up, names, hsteps⟩ := Path.exists_steps path
  have hup := hsteps.rooted (Path.isAbsolute_clean path ▸ habs)
  subst hup
  rw [guarded_iff, place_eq t hsteps, hsteps.parts, FileTree.turn, FileTree.start_clean,
    FileTree.start, if_pos habs]
  rfl

/-- The current directory and those above it are safe under the refused spellings only. If the path
ends in a step up, everything below the directory is lost, the current directory too if it is there,
and the failure is reported after that. By any other path it is emptied, and nothing is reported. An
absolute path is refused if it leads to the root, and never otherwise. -/
theorem reset_ancestor (ht : t.Sound) (path : Text) (hl : t.place path <+: t.current) :
    ((∃ f, reset t path = (t, some f)) ↔ Guarded path ∨
      endsUp (Path.clean path) = true ∧ ∀ k, Above (t.place path) k → t.lookup k = none) ∧
    (endsUp (Path.clean path) = true →
      ∃ t', reset t path = (t', some (.notRemoved (Path.clean path) .notEmpty)) ∧
        Cleared (t.place path) t t') ∧
    (¬ Guarded path → endsUp (Path.clean path) = false →
      ∃ t', reset t path = (t', none) ∧ Emptied (t.place path) t t') ∧
    (Path.isAbsolute path = true → (Guarded path ↔ t.place path = [])) := by
  refine ⟨⟨fun ⟨f, hreset⟩ => ?_, fun h => ?_⟩, fun hup => ?_, reset_named ht hl, guarded_absolute⟩
  · by_cases hguarded : Guarded path
    · exact .inl hguarded
    · cases hup : endsUp (Path.clean path) with
      | true =>
        rw [reset_endsUp ht hl hup] at hreset
        exact .inr ⟨rfl, eraseBelow_eq_self.mp (congrArg Prod.fst hreset)⟩
      | false =>
        obtain ⟨t', hdone, -⟩ := reset_named ht hl hguarded hup
        rw [hdone] at hreset
        cases hreset
  · rcases h with hguarded | ⟨hup, hnone⟩
    · exact reset_guarded t hguarded
    · have hreset := reset_endsUp ht hl hup
      rw [eraseBelow_eq_self.mpr hnone] at hreset
      exact ⟨_, hreset⟩
  · exact ⟨_, reset_endsUp ht hl hup, cleared_eraseBelow ..⟩

theorem reset_ancestor_home : ∃ t', reset home "../home" = (t', none) ∧
    Emptied (home.place "../home") home t' :=
  (reset_ancestor (t := home) (by decide +kernel) "../home" (by decide +kernel)).2.2.1
    (by decide +kernel) (by decide +kernel)

/-- The current directory is emptied under its own name. -/
theorem reset_current_home : home.place "/home" = home.current ∧ (reset home "/home").2 = none ∧
    home.lookup ["home", "notes"] = some (.file "" false) ∧
    (reset home "/home").1.lookup ["home", "notes"] = none := by
  decide +kernel

end Regatta.Workspace
