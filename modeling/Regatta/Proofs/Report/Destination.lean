import Regatta.Cli.Batch
import Regatta.Proofs.Files.Place

/-! Where the report of a batch goes.

What the flag names is taken as it is written. What a manifest names is taken from the directory that
holds it, and only then compared with the dash: so a manifest's dash is the standard output for a
manifest in the current directory only (`join_dash`). -/
namespace Regatta

namespace Path

/-- A dash below a directory is the dash itself for the current directory only. -/
theorem join_dash (p : Text) : join [directory p, "-"] = "-" ↔ directory p = "." := by
  obtain ⟨front, hfront⟩ : ∃ front, directory p = clean front := ⟨_, rfl⟩
  rw [hfront]
  constructor
  · intro hdash
    have hne := clean_ne_nil front
    rw [join_pair hne (by decide)] at hdash
    have hrelative : isAbsolute (clean front ++ slash :: "-") = false := by
      rw [← isAbsolute_clean, hdash]
      rfl
    obtain ⟨up, names, hsteps⟩ := exists_steps front
    -- both lead to the same place, wherever they are followed from
    have hplace : ∀ l : Location, l = climb up l ++ names := by
      intro l
      have hroot : false = true → l = [] := nofun
      have hfollow := follow_resolveParts hroot [] (parts (clean front ++ slash :: "-"))
      rw [← hrelative, ← parts_clean, hdash, parts_append, hsteps.parts, List.reverse_nil,
        List.nil_append, follow_append, follow_append, follow_ups,
        follow_down _ fun c hc => (hsteps.plain c hc).not_up] at hfollow
      exact List.append_cancel_right hfollow
    have hnames : names = [] := (List.append_eq_nil_iff.mp (hplace []).symm).2
    have hup : up = 0 := by
      have hone := congrArg List.length (hplace ["-"])
      simp [hnames, climb] at hone
      omega
    have hnil : parts (clean front) = [] := by rw [hsteps.parts, hup, hnames]; rfl
    have habsolute : isAbsolute front = false := by
      rw [isAbsolute, List.head?_append, List.head?_eq_some_head hne] at hrelative
      rw [← isAbsolute_clean, isAbsolute, List.head?_eq_some_head hne]
      exact hrelative
    rw [parts_clean, habsolute] at hnil
    rw [clean_eq, habsolute, if_neg (by decide), if_pos hnil]
  · intro hhere
    rw [hhere]
    decide

end Path

namespace Cli

/-- The output that a manifest writes down, before it is seen from its directory. -/
def writtenOutput (files : FileTree) (path : Text) : Text :=
  if path.isEmpty then []
  else ((files.read path).toOption.bind fun t => (Manifest.parse t).toOption).elim [] Manifest.output

theorem output_loadManifest {files : FileTree} {path : Text} {m : Manifest}
    (h : loadManifest files path = .ok m) :
    m.output = Manifest.resolveGiven (Path.directory path) (writtenOutput files path) := by
  unfold loadManifest at h
  unfold writtenOutput
  split at h
  · rename_i hpath
    cases h
    rw [if_pos hpath]
    rfl
  · rename_i hpath
    rw [if_neg hpath]
    split at h <;> rename_i hload <;> cases h
    unfold Manifest.load at hload
    split at hload
    · cases hload
    · rename_i text hread
      split at hload
      · cases hload
      · rename_i written hparse
        cases hcheck : written.check with
        | error f =>
          rw [hcheck] at hload
          cases hload
        | ok u =>
          rw [hcheck] at hload
          cases hload
          rw [hread]
          simp [Except.toOption, hparse, Manifest.resolve]

variable {s : Station} {d : Defaults} {g : Given} {p : BatchPlan}

theorem make_output (h : BatchPlan.make s d g = .ok p) :
    ∃ m, loadManifest s.files (g.text Defaults.manifestFlag) = .ok m ∧
      p.output = outputInForce (g.isGiven Defaults.outputFlag.name) (g.text Defaults.outputFlag) m
        p.format := by
  unfold BatchPlan.make at h
  cases hm : loadManifest s.files (g.text Defaults.manifestFlag) with
  | error f =>
    rw [hm] at h
    cases h
  | ok m =>
    rw [hm] at h
    refine ⟨m, rfl, ?_⟩
    simp only [bind, Except.bind, pure, Except.pure, throw, throwThe, MonadExceptOf.throw] at h
    repeat' split at h
    all_goals cases h
    all_goals rfl

theorem text_of_not_given (h : g.isGiven Defaults.outputFlag.name = false) :
    g.text Defaults.outputFlag = [] := by
  unfold Given.isGiven at h
  unfold Given.text Given.value
  rw [Option.isSome_eq_false_iff, Option.isNone_iff_eq_none] at h
  rw [h]
  rfl

/-- What comes of a report: it is printed and no file changes, or nothing is printed and it is written
to the file that the plan names, if that can be done. -/
def Station.Delivers (s : Station) (d : Defaults) (g : Given) (p : BatchPlan) : Prop :=
  ∀ files, openDatabase s.files (g.text (Defaults.databaseFlag ":memory:" "")) = .ok files →
    let report := p.carryOut { s with files } (g.toolSettings d) (g.duration d.transformTimeoutFlag)
    (∀ f, report.fault ≠ some (.workspace f)) →
    let left := report.executor.desk.bench.files
    let text := renderReport p.format report.rows
    if Destination.ofOutput p.output = .standardOutput then
      (s.batch d g).stdout = text ∧ (s.batch d g).files = left
    else (s.batch d g).stdout = [] ∧
      (s.batch d g).files = (left.write p.output text).toOption.getD left

theorem delivers_of_make (h : BatchPlan.make s d g = .ok p) : s.Delivers d g p := by
  intro files hfiles report hfault left text
  have hbatch : (s.batch d g).stdout =
        (deliver (.ofOutput p.output) text left).toOption.elim [] (·.1) ∧
      (s.batch d g).files = (deliver (.ofOutput p.output) text left).toOption.elim left (·.2) := by
    unfold Station.batch
    rw [h]
    dsimp only
    rw [hfiles]
    dsimp only
    split
    · rename_i f hworkspace
      exact absurd hworkspace (hfault f)
    · cases deliver (.ofOutput p.output) text left <;> exact ⟨rfl, rfl⟩
  rw [hbatch.1, hbatch.2]
  unfold deliver
  by_cases hdash : p.output = "-"
  · have hstd : Destination.ofOutput p.output = .standardOutput := by rw [hdash]; rfl
    rw [if_pos hstd, hstd]
    exact ⟨rfl, rfl⟩
  · have hfile : Destination.ofOutput p.output = .file p.output := if_neg (by simpa using hdash)
    rw [if_neg (by rw [hfile]; exact Destination.noConfusion), hfile]
    dsimp only
    cases left.write p.output text with
    | ok files => exact ⟨rfl, rfl⟩
    | error e => exact ⟨rfl, rfl⟩

variable {directory written : Text}

theorem resolvePath_ne_nil (h : written ≠ []) :
    Manifest.resolvePath directory written ≠ [] := by
  unfold Manifest.resolvePath
  split
  · exact h
  · have hkept : [directory, written].filter (!·.isEmpty) ≠ [] :=
      List.ne_nil_of_mem (List.mem_filter.mpr ⟨List.mem_cons_of_mem _ (List.mem_singleton_self _),
        by simpa using h⟩)
    unfold Path.join
    rw [if_neg (by simpa using hkept)]
    exact Path.clean_ne_nil _

/-- The output is the flag's, or what the manifest writes as seen from its directory, or the default
of the format. -/
inductive Chosen (g : Given) (directory written : Text) (f : ReportFormat) : Text → Prop
  | flag (some : g.text Defaults.outputFlag ≠ []) :
    Chosen g directory written f (g.text Defaults.outputFlag)
  | manifest (ungiven : g.isGiven Defaults.outputFlag.name = false) (some : written ≠ []) :
    Chosen g directory written f (Manifest.resolvePath directory written)
  | none (empty : g.text Defaults.outputFlag = [])
      (nothing : g.isGiven Defaults.outputFlag.name = true ∨ written = []) :
    Chosen g directory written f (defaultOutput f)

theorem chosen_output {m : Manifest}
    (hm : m.output = Manifest.resolveGiven directory written) (f : ReportFormat) :
    Chosen g directory written f (outputInForce (g.isGiven Defaults.outputFlag.name)
      (g.text Defaults.outputFlag) m f) := by
  unfold outputInForce override nonEmpty
  cases hgiven : g.isGiven Defaults.outputFlag.name with
  | true =>
    by_cases hflag : g.text Defaults.outputFlag = []
    · simpa [hflag] using Chosen.none hflag (.inl hgiven)
    · simpa [hflag] using Chosen.flag hflag
  | false =>
    have hflag := text_of_not_given hgiven
    by_cases hwritten : written = []
    · simpa [hm, hwritten, hflag, Manifest.resolveGiven] using Chosen.none hflag (.inr hwritten)
    · have hne : Manifest.resolvePath directory written ≠ [] := resolvePath_ne_nil hwritten
      simpa [hm, hwritten, hne, Manifest.resolveGiven] using Chosen.manifest hgiven hwritten

/-- **Where the report of a batch goes.** A flag's dash, and the default of a text report, are the
standard output. What a manifest writes is seen from its directory first, so its dash is the standard
output only if that is the current directory. -/
theorem report_destination (s : Station) (d : Defaults) (g : Given) (p : BatchPlan)
    (h : BatchPlan.make s d g = .ok p) :
    let directory := Path.directory (g.text Defaults.manifestFlag)
    let written := writtenOutput s.files (g.text Defaults.manifestFlag)
    Chosen g directory written p.format p.output ∧
    (Destination.ofOutput p.output = .standardOutput ↔ p.output = "-") ∧
    (defaultOutput p.format = "-" ↔ p.format = .text) ∧
    (g.isGiven Defaults.outputFlag.name = false → written = "-" →
      (Destination.ofOutput p.output = .standardOutput ↔ directory = ".")) ∧
    s.Delivers d g p := by
  intro directory written
  obtain ⟨m, hm, hout⟩ := make_output h
  have hchosen : Chosen g directory written p.format p.output :=
    hout ▸ chosen_output (output_loadManifest hm) p.format
  have hstd : Destination.ofOutput p.output = .standardOutput ↔ p.output = "-" := by
    unfold Destination.ofOutput
    split <;> simp_all
  refine ⟨hchosen, hstd, ?_, fun hgiven hdash => ?_, delivers_of_make h⟩
  · unfold defaultOutput
    by_cases htext : p.format = .text
    · simp [htext]
    · simp only [htext, beq_iff_eq, if_false, iff_false]
      split <;> decide
  · rw [hstd, ← Path.join_dash]
    generalize p.output = out at hchosen
    cases hchosen with
    | flag hflag => exact absurd (text_of_not_given hgiven) hflag
    | manifest => rw [hdash, Manifest.resolvePath, if_neg (by decide)]
    | none _ hnothing =>
      rw [hgiven, hdash] at hnothing
      exact absurd hnothing (by decide)

/-- Below the current directory there is a manifest that writes a dash. -/
def below : Station where
  environment := []
  files := ⟨[], [(["sub"], .directory),
    (["sub", "batch.yaml"], .file "datasets: [a.aig]\noutput: \"-\"\n" false)]⟩
  machine := ⟨[], [], fun _ _ _ _ => {}⟩
  now := 0
  cancelled := false
  randomEnding _ := []
  newId _ := []

def asked (flags : List (Text × FlagValue)) : Given := ⟨("manifest", .text "sub/batch.yaml") :: flags, []⟩

/-- A dash in a manifest is not what it is as a flag. -/
theorem dash_of_manifest_astray :
    ((BatchPlan.make below (.load []) (asked [])).toOption.map fun p => Destination.ofOutput p.output) =
      some (.file "sub/-") ∧
    ((BatchPlan.make below (.load []) (asked [("output", .text "-")])).toOption.map fun p =>
      Destination.ofOutput p.output) = some .standardOutput := by
  decide +kernel

theorem report_destination_below : ∃ p, BatchPlan.make below (.load []) (asked []) = .ok p ∧
    Destination.ofOutput p.output ≠ .standardOutput := by
  have hok : (BatchPlan.make below (.load []) (asked [])).toOption.isSome = true := by
    decide +kernel
  cases h : BatchPlan.make below (.load []) (asked []) with
  | error f =>
    rw [h] at hok
    cases hok
  | ok p =>
    obtain ⟨-, -, -, hdash, -⟩ := report_destination below (.load []) (asked []) p h
    refine ⟨p, rfl, fun hstd => ?_⟩
    have hhere := (hdash (by decide) (by decide +kernel)).mp hstd
    exact absurd hhere (by decide)

end Cli
end Regatta
