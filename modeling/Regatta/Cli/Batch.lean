import Regatta.Batch
import Regatta.Cli.Station
import Regatta.Manifest
import Regatta.Store.Database
import Regatta.Tool.Cleanup

/-! Batches on the command line.

What a flag says wins over the manifest, and the manifest over the environment. -/
namespace Regatta.Cli

/-- A batch with everything decided. -/
structure BatchPlan where
  datasets : List Text
  engines : List Engine
  timeout : Duration
  stages : List Stage
  parallel : Int
  source : Stats.Source
  workDirectory : Text
  format : ReportFormat
  output : Text

inductive Destination where
  | standardOutput
  | file (path : Text)
deriving DecidableEq, Repr

/-- An output that is written as a dash is the standard output. -/
def Destination.ofOutput (output : Text) : Destination :=
  if output == "-" then .standardOutput else .file output

/-- The output of a batch that names none. -/
def defaultOutput (f : ReportFormat) : Text :=
  if f == .text then "-" else if f == .json then "dataset_results.json" else Report.defaultName

/-- The value of a flag, unless it was not given and the manifest has one. -/
def override (given : Bool) (flag : α) (manifest : Option α) : α :=
  if given then flag else manifest.getD flag

/-- A text of a manifest; an empty one is none. -/
def nonEmpty (t : Text) : Option Text := if t.isEmpty then none else some t

/-- A number of a manifest; zero is none. -/
def positive (n : Int) : Option Int := if 0 < n then some n else none

/-- The manifest that a flag names; without one there is nothing in it. -/
def loadManifest (files : FileTree) (path : Text) : Except Failure Manifest :=
  if path.isEmpty then .ok {}
  else match Manifest.load files path with
    | .ok m => .ok m
    | .error f => .error (misuseBecause "failed to load manifest" f.message)

def outputInForce (given : Bool) (flag : Text) (m : Manifest) (f : ReportFormat) : Text :=
  let output := override given flag (nonEmpty m.output)
  if output.isEmpty then defaultOutput f else output

/-- The stages that are in force: those of flags, or else of the manifest, or else the default. -/
def stagesInForce (d : Given) (m : Manifest) : Except Failure (List Stage) :=
  let flag := Defaults.stageFlag ""
  let noTransform := d.toggle (Defaults.noTransformFlag "")
  match m.stages with
  | some stages =>
    if !d.isGiven flag.name && !noTransform then .ok stages
    else readStages (d.items flag) noTransform
  | none => readStages (d.items flag) noTransform

def BatchPlan.make (s : Station) (d : Defaults) (g : Given) : Except Failure BatchPlan := do
  let m ← loadManifest s.files (g.text Defaults.manifestFlag)
  let choose {α : Type} (f : Flag) (read : Given → Flag → α) (manifest : Option α) : α :=
    override (g.isGiven f.name) (read g f) manifest
  let datasets := m.datasets.getD [] ++ g.arguments
  if datasets.isEmpty then
    throw (misuseBecause "nothing to verify" "no datasets given: pass paths or --manifest")
  let named := m.engines.filter (!·.isEmpty)
  let engines ← readEngines (choose (d.enginesFlag "") Given.items named)
  let timeout ← readTimeout (choose (d.timeoutFlag "") Given.duration (positive m.timeout))
  let source ← readSource
    (choose (d.statsSourceFlag "stats-source" "") Given.text (nonEmpty m.statsSource))
  let parallel := choose d.parallelFlag Given.number (positive m.parallel)
  if parallel < 1 then throw (misuse "parallel must be at least 1")
  let stages ← stagesInForce g m
  let formatName := choose (Defaults.formatFlag .csv "") Given.text (nonEmpty m.format)
  let format ← match ReportFormat.parse formatName with
    | .ok f => pure f
    | .error e => throw (misuseBecause "invalid format" e.message)
  return {
    datasets, engines, timeout, stages, parallel, source, format
    workDirectory := choose (d.workDirectoryFlag "") Given.text (nonEmpty m.workDirectory)
    output := outputInForce (g.isGiven Defaults.outputFlag.name) (g.text Defaults.outputFlag) m format }

/-! ### Carrying it out -/

def openDatabase (files : FileTree) (path : Text) : Except Failure FileTree :=
  match Store.openable files path with
  | .ok t => .ok t
  | .error f => .error (misuseBecause "failed to start" ("open database: " ++ f.message))

def BatchPlan.runner (p : BatchPlan) (s : Station) (t : ToolSettings) (transformTimeout : Duration) :
    Runner where
  desk := {
    bench := s.bench t
    collector := ⟨p.source.name, 0⟩
    options := ⟨p.workDirectory, transformTimeout⟩ }
  newId := s.newId

def tidy (t : ToolSettings) (b : Bench) : Bench × Bool :=
  match Tool.cleanup b.files t.complete with
  | .ok files => ({ b with files }, true)
  | .error _ => (b, false)

def BatchPlan.carryOut (p : BatchPlan) (s : Station) (t : ToolSettings)
    (transformTimeout : Duration) : Batch.Report Runner :=
  let request (dataset : Text) : Request := ⟨dataset, some p.engines, p.timeout, p.stages⟩
  Batch.carryOut (Batch.onRunner request s.cancelAt) (·.desk.bench)
    (fun r b => { r with desk := { r.desk with bench := b } })
    (p.runner s t transformTimeout) p.workDirectory s.cancelAt (some (tidy t)) p.parallel p.datasets

def renderReport (f : ReportFormat) (rows : List Row) : Text :=
  match Report.write .unlimited f rows with
  | .ok sink => sink.received
  | .error _ => []

/-- Put a report where it goes: what is printed, and the files afterwards. -/
def deliver (d : Destination) (report : Text) (files : FileTree) :
    Except Failure (Text × FileTree) :=
  match d with
  | .standardOutput => .ok (report, files)
  | .file path =>
    match files.write path report with
    | .ok files => .ok ([], files)
    | .error e =>
      .error (.exit Failure.general "failed to write report"
        (some (.plain ("create report: open " ++ path ++ ": " ++ e.message))))

def Station.batch (s : Station) (d : Defaults) (g : Given) : Outcome :=
  match BatchPlan.make s d g with
  | .error f => s.fail f
  | .ok p =>
    match openDatabase s.files (g.text (Defaults.databaseFlag ":memory:" "")) with
    | .error f => s.fail f
    | .ok files =>
      let s := { s with files }
      let report := p.carryOut s (g.toolSettings d) (g.duration d.transformTimeoutFlag)
      let files := report.executor.desk.bench.files
      match report.fault with
      | some (.workspace f) =>
        ⟨"", some (misuseBecause "batch failed" (Batch.Fault.workspace f).message), files⟩
      | fault =>
        match deliver (.ofOutput p.output) (renderReport p.format report.rows) files with
        | .error f => ⟨"", some f, files⟩
        | .ok (stdout, files) =>
          let failure := fault.map fun f =>
            Failure.exit Failure.general "batch interrupted" (some (.plain f.message))
          ⟨stdout, failure, files⟩

end Regatta.Cli
