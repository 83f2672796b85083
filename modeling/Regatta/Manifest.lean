import Regatta.Files.Tree
import Regatta.Stage
import Regatta.Yaml.Decoding

/-! A manifest: what a batch works on and how.

Paths in a manifest are relative to the directory that holds it. -/
namespace Regatta

/-- A batch as it is written down. What is not given is `none` or empty and comes from the settings. -/
structure Manifest where
  datasets : Option (List Text) := none
  engines : Option (List Text) := none
  timeout : Duration := 0
  stages : Option (List Stage) := none
  parallel : Int := 0
  statsSource : Text := ""
  workDirectory : Text := ""
  output : Text := ""
  format : Text := ""

namespace Manifest
open Yaml.Decode

inductive Fault where
  | unreadable (path : Text) (e : FileError)
  | malformed (path : Text) (f : Yaml.Fault)
  | noDatasets
  | negativeTimeout (d : Duration)
  | negativeParallel (n : Int)
  | stage (f : Stage.Fault)

def Fault.message : Fault → Text
  | .unreadable path .isDirectory => "read manifest: read " ++ path ++ ": is a directory"
  | .unreadable path e => "read manifest: open " ++ path ++ ": " ++ e.message
  | .malformed path f => "parse manifest " ++ path ++ ": " ++ f.message
  | .noDatasets => "manifest lists no datasets"
  | .negativeTimeout d => "manifest timeout " ++ Duration.render d ++ " is negative"
  | .negativeParallel n => "manifest parallel " ++ Text.ofInt n ++ " is negative"
  | .stage f => "manifest stage: " ++ f.message

def Fault.isMissing : Fault → Bool
  | .unreadable _ .notFound => true
  | _ => false

def stageRecord : Record Stage where
  type := "pipeline.Stage"
  fields := [
    Record.field "name" text fun a s => { s with name := a },
    Record.field "commands" text fun a s => { s with commands := a }]

def record : Record Manifest where
  type := "config.Manifest"
  fields := [
    Record.field "datasets" (sequence "[]string" text) fun a m => { m with datasets := some a },
    Record.field "engines" (sequence "[]string" text) fun a m => { m with engines := some a },
    Record.field "timeout" duration fun a m => { m with timeout := a },
    Record.field "stages" (sequence "[]pipeline.Stage" (Yaml.Decode.record stageRecord ⟨"", ""⟩))
      fun a m => { m with stages := some a },
    Record.field "parallel" integer fun a m => { m with parallel := a },
    Record.field "stats_source" text fun a m => { m with statsSource := a },
    Record.field "work_dir" text fun a m => { m with workDirectory := a },
    Record.field "output" text fun a m => { m with output := a },
    Record.field "format" text fun a m => { m with format := a }]

def parse (t : Text) : Except Yaml.Fault Manifest :=
  Yaml.decode t fun n => do return (← Yaml.Decode.record record {} n).getD {}

/-- A manifest must name a dataset, and its numbers and stages must make sense. -/
def check (m : Manifest) : Except Fault Unit := do
  if (m.datasets.getD []).isEmpty then throw .noDatasets
  if m.timeout < 0 then throw (.negativeTimeout m.timeout)
  if m.parallel < 0 then throw (.negativeParallel m.parallel)
  (m.stages.getD []).forM fun s =>
    match s.validate with
    | .ok _ => pure ()
    | .error f => throw (.stage f)

def resolvePath (directory p : Text) : Text :=
  if Path.isAbsolute p then p else Path.join [directory, p]

/-- A path that may be left out. -/
def resolveGiven (directory p : Text) : Text :=
  if p.isEmpty then p else resolvePath directory p

/-- A manifest as seen from the directory that holds it. -/
def resolve (directory : Text) (m : Manifest) : Manifest :=
  { m with
    datasets := m.datasets.map (·.map (resolvePath directory))
    output := resolveGiven directory m.output
    workDirectory := resolveGiven directory m.workDirectory }

def load (files : FileTree) (path : Text) : Except Fault Manifest := do
  match files.read path with
  | .error e => throw (.unreadable path e)
  | .ok t =>
    match parse t with
    | .error f => throw (.malformed path f)
    | .ok m =>
      m.check
      return m.resolve (Path.directory path)

end Manifest
end Regatta
