import Regatta.Cli.Station
import Regatta.Timeline

/-! Figures of circuits on the command line. -/
namespace Regatta.Cli

def renderTable (records : List (List Text)) : Text :=
  match Table.write .unlimited records with
  | .ok sink => sink.received
  | .error _ => []

def statsJson (circuit : Text) (figures : Option Stats) : Json :=
  let f := figures.getD ⟨0, 0, 0, 0⟩
  .object [
    Json.field "dataset" circuit,
    Json.field "known" figures.isSome,
    Json.field "inputs" (Json.ofInt f.inputs),
    Json.field "outputs" (Json.ofInt f.outputs),
    Json.field "latches" (Json.ofInt f.latches),
    Json.field "ands" (Json.ofInt f.ands)]

def statsHeader : List Text := ["dataset", "Inputs", "Outputs", "FFs", "ANDs"]

def statsCells (circuit : Text) (figures : Option Stats) : List Text :=
  circuit :: match figures with
    | some f => [f.inputs, f.outputs, f.latches, f.ands].map Text.ofInt
    | none => List.replicate 4 Row.placeholder

/-- Gather the figures of circuits, one after the other. The answer is `none` when the calling code
broke down. -/
def collectAll (c : Circuit.Collector) (cancelAt : Option Instant) :
    Bench → List Text → Bench × Option (List (Text × Option Stats))
  | b, [] => (b, some [])
  | b, p :: rest =>
    let played := Circuit.Collection.run b c p cancelAt
    match played.result with
    | some (.figures f) =>
      let (b, more) := collectAll c cancelAt played.bench rest
      (b, more.map ((p, f) :: ·))
    | _ => (played.bench, none)

/-- Figures of all circuits, or of none when reading one broke down. -/
def Station.stats (s : Station) (d : Defaults) (g : Given) (circuits : List Text) : Option Outcome :=
  let checked : Except Failure (Stats.Source × Bool) := do
    let source ← readSource (g.text (d.statsSourceFlag "source" ""))
    let format := g.text (Defaults.formatFlag .text "")
    checkFormat format
    if source != .native then s.requireTool (g.text d.toolFlag)
    return (source, format == ReportFormat.json.name)
  match checked with
  | .error f => some (s.fail f)
  | .ok (source, asJson) =>
    let (b, rows) := collectAll ⟨source.name, 0⟩ s.cancelAt (s.bench (g.toolSettings d)) circuits
    rows.map fun rows =>
      let stdout := if asJson then
          (Json.array (rows.map fun (p, f) => statsJson p f)).renderIndented 0 ++ "\n"
        else renderTable (statsHeader :: rows.map fun (p, f) => statsCells p f)
      ⟨stdout, none, b.files⟩

end Regatta.Cli
