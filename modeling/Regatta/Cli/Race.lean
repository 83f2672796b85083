import Regatta.Cli.Station
import Regatta.Timeline

/-! Racing engines on one circuit from the command line. -/
namespace Regatta.Cli

def shownTime (r : EngineResult) : Text := (r.seconds?.map (Decimal.fixed 2)).getD Row.placeholder

/-- A text made at least so wide with blanks behind it. -/
def leftAligned (width : Nat) (t : Text) : Text := t ++ List.replicate (width - t.width) 32

def resultLine (r : EngineResult) : Text :=
  "  " ++ leftAligned 7 r.engine.name ++ " " ++ leftAligned 8 r.verdict.text ++ " " ++ shownTime r ++
    "\n"

def verdictLine (circuit : Text) (r : EngineResult) : Text :=
  let winner : Text := if r.engine == .none then ""
    else " by " ++ r.engine.name ++ " in " ++ shownTime r ++ "s"
  circuit ++ ": " ++ r.verdict.text ++ winner ++ "\n"

def raceJson (circuit : Text) (r : EngineResult) (results : List EngineResult) : Json :=
  .object [
    Json.field "artifact" circuit,
    Json.field "verdict" r.verdict.text,
    Json.field "engine" r.engine.name,
    Json.field "time_sec" (Json.ofOption Json.ofDouble r.seconds?),
    Json.field "results" (.array (results.map EngineResult.toJson))]

def resultsOf (events : List RaceEvent) : List EngineResult :=
  events.filterMap fun
    | .result r => some r
    | .line _ _ => none

def Station.race (s : Station) (d : Defaults) (g : Given) (circuit : Text) : Outcome :=
  let checked : Except Failure (List Engine × Duration × Bool) := do
    let engines ← readEngines (g.items (d.enginesFlag ""))
    let timeout ← readTimeout (g.duration (d.timeoutFlag ""))
    let format := g.text (Defaults.formatFlag .text "")
    checkFormat format
    s.requireTool (g.text d.toolFlag)
    return (engines, timeout, format == ReportFormat.json.name)
  match checked with
  | .error f => s.fail f
  | .ok (engines, timeout, asJson) =>
    let played := Race.run (s.bench (g.toolSettings d)) "" circuit timeout engines s.cancelAt
    let r := played.result.getD .inconclusive
    let results := resultsOf played.events
    let stdout := if asJson then (raceJson circuit r results).renderIndented 0 ++ "\n"
      else results.flatMap resultLine ++ verdictLine circuit r
    ⟨stdout, none, played.bench.files⟩

end Regatta.Cli
