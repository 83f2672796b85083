import Regatta.Cli.Batch
import Regatta.Http.Address

/-! Starting the service from the command line. -/
namespace Regatta.Cli

/-- What the service needs before it can start. -/
structure ServePlan where
  address : Text
  database : Text
  engines : List Engine
  timeout : Duration
  stages : List Stage
  source : Stats.Source

def ServePlan.make (d : Defaults) (g : Given) : Except Failure ServePlan := do
  let engines ← readEngines (g.items (d.enginesFlag ""))
  let timeout ← readTimeout (g.duration (d.timeoutFlag ""))
  let stages ← readStages (g.items (Defaults.stageFlag ""))
    (g.toggle (Defaults.noTransformFlag ""))
  let source ← readSource (g.text (d.statsSourceFlag "stats-source" ""))
  return {
    address := g.text d.addressFlag
    database := g.text (Defaults.databaseFlag d.settings.databasePath "")
    engines, timeout, stages, source }

/-- Serve until told to stop. A service that was told so before it began stops at once, whatever its
address is. -/
def Station.serve (s : Station) (d : Defaults) (g : Given) : Outcome :=
  match ServePlan.make d g with
  | .error f => s.fail f
  | .ok p =>
    match openDatabase s.files p.database with
    | .error f => s.fail f
    | .ok files =>
      let files := (Tool.cleanup files (g.toolSettings d).complete).toOption.getD files
      match s.cancelled, Http.Address.check p.address with
      | false, .error f =>
        let cause : Text := "server error: listen tcp: " ++ f.message
        ⟨"", some (.exit Failure.general "server error" (some (.plain cause))), files⟩
      | _, _ => ⟨"", none, files⟩

end Regatta.Cli
