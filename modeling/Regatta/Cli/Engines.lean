import Regatta.Cli.Stats

/-! The list of engines on the command line. -/
namespace Regatta.Cli

def isDefault (d : Defaults) (e : Engine) : Bool := d.settings.engines.contains e.name

def engineJson (d : Defaults) (e : Engine) : Json :=
  .object [
    Json.field "name" e.name,
    Json.field "command" e.name,
    Json.field "default" (isDefault d e)]

def engineCells (d : Defaults) (e : Engine) : List Text :=
  [e.name, e.name, if isDefault d e then "true" else "false"]

def enginesHeader : List Text := ["ENGINE", "COMMAND", "DEFAULT"]

def Station.engines (s : Station) (d : Defaults) (g : Given) : Outcome :=
  let format := g.text (Defaults.formatFlag .text "")
  match checkFormat format with
  | .error f => s.fail f
  | .ok _ =>
    let stdout := if format == ReportFormat.json.name then
        (Json.array (Engine.all.map (engineJson d))).renderIndented 0 ++ "\n"
      else renderTable (enginesHeader :: Engine.all.map (engineCells d))
    ⟨stdout, none, s.files⟩

end Regatta.Cli
