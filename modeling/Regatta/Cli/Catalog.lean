import Regatta.Cli.Command
import Regatta.Report.Format
import Regatta.Settings

/-! The commands of the program.

What is set in the environment is the default of a flag. -/
namespace Regatta.Cli

def programName : Text := "aigrace"

/-- The settings that the defaults of flags come from. -/
structure Defaults where
  settings : Settings
  tool : ToolSettings

def Defaults.load (env : Environment) : Defaults := ⟨.load env, .load env⟩

namespace Defaults

variable (d : Defaults)

/-! ### Flags -/

def verboseFlag : Flag :=
  ⟨"verbose", some 'v', .toggle false, "log tool output (same as --log-level debug)"⟩

def logLevelFlag : Flag :=
  ⟨"log-level", none, .text (Text.lower d.settings.logLevel.name),
    "log level (debug|info|warn|error)"⟩

def logFormatFlag : Flag :=
  ⟨"log-format", none, .text d.settings.logFormat, "log format (json|text)"⟩

def toolFlag : Flag := ⟨"abc", none, .text d.tool.binary, "path to the abc binary"⟩

def toolDirectoryFlag : Flag :=
  ⟨"abc-work-dir", none, .text d.tool.workDirectory,
    "working directory of abc processes (default: current directory)"⟩

def globalFlags : List Flag :=
  [verboseFlag, d.logLevelFlag, d.logFormatFlag, d.toolFlag, d.toolDirectoryFlag]

def enginesFlag (usage : Text) : Flag := ⟨"engines", some 'e', .list d.settings.engines, usage⟩

def timeoutFlag (usage : Text) : Flag := ⟨"timeout", some 't', .duration d.settings.timeout, usage⟩

def stageFlag (usage : Text) : Flag := ⟨"stage", none, .array [], usage⟩

def noTransformFlag (usage : Text) : Flag := ⟨"no-transform", none, .toggle false, usage⟩

def statsSourceFlag (name usage : Text) : Flag := ⟨name, none, .text d.settings.statsSource, usage⟩

def transformTimeoutFlag : Flag :=
  ⟨"transform-timeout", none, .duration d.settings.transformTimeout,
    "time budget per transform stage (0 = none)"⟩

def workDirectoryFlag (usage : Text) : Flag :=
  ⟨"work-dir", none, .text d.settings.workDirectory, usage⟩

def databaseFlag (path usage : Text) : Flag := ⟨"db", none, .text path, usage⟩

def formatFlag (format : ReportFormat) (usage : Text) : Flag :=
  ⟨"format", some 'f', .text format.name, usage⟩

def manifestFlag : Flag := ⟨"manifest", some 'm', .text "", "YAML batch manifest"⟩

def parallelFlag : Flag :=
  ⟨"parallel", some 'p', .number d.settings.parallel, "datasets verified at once"⟩

def outputFlag : Flag :=
  ⟨"output", some 'o', .text "",
    "report path, \"-\" for stdout (default " ++ Report.defaultName ++ ", stdout for text)"⟩

def addressFlag : Flag := ⟨"addr", none, .text d.settings.listenAddress, "listen address"⟩

/-! ### Commands -/

def batch : Command where
  name := "batch"
  form := "batch [dataset.aig ...]"
  short := "Verify a list of circuits and write a report"
  long := Text.join "\n" [
    "Verify every dataset in turn and write one report row per dataset.", "",
    "Each dataset is simplified, then the engines race on the result. A dataset",
    "that cannot be processed is reported as ERROR and the batch continues.",
    "Datasets come from the arguments, a YAML manifest, or both; flags override",
    "manifest values, which override the environment.", "",
    "Example:",
    "  aigrace batch dataset/139442p0.aig dataset/bob1u05cu.aig",
    "  aigrace batch --manifest batch.yaml --parallel 4 --format text",
    "  aigrace batch --stage simplify=\"dc2; strash\" --stage balance=\"balance -l\" a.aig"]
  flags := [
    manifestFlag, d.enginesFlag "engines to race", d.timeoutFlag "per-engine time budget",
    stageFlag "transform stage as name=commands (repeatable, default simplify)",
    noTransformFlag "race the datasets as given", d.parallelFlag,
    d.statsSourceFlag "stats-source" "circuit statistics source (abc|native|auto)",
    d.transformTimeoutFlag,
    d.workDirectoryFlag "directory for transformed circuits, reset before the batch",
    databaseFlag ":memory:" "SQLite database recording the runs",
    formatFlag .csv "report format (csv|json|text)", outputFlag]
  action := some .batch

def race : Command where
  name := "race"
  form := "race <circuit.aig>"
  short := "Race engines directly on one circuit"
  long := Text.join "\n" [
    "Launch every engine on the circuit as given, without transforms, and",
    "print the first conclusive verdict. Each engine result is shown as it",
    "arrives; engines still running when a verdict is found are killed.", "",
    "Example:",
    "  aigrace race dataset/139442p0.aig",
    "  aigrace race -e pdr,bmc -t 30s --format json circuit.aig"]
  flags := [
    d.enginesFlag "engines to race", d.timeoutFlag "per-engine time budget",
    formatFlag .text "output format (json|text)"]
  arguments := .exactly 1
  action := some .race

def stats : Command where
  name := "stats"
  form := "stats <circuit.aig> [circuit.aig ...]"
  short := "Print circuit statistics"
  long := Text.join "\n" [
    "Print input, output, flip-flop and AND-gate counts for each circuit.", "",
    "With --source abc the figures come from the tool's print_stats; native reads",
    "the AIGER file directly; auto tries the tool and falls back to native.", "",
    "Example:",
    "  aigrace stats dataset/*.aig",
    "  aigrace stats --source native --format json counter.aag"]
  flags := [
    d.statsSourceFlag "source" "statistics source (abc|native|auto)",
    formatFlag .text "output format (json|text)"]
  arguments := .atLeast 1
  action := some .stats

def serve : Command where
  name := "serve"
  form := "serve"
  short := "Run the HTTP verification service"
  long := Text.join "\n" [
    "Serve the run API: submit verifications, follow their tool output live,",
    "cancel them, and query results and aggregate statistics. Runs are recorded",
    "in a SQLite database. Prometheus metrics are served on /metrics.", "",
    "Example:",
    "  aigrace serve --addr :8080 --db aigrace.db"]
  flags := [
    d.addressFlag, databaseFlag d.settings.databasePath "path to SQLite database",
    d.enginesFlag "default engines for submitted runs",
    d.timeoutFlag "default per-engine time budget",
    stageFlag "default transform stage as name=commands (repeatable)",
    noTransformFlag "race submitted datasets as given by default",
    d.statsSourceFlag "stats-source" "circuit statistics source (abc|native|auto)",
    d.transformTimeoutFlag, d.workDirectoryFlag "directory for transformed circuits"]
  arguments := .none
  action := some .serve

def engines : Command where
  name := "engines"
  form := "engines"
  short := "List the verification engines"
  flags := [formatFlag .text "output format (json|text)"]
  arguments := .none
  action := some .engines

def help : Command where
  name := "help"
  form := "help [command]"
  short := "Help about any command"
  long := Text.join "\n" [
    "Help provides help for any command in the application.",
    "Simply type aigrace help [path to command] for full details."]
  action := some .help

def noDescriptionsFlag : Flag :=
  ⟨"no-descriptions", none, .toggle false, "disable completion descriptions"⟩

def shellCompletion (name : Text) (s : Shell) (mentionsFlags : Bool) (long : Text) : Command where
  name := name
  form := name
  short := "Generate the autocompletion script for " ++ name
  long := long
  flags := [noDescriptionsFlag]
  arguments := .none
  action := some (.completion s)
  mentionsFlags := mentionsFlags

def completion : Command where
  name := "completion"
  form := "completion"
  short := "Generate the autocompletion script for the specified shell"
  long := Text.join "\n" [
    "Generate the autocompletion script for aigrace for the specified shell.",
    "See each sub-command's help for details on how to use the generated script.", ""]
  arguments := .none
  subcommands := [
    shellCompletion "bash" .bash false (Text.join "\n" [
      "Generate the autocompletion script for the bash shell.", "",
      "This script depends on the 'bash-completion' package.",
      "If it is not installed already, you can install it via your OS's package manager.", "",
      "To load completions in your current shell session:", "",
      "\tsource <(aigrace completion bash)", "",
      "To load completions for every new session, execute once:", "",
      "#### Linux:", "",
      "\taigrace completion bash > /etc/bash_completion.d/aigrace", "",
      "#### macOS:", "",
      "\taigrace completion bash > $(brew --prefix)/etc/bash_completion.d/aigrace", "",
      "You will need to start a new shell for this setup to take effect.", ""]),
    shellCompletion "zsh" .zsh true (Text.join "\n" [
      "Generate the autocompletion script for the zsh shell.", "",
      "If shell completion is not already enabled in your environment you will need",
      "to enable it.  You can execute the following once:", "",
      "\techo \"autoload -U compinit; compinit\" >> ~/.zshrc", "",
      "To load completions in your current shell session:", "",
      "\tsource <(aigrace completion zsh)", "",
      "To load completions for every new session, execute once:", "",
      "#### Linux:", "",
      "\taigrace completion zsh > \"$\x7bfpath[1]\x7d/_aigrace\"", "",
      "#### macOS:", "",
      "\taigrace completion zsh > $(brew --prefix)/share/zsh/site-functions/_aigrace", "",
      "You will need to start a new shell for this setup to take effect.", ""]),
    shellCompletion "fish" .fish true (Text.join "\n" [
      "Generate the autocompletion script for the fish shell.", "",
      "To load completions in your current shell session:", "",
      "\taigrace completion fish | source", "",
      "To load completions for every new session, execute once:", "",
      "\taigrace completion fish > ~/.config/fish/completions/aigrace.fish", "",
      "You will need to start a new shell for this setup to take effect.", ""]),
    shellCompletion "powershell" .powershell true (Text.join "\n" [
      "Generate the autocompletion script for powershell.", "",
      "To load completions in your current shell session:", "",
      "\taigrace completion powershell | Out-String | Invoke-Expression", "",
      "To load completions for every new session, add the output of the above command",
      "to your powershell profile.", ""])]

def top : Command where
  name := programName
  form := programName
  short := "Race model-checking engines against AIG circuits"
  long := Text.join "\n" [
    "aigrace verifies And-Inverter Graph circuits by racing several ABC",
    "engines (pdr, bmc, int, dprove, sim) in parallel and keeping the first",
    "conclusive answer. Circuits are simplified first unless told otherwise."]
  globalFlags := d.globalFlags
  subcommands := [d.batch, d.race, d.stats, d.serve, engines, help, completion]

end Defaults
end Regatta.Cli
