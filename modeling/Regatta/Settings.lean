import Regatta.Engine
import Regatta.Log.Level
import Regatta.Time.Duration

/-! Settings taken from the environment. A value that does not make sense leaves the default. -/
namespace Regatta

abbrev Environment := List (Text × Text)

namespace Environment

/-- A variable that is set to something. -/
def get? (env : Environment) (name : String) : Option Text :=
  match env.lookup (Text.ofString name) with
  | some v => if v.isEmpty then none else some v
  | none => none

/-- The directory for temporary files. -/
def temporary (env : Environment) : Text := (env.get? "TMPDIR").getD "/tmp"

end Environment

/-- A decimal integer with an optional sign, in the range of signed 64-bit integers. -/
def Text.toInt? (t : Text) : Option Int :=
  let (negative, ds) : Bool × Text := match t with
    | 45 :: r => (true, r)
    | 43 :: r => (false, r)
    | r => (false, r)
  if ds.isEmpty || !ds.all isDigit then none
  else
    let n : Int := digitsValue ds
    let v := if negative then -n else n
    if Number.fitsWord v then some v else none

structure Settings where
  listenAddress : Text := ":8080"
  databasePath : Text := "aigrace.db"
  logLevel : Log.Level := .info
  logFormat : Text := "json"
  workDirectory : Text := "temp"
  timeout : Duration := 120 * Duration.second
  engines : List Text := Engine.all.map Engine.name
  statsSource : Text := "abc"
  parallel : Int := 1
  transformTimeout : Duration := 0
deriving Repr, Inhabited

namespace Settings

/-- A positive time budget: a whole number of seconds, or a duration with units. The product of
a whole number with a second stays in 64 bits. -/
def budget? (t : Text) : Option Duration :=
  match t.toInt? with
  | some n => if n ≤ 0 then none else some (Duration.wrap (n * Duration.second))
  | none =>
    match Duration.parse t with
    | .ok d => if d ≤ 0 then none else some d
    | .error _ => none

def load (env : Environment) : Settings :=
  let d : Settings := {}
  let get (name : String) := env.get? name
  { listenAddress := (get "AIGRACE_LISTEN_ADDR").getD d.listenAddress
    databasePath := (get "AIGRACE_DB_PATH").getD d.databasePath
    logLevel := ((get "AIGRACE_LOG_LEVEL").map Log.Level.parse).getD d.logLevel
    logFormat := ((get "AIGRACE_LOG_FORMAT").map Text.lower).getD d.logFormat
    workDirectory := (get "AIGRACE_WORK_DIR").getD d.workDirectory
    timeout := ((get "AIGRACE_TIMEOUT").bind budget?).getD d.timeout
    engines := ((get "AIGRACE_ENGINES").map Text.items).getD d.engines
    statsSource := ((get "AIGRACE_STATS_SOURCE").map Text.lower).getD d.statsSource
    parallel := ((get "AIGRACE_PARALLEL").bind fun t =>
      t.toInt?.bind fun n => if 0 < n then some n else none).getD d.parallel
    transformTimeout := ((get "AIGRACE_TRANSFORM_TIMEOUT").bind budget?).getD d.transformTimeout }

end Settings

/-- How the external tool is found and stopped. -/
structure ToolSettings where
  binary : Text := "abc"
  workDirectory : Text := ""
  historyFile : Text := "abc.history"
  killGrace : Duration := 2 * Duration.second
deriving Repr, Inhabited

/-- Settings with the defaults put in for what is left blank. -/
def ToolSettings.complete (s : ToolSettings) : ToolSettings :=
  let d : ToolSettings := {}
  { binary := if s.binary.isEmpty then d.binary else s.binary
    workDirectory := s.workDirectory
    historyFile := if s.historyFile.isEmpty then d.historyFile else s.historyFile
    killGrace := if s.killGrace ≤ 0 then d.killGrace else s.killGrace }

/-- The kill grace is a positive duration with units. -/
def ToolSettings.load (env : Environment) : ToolSettings :=
  let d : ToolSettings := {}
  let grace (t : Text) : Option Duration :=
    match Duration.parse t with
    | .ok d => if 0 < d then some d else none
    | .error _ => none
  { binary := (env.get? "AIGRACE_ABC_BIN").getD d.binary
    workDirectory := (env.get? "AIGRACE_ABC_WORK_DIR").getD d.workDirectory
    historyFile := (env.get? "AIGRACE_HISTORY_FILE").getD d.historyFile
    killGrace := ((env.get? "AIGRACE_KILL_GRACE").bind grace).getD d.killGrace }

end Regatta
