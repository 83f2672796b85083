import Regatta.Text.Basic

/-! Counts of what happened, by name and labels. -/
namespace Regatta

structure Metric where
  name : Text
  /-- The labels, in the order of their names. -/
  labels : List (Text × Text)
deriving DecidableEq, Repr, Inhabited

abbrev Metrics := List (Metric × Int)

namespace Metrics

/-- Adds to a count; a new one starts at zero. -/
def add (ms : Metrics) (m : Metric) (n : Int) : Metrics :=
  match ms with
  | [] => [(m, n)]
  | (k, v) :: rest => if k == m then (k, v + n) :: rest else (k, v) :: add rest m n

end Metrics

namespace Metric

def engineResult (engine verdict : Text) : Metric :=
  ⟨"aigrace_engine_results_total", [("engine", engine), ("verdict", verdict)]⟩

/-- Races by verdict, each with its duration. -/
def race (verdict : Text) : Metric := ⟨"aigrace_race_duration_seconds", [("verdict", verdict)]⟩

def raceWin (engine : Text) : Metric := ⟨"aigrace_race_wins_total", [("engine", engine)]⟩

def transform (stage outcome : Text) : Metric :=
  ⟨"aigrace_transforms_total", [("outcome", outcome), ("stage", stage)]⟩

def run (status verdict : Text) : Metric :=
  ⟨"aigrace_runs_total", [("status", status), ("verdict", verdict)]⟩

def runsInFlight : Metric := ⟨"aigrace_runs_in_flight", []⟩

end Metric
end Regatta
