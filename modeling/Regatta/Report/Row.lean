import Regatta.Circuit.Stats
import Regatta.EngineResult

/-! A line of a report: the figures of one circuit and what the race on it answered. -/
namespace Regatta

structure Row where
  dataset : Text
  inputs : Option Int
  latches : Option Int
  ands : Option Int
  result : Text
  engine : Text
  seconds : Option Double

namespace Row

/-- What the cells of engine and time show when there is nothing to show. -/
def placeholder : Text := "-"

/-- The result of a dataset whose verification broke off. -/
def failure : Text := "ERROR"

def header : List Text :=
  ["dataset", "Inputs", "FFs", "ANDs", "Result", "Engine", "Time (sec)"]

/-- A time rounded to hundredths; a half goes away from zero. -/
def hundredths (seconds : Double) : Double :=
  ((seconds.mul (Double.ofInt 100)).round).div (Double.ofInt 100)

private def withStats (dataset : Text) (stats : Option Stats) (result engine : Text)
    (seconds : Option Double) : Row where
  dataset
  inputs := stats.map fun s => (s.inputs : Int)
  latches := stats.map fun s => (s.latches : Int)
  ands := stats.map fun s => (s.ands : Int)
  result
  engine
  seconds

def ofResult (dataset : Text) (stats : Option Stats) (r : EngineResult) : Row :=
  withStats dataset stats r.verdict.text r.engine.name (r.seconds?.map hundredths)

def ofFailure (dataset : Text) (stats : Option Stats) : Row :=
  withStats dataset stats failure "" none

def count (n : Option Int) : Text := (n.map Text.ofInt).getD ""

/-- The text of a time in seconds: two decimals. -/
def time (seconds : Option Double) : Text := (seconds.map (Decimal.fixed 2)).getD placeholder

def cells (r : Row) : List Text :=
  [r.dataset, count r.inputs, count r.latches, count r.ands, r.result,
    if r.engine.isEmpty then placeholder else r.engine, time r.seconds]

def toJson (r : Row) : Json :=
  .object [
    Json.field "dataset" r.dataset,
    Json.field "inputs" (Json.ofOption Json.ofInt r.inputs),
    Json.field "ffs" (Json.ofOption Json.ofInt r.latches),
    Json.field "ands" (Json.ofOption Json.ofInt r.ands),
    Json.field "result" r.result,
    Json.field "engine" r.engine,
    Json.field "time_sec" (Json.ofOption Json.ofDouble r.seconds)]

end Row
end Regatta
