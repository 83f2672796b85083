import Regatta.Store.Basic

/-! Figures over all runs of a store. -/
namespace Regatta

structure RunStats where
  total : Nat
  byStatus : List (Text × Nat)
  byVerdict : List (Text × Nat)
  winsByEngine : List (Text × Nat)
  averageMillis : Double

namespace RunStats

/-- How often each text occurs, in the order of the texts. -/
def tally (ts : List Text) : List (Text × Nat) :=
  (Text.sort ts.eraseDups).map fun t => (t, ts.count t)

/-- The mean of whole numbers; zero when there are none. -/
def mean (ns : List Int) : Double :=
  if ns.isEmpty then .zero else (Double.ofInt (ns.foldl (· + ·) 0)).div (.ofInt ns.length)

def ofRows (rows : List RunRow) : RunStats where
  total := rows.length
  byStatus := tally (rows.map (·.status))
  byVerdict := tally ((rows.map (·.verdict)).filter (!·.isEmpty))
  winsByEngine := tally ((rows.map (·.engine)).filter (!·.isEmpty))
  averageMillis := mean ((rows.filter (!·.engine.isEmpty)).filterMap (·.elapsedMillis))

private def counts (ts : List (Text × Nat)) : Json := .object (ts.map fun (t, n) => (t, Json.ofNat n))

def toJson (s : RunStats) : Json :=
  .object [Json.field "total" (Json.ofNat s.total), Json.field "count_by_status" (counts s.byStatus),
    Json.field "count_by_verdict" (counts s.byVerdict),
    Json.field "wins_by_engine" (counts s.winsByEngine),
    Json.field "avg_elapsed_ms" (Json.ofDouble s.averageMillis)]

end RunStats

def Store.stats (s : Store) : Except StoreError RunStats := do
  s.need "count runs"
  return .ofRows s.runs

end Regatta
