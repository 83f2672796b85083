import Regatta.Run
import Regatta.Stage

/-! Requests for a run. -/
namespace Regatta

structure Request where
  dataset : Text
  /-- The engines to race; `none` when the request has no list. -/
  engines : Option (List Engine)
  /-- Time for each engine. -/
  budget : Duration
  stages : List Stage
deriving Repr, Inhabited

namespace Request

/-- The time an engine has when a request gives none. -/
def defaultBudget : Duration := 120 * Duration.second

/-- The request with the default put in for a budget that is not positive. -/
def complete (r : Request) : Request :=
  if r.budget ≤ 0 then { r with budget := defaultBudget } else r

/-- A budget in whole seconds, rounded up. -/
def wholeSeconds (budget : Duration) : Int :=
  (Duration.wrap (budget + Duration.second - 1)).tdiv Duration.second

def newRun (r : Request) (id : Text) (now : Instant) : Run where
  id
  status := .pending
  dataset := r.dataset
  engines := r.engines
  timeoutSeconds := wholeSeconds r.budget
  inputs := none
  latches := none
  ands := none
  verdict := .absent
  engine := .none
  elapsedMillis := none
  error := ""
  createdAt := now
  startedAt := none
  finishedAt := none

end Request
end Regatta
