import Regatta.Text.Basic

/-! The resources of the web interface and the methods they take. -/
namespace Regatta.Api

inductive Route where
  | health
  | metrics
  | engines
  | stats
  | runs
  | run (id : Text)
  | results (id : Text)
  | logs (id : Text)
  | history (id : Text)
deriving DecidableEq, Repr

namespace Route

def runsPath : Text := "/v1/runs"

def pattern : Route → Text
  | .health => "/healthz"
  | .metrics => "/metrics"
  | .engines => "/v1/engines"
  | .stats => "/v1/stats"
  | .runs => runsPath
  | .run _ => runsPath ++ "/\x7bid\x7d"
  | .results _ => runsPath ++ "/\x7bid\x7d/results"
  | .logs _ => runsPath ++ "/\x7bid\x7d/logs"
  | .history _ => runsPath ++ "/\x7bid\x7d/logs/history"

/-- The methods of a resource; `none` when it takes any. -/
def methods : Route → Option (List Text)
  | .metrics => none
  | .runs => some ["GET", "POST"]
  | .run _ => some ["DELETE", "GET"]
  | _ => some ["GET"]

/-- The resource of what follows `/v1/runs/`. The id of a run may be blank only before a slash. -/
def below (rest : Text) : Option Route :=
  match Text.cut (Text.byte '/') rest with
  | none => if rest.isEmpty then some .runs else some (.run rest)
  | some (id, tail) =>
    if tail == "results" then some (.results id)
    else if tail == "logs" then some (.logs id)
    else if tail == "logs/history" then some (.history id)
    else none

end Route

inductive Routed where
  | found (r : Route)
  /-- The resource does not take the method; `pattern` is the part of the path that was known. -/
  | methodNotAllowed (allowed : List Text) (pattern : Text)
  | notFound (pattern : Text)

namespace Routed

def unmatched : Text := "unmatched"

def knownMethods : List Text :=
  ["CONNECT", "DELETE", "GET", "HEAD", "OPTIONS", "PATCH", "POST", "PUT", "TRACE"]

def pattern : Routed → Text
  | .found r => r.pattern
  | .methodNotAllowed _ p => p
  | .notFound p => p

private def check (method : Text) (pattern : Text) (r : Route) : Routed :=
  match r.methods with
  | none => .found r
  | some ms => if ms.contains method then .found r else .methodNotAllowed ms pattern

def ofPath (method path : Text) : Routed :=
  if !knownMethods.contains method then .methodNotAllowed [] unmatched
  else if path == Route.runsPath then check method Route.runsPath .runs
  else match Text.stripPrefix? (Route.runsPath ++ "/") path with
    | some rest =>
      let known := if rest.isEmpty then Route.runsPath else Route.runsPath ++ "/*"
      match Route.below rest with
      | some r => check method known r
      | none => .notFound known
    | none =>
      match [Route.health, .metrics, .engines, .stats].find? fun r => r.pattern == path with
      | some r => check method unmatched r
      | none => .notFound unmatched

end Routed
end Regatta.Api
