import Regatta.Engine
import Regatta.Json.Parser
import Regatta.Time.Duration
import Regatta.Verdict

/-! What one engine answered and how long it took, with its JSON form. -/
namespace Regatta

structure EngineResult where
  verdict : Verdict
  engine : Engine
  elapsed : Option Duration
deriving DecidableEq, Repr, Inhabited

namespace EngineResult

/-- The result of a race that no engine decided. -/
def inconclusive : EngineResult := ⟨.unknown, .none, none⟩

/-- The result of a verification whose transformation left nothing to race on. -/
def failed : EngineResult := ⟨.fail, .none, none⟩

def seconds? (r : EngineResult) : Option Double := r.elapsed.map Duration.seconds

def toJson (r : EngineResult) : Json :=
  .object <|
    [Json.field "verdict" r.verdict.text, Json.field "engine" r.engine.name] ++
    Json.optional "elapsed_ns" Json.ofInt r.elapsed

/-- Sets the field that the key names, letter case aside. Other keys are ignored and `null`
leaves a field as it is, except that it clears the elapsed time. -/
def setField (r : EngineResult) (key : Text) (v : Json) : Option EngineResult :=
  let k := Json.foldKey key
  if k == "verdict" then
    match v with
    | .string t => some { r with verdict := ⟨t⟩ }
    | .null => some r
    | _ => none
  else if k == "engine" then
    match v with
    | .string t =>
      match (Engine.load t).run r.engine with
      | .ok _ e => some { r with engine := e }
      | .error .. => none
    | .null => some r
    | _ => none
  else if k == "elapsed_ns" then
    match v with
    | .number l => (Json.int64? l).map fun d => { r with elapsed := some d }
    | .null => some { r with elapsed := none }
    | _ => none
  else some r

def empty : EngineResult := ⟨.absent, .none, none⟩

def ofJson : Json → Option EngineResult
  | .null => some empty
  | .object ms => ms.foldlM (fun r (k, v) => r.setField k v) empty
  | _ => none

def encode (r : EngineResult) : Text := r.toJson.render

def decode (t : Text) : Option EngineResult := Json.parse t >>= ofJson

end EngineResult
end Regatta
