import Regatta.Text.Lower

/-! Importance of log records. -/
namespace Regatta.Log

inductive Level where
  | debug
  | info
  | warn
  | error
deriving DecidableEq, Repr, Inhabited

namespace Level

/-- Higher numbers are more important. -/
def number : Level → Int
  | .debug => -4
  | .info => 0
  | .warn => 4
  | .error => 8

def name : Level → Text
  | .debug => "DEBUG"
  | .info => "INFO"
  | .warn => "WARN"
  | .error => "ERROR"

/-- Three letters for terse lines. -/
def short : Level → Text
  | .debug => "DBG"
  | .info => "INF"
  | .warn => "WRN"
  | .error => "ERR"

/-- The level of a name in any letter case; what names no level is taken for `info`. -/
def parse (t : Text) : Level :=
  let n := t.lower
  if n == "debug" then .debug
  else if n == "warn" then .warn
  else if n == "error" then .error
  else .info

end Level
end Regatta.Log
