import Regatta.Log.Level
import Regatta.Metrics
import Regatta.Tool.Activity

/-! Where verification happens: the clock, the files, the tool, and a record of what went on. -/
namespace Regatta

structure Bench where
  now : Instant
  files : FileTree
  /-- Where temporary files go. -/
  temporary : Text := "/tmp"
  tool : Tool
  /-- The calls made so far, the latest first. -/
  calls : List (Instant × Invocation) := []
  /-- The log, the latest record first. -/
  log : List (Log.Level × Text) := []
  metrics : Metrics := []
  /-- Random endings for the names of scratch directories, by how many were drawn before. -/
  randomEnding : Nat → Text
  drawn : Nat := 0

namespace Bench

def note (b : Bench) (level : Log.Level) (message : Text) : Bench :=
  { b with log := (level, message) :: b.log }

def count (b : Bench) (m : Metric) (n : Int := 1) : Bench :=
  { b with metrics := b.metrics.add m n }

def absolute (b : Bench) (p : Text) : Text := Path.absolute b.files.currentText p

def call (b : Bench) (i : Invocation) : Bench × Activity :=
  let behavior := b.tool (b.calls.map (·.2)) b.files i
  ({ b with calls := (b.now, i) :: b.calls, files := behavior.opening b.files },
    .start behavior b.now)

/-- A deadline that is `budget` away; no budget, no deadline. -/
def deadline (b : Bench) (budget : Duration) : Option Instant :=
  if budget ≤ 0 then none else some (b.now + budget)

def passed (b : Bench) (deadline : Option Instant) : Bool := deadline.any (· ≤ b.now)

end Bench

/-- The earlier of two times, where `none` is never. -/
def Instant.earlier : Option Instant → Option Instant → Option Instant
  | none, t => t
  | t, none => t
  | some a, some b => some (min a b)

/-- The first of the times that lies after `now`. -/
def Instant.next (now : Instant) (ts : List (Option Instant)) : Option Instant :=
  (ts.map fun t => t.filter (now < ·)).foldl Instant.earlier none

end Regatta
