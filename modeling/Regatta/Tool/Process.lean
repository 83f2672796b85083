import Regatta.Tool.Activity
import Regatta.Tool.Lines
import Regatta.Tool.Program

/-! The external tool as a process.

Each call is a process of its own. Its output is what it wrote to both streams, and the lines of
both are passed on as they come. A call that is told to stop is killed. -/
namespace Regatta.Tool

/-- Why a call was cut short or never began. -/
inductive ProcessFault where
  | unlaunched (binary : Text) (f : LaunchFault)
  | cancelled (label : Text)
  /-- The streams stayed open for too long after the end. -/
  | held (label : Text)
deriving DecidableEq, Repr

/-- A call without a label is simply a call. -/
def shownLabel (label : Text) : Text := if label.isEmpty then "invocation" else label

/-- Why a call could not be launched. -/
def launchReason (binary : Text) (f : LaunchFault) : Text := binary ++ ": " ++ f.message

def heldReason : Text := "exec: WaitDelay expired before I/O complete"

def ProcessFault.message : ProcessFault → Text
  | .unlaunched b f => "launch external tool: " ++ launchReason b f
  | .cancelled l => "abc " ++ shownLabel l ++ ": " ++ LaunchFault.cancelled.message
  | .held l => "abc " ++ shownLabel l ++ ": " ++ heldReason

/-- Each stream of a process arrives whole. -/
def ProcessPlan.log (p : ProcessPlan) (logged : Bool) : StreamLog :=
  Streams.follow logged [(.out, p.stdout), (.err, p.stderr)]

/-- Whether the streams stay open beyond the grace period of a process that ended well. -/
def ProcessPlan.overstays (p : ProcessPlan) (grace : Duration) : Bool :=
  p.exit.number == 0 && grace < p.held

structure ProcessReturn where
  output : Text
  exitCode : Int
  lines : List Text
  fault : Option ProcessFault

/-- Make a call. Whoever makes it may give up before it begins, or when a line is passed on. -/
def Machine.execute (m : Machine) (s : ToolSettings) (t : FileTree) (i : Invocation)
    (cancelled : Bool) (logged : Bool) (cancelOn : Option Text) : ProcessReturn :=
  match m.launch s t i.script cancelled with
  | .error f => ⟨[], 0, [], some (.unlaunched s.binary f)⟩
  | .ok p =>
    let log := p.log logged
    let killed := cancelOn.any log.complete.contains
    let late := cancelOn.any log.leftover.contains
    { output := log.output
      exitCode := if killed then Exit.signal.number else p.exit.number
      lines := log.lines
      fault := if killed || late then some (.cancelled i.label)
        else if p.overstays s.killGrace then some (.held i.label)
        else none }

/-- What a process amounts to when it is played against a clock. -/
def ProcessPlan.behavior (p : ProcessPlan) (s : ToolSettings) (i : Invocation) : Behavior where
  lines := (p.log true).lines.map fun l => (0, l)
  length := if p.hangs then none else some (min p.held s.killGrace)
  ending := if p.overstays s.killGrace then
      .failed (p.log true).output (ProcessFault.held i.label).message
    else .done (p.log true).output
  opening := p.effect
  halted := fun _ => .giveUp 0

/-- The tool that starts a process for each call; `cancelled` says that whoever calls it has given
up already. -/
def Machine.tool (m : Machine) (s : ToolSettings) (cancelled : Bool) : Tool := fun _ t i =>
  match m.launch s t i.script cancelled with
  | .error f => .refusal 0 (launchReason s.binary f)
  | .ok p => p.behavior s i

end Regatta.Tool
