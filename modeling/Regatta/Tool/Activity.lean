import Regatta.Files.Tree
import Regatta.Time.Instant
import Regatta.Tool.Invocation

/-! What the external tool does once it is called, and calls in progress.

A call is played against a clock. It emits lines at given times and comes to an end of its own, or
never. Told to stop, it does something else from then on, and that comes to an end. -/
namespace Regatta

/-- How a call comes back. -/
inductive Ending where
  | unlaunched (reason : Text)
  /-- The calling code broke down. -/
  | breakdown (reason : Text)
  | failed (output reason : Text)
  | done (output : Text)
  | stopped
deriving DecidableEq, Repr, Inhabited

/-- What the tool does from some moment until it returns, times counted from that moment. -/
structure Course where
  /-- Lines of output, in the order in which they are emitted. -/
  lines : List (Duration × Text)
  length : Duration
  ending : Ending
  /-- What it does to the files when it returns. -/
  closing : FileTree → FileTree := id

/-- Gives up at once, and returns a little later. -/
def Course.giveUp (lag : Duration) : Course := { lines := [], length := lag, ending := .stopped }

/-- What the tool does on one call, times counted from its start. -/
structure Behavior where
  /-- Lines of output, in the order in which they are emitted. -/
  lines : List (Duration × Text)
  /-- When it ends by itself; `none` for never. -/
  length : Option Duration
  ending : Ending
  /-- What it does to the files when it starts. -/
  opening : FileTree → FileTree := id
  /-- What it does to the files when it ends by itself. -/
  closing : FileTree → FileTree := id
  /-- What it does from then on when it is told to stop that long after its start. -/
  halted : Duration → Course

/-- A call that cannot be launched, which shows after a while. It is not there to be stopped. -/
def Behavior.refusal (length : Duration) (reason : Text) : Behavior where
  lines := []
  length := some length
  ending := .unlaunched reason
  halted := fun d => { lines := [], length := length - d, ending := .unlaunched reason }

/-- A tool: what it does on a call, given the calls before it (the latest first) and the files. -/
abbrev Tool := (history : List Invocation) → FileTree → Invocation → Behavior

/-- Something that goes on until it comes to an end. -/
inductive Progress (σ : Type) (ρ : Type) where
  | going (state : σ)
  | ended (result : ρ)

/-- A call in progress. -/
structure Activity where
  started : Instant
  /-- Lines that are still to come. -/
  pending : List (Instant × Text)
  /-- When it ends, unless it is told to stop before. -/
  finish : Option Instant
  ending : Ending
  closing : FileTree → FileTree
  /-- What it does when it is told to stop; `none` once it was told. -/
  halted : Option (Duration → Course)

namespace Activity

def start (b : Behavior) (now : Instant) : Activity where
  started := now
  pending := b.lines.map fun (d, l) => (now + d, l)
  finish := b.length.map (now + ·)
  ending := b.ending
  closing := b.closing
  halted := some b.halted

/-- How it comes back, and what it did to the files. -/
structure Return where
  ending : Ending
  closing : FileTree → FileTree

/-- Everything the call does up to `now` when it is left alone: the lines it emits, and how it
stands then. It ends after its last line. -/
def proceed (a : Activity) (now : Instant) : List Text × Progress Activity Return :=
  let due := a.pending.takeWhile fun (t, _) => t ≤ now
  let rest := a.pending.dropWhile fun (t, _) => t ≤ now
  (due.map (·.2),
    if rest.isEmpty && a.finish.any (· ≤ now) then .ended ⟨a.ending, a.closing⟩
    else .going { a with pending := rest })

/-- The call from the moment on when it is told to stop. Telling it again makes no difference. -/
def halt (a : Activity) (now : Instant) : Activity :=
  match a.halted with
  | none => a
  | some react =>
    let c := react (now - a.started)
    { a with
      pending := c.lines.map fun (d, l) => (now + d, l)
      finish := some (now + c.length)
      ending := c.ending
      closing := c.closing
      halted := none }

/-- Everything the call does up to `now`, where `stop` says that it is told to stop by then. What it
has done by itself it has done. -/
def advance (a : Activity) (now : Instant) (stop : Bool) : List Text × Progress Activity Return :=
  match a.proceed now with
  | (lines, .ended r) => (lines, .ended r)
  | (lines, .going a) =>
    if stop then
      let (more, p) := (a.halt now).proceed now
      (lines ++ more, p)
    else (lines, .going a)

/-- When it next has something to do, unless it is told to stop before. -/
def wake (a : Activity) : Option Instant :=
  match a.pending with
  | (t, _) :: _ => some t
  | [] => a.finish

end Activity
end Regatta
