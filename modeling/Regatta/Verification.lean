import Regatta.Race.Basic
import Regatta.Stage

/-! Verification of a circuit: transformation stages one after the other, then a race.

Each stage reads what the one before it wrote, in a scratch directory that is gone when the
verification is over. A stage that leaves no file ends the verification with the verdict `FAIL`. -/
namespace Regatta

namespace Verification

structure Request where
  id : Text
  circuit : Text
  stages : List Stage
  engines : List Engine
  budget : Duration

structure Options where
  /-- Where scratch directories are made; blank for the place of temporary files. -/
  workDirectory : Text
  /-- Time for one stage; none when it is not positive. -/
  transformBudget : Duration

inductive Fault where
  | stage (f : Stage.Fault)
  /-- The work directory cannot be made. -/
  | workDirectory (path : Text) (e : FileError)
  /-- The scratch directory cannot be made. -/
  | scratch (path : Text) (e : FileError)
  | scratchName (pattern : Text)
  | scratchExhausted (pattern : Text)
  /-- The tool could not be launched for a stage. -/
  | unlaunched (stage reason : Text)
  | cancelled
deriving Repr

/-- What stands before the reason when the tool cannot be started. -/
def launchText (reason : Text) : Text := "launch external tool: " ++ reason

def Fault.message : Fault → Text
  | .stage f => f.message
  | .workDirectory p e => "create work dir: mkdir " ++ p ++ ": " ++ e.message
  | .scratch p e => "create scratch dir: mkdir " ++ p ++ ": " ++ e.message
  | .scratchName p => "create scratch dir: mkdirtemp " ++ p ++ ": pattern contains path separator"
  | .scratchExhausted p => "create scratch dir: mkdirtemp " ++ p ++ ": file exists"
  | .unlaunched s r => "transform " ++ s ++ ": " ++ launchText r
  | .cancelled => "context canceled"

inductive Outcome where
  | answer (result : EngineResult) (fault : Option Fault)
  /-- The calling code broke down during a stage. -/
  | breakdown (reason : Text)

inductive Phase where
  | transforming (stage : Stage) (rest : List Stage) (target : Text) (deadline : Option Instant)
      (activity : Activity)
  | racing (race : Race)
  /-- The race is over; whether the verification was cancelled is still to be looked at. -/
  | raced (result : EngineResult)

end Verification

structure Verification where
  request : Verification.Request
  transformBudget : Duration
  /-- The scratch directory, if one was made. -/
  scratch : Option Text
  phase : Verification.Phase

namespace Verification

/-- How often a free name is looked for. -/
def attempts : Nat := 10000

/-- Makes a new directory with a random ending below `base`. -/
def makeScratch (b : Bench) (base pattern : Text) : (tries : Nat) → Bench × Except Fault Text
  | 0 => (b, .error (.scratchExhausted (Path.join [base, pattern] ++ "*")))
  | tries + 1 =>
    let path := Path.join [base, pattern] ++ b.randomEnding b.drawn
    let b := { b with drawn := b.drawn + 1 }
    match b.files.locate path with
    | .error e => (b, .error (.scratch path e))
    | .ok l =>
      if (b.files.lookup l).isSome then makeScratch b base pattern tries
      else ({ b with files := b.files.insert l .directory }, .ok path)

/-- The directory below which scratch directories are made. -/
def workplace (b : Bench) (o : Options) : Text :=
  b.absolute (if o.workDirectory.isEmpty then b.temporary else o.workDirectory)

/-- Makes the scratch directory of a verification, and the work directory before it. -/
def scratchDirectory (b : Bench) (o : Options) (id : Text) : Bench × Except Fault Text :=
  let base := workplace b o
  match b.files.makeAll base with
  | (files, some (p, e)) => ({ b with files }, .error (.workDirectory p e))
  | (files, none) =>
    let b := { b with files }
    let front : Text := if id.isEmpty then "verify-" else id ++ "-"
    if front.any (· == Path.slash) then (b, .error (.scratchName (front ++ "*")))
    else makeScratch b base front attempts

/-- The file that a stage writes. -/
def target (scratch : Text) (s : Stage) (source : Text) : Text :=
  Path.join [scratch, s.name ++ "_" ++ Path.base source]

def startStage (b : Bench) (r : Request) (budget : Duration) (scratch source : Text) (s : Stage)
    (rest : List Stage) : Bench × Phase :=
  let target := target scratch s source
  let deadline := b.deadline budget
  let (b, a) := b.call (.transform r.id s.name s.commands source target)
  (b, .transforming s rest target deadline a)

/-- Removes the scratch directory. -/
def clear (b : Bench) : (scratch : Option Text) → Bench
  | none => b
  | some d => { b with files := (b.files.removeAll d).toOption.getD b.files }

/-- The end of a verification whose race is over. -/
def close (b : Bench) (scratch : Option Text) (stop : Bool) (r : EngineResult) : Bench × Outcome :=
  (clear b scratch, .answer r (if stop then some .cancelled else none))

def startRace (b : Bench) (r : Request) (circuit : Text) : Bench × Phase :=
  match Race.start b r.id circuit r.budget r.engines with
  | (b, .going race) => (b, .racing race)
  | (b, .ended result) => (b, .raced result)

def start (b : Bench) (o : Options) (r : Request) : Bench × Progress Verification Outcome :=
  match r.stages.firstM (fun s => match s.validate with | .error f => some f | .ok _ => none) with
  | some f => (b, .ended (.answer .failed (some (.stage f))))
  | none =>
    let circuit := b.absolute r.circuit
    match r.stages with
    | [] =>
      let (b, p) := startRace b r circuit
      (b, .going ⟨r, o.transformBudget, none, p⟩)
    | s :: rest =>
      match scratchDirectory b o r.id with
      | (b, .error f) => (b, .ended (.answer .failed (some f)))
      | (b, .ok d) =>
        let (b, p) := startStage b r o.transformBudget d circuit s rest
        (b, .going ⟨r, o.transformBudget, some d, p⟩)

/-- Whether a stage left a file with something in it. -/
def produced (t : FileTree) (path : Text) : Bool :=
  match t.stat path with
  | .ok (.file c _) => !c.isEmpty
  | .ok .directory => true
  | .error _ => false

/-- What a stage's return amounts to: the file it left, nothing, or a reason to break off. -/
inductive Transformed where
  | file
  | nothing
  | fault (f : Fault)
  | breakdown (reason : Text)

def judgeStage (b : Bench) (s : Stage) (target : Text) : Ending → Bench × Transformed
  | .breakdown r => (b, .breakdown r)
  | .unlaunched r => (b.count (.transform s.name "error"), .fault (.unlaunched s.name r))
  | .done _ =>
    if produced b.files target then (b.count (.transform s.name "ok"), .file)
    else
      ((b.note .warn "transform produced no artifact").count (.transform s.name "fail"), .nothing)
  | _ => ((b.note .warn "transform failed").count (.transform s.name "fail"), .nothing)

/-- Goes on after a stage that left a file, with the next stage or the race. -/
def resume (v : Verification) (b : Bench) (source : Text) : List Stage → Bench × Verification
  | s :: rest =>
    let (b, p) := startStage b v.request v.transformBudget (v.scratch.getD "") source s rest
    (b, { v with phase := p })
  | [] =>
    let (b, p) := startRace b v.request source
    (b, { v with phase := p })

def afterStage (v : Verification) (b : Bench) (stop : Bool) (rest : List Stage) (target : Text) :
    Transformed → Bench × Progress Verification Outcome
  | .breakdown reason => (clear b v.scratch, .ended (.breakdown reason))
  | .fault f => (clear b v.scratch, .ended (.answer .failed (some f)))
  | .nothing =>
    (clear b v.scratch,
      .ended (if stop then .answer .inconclusive (some .cancelled) else .answer .failed none))
  | .file =>
    if stop then (clear b v.scratch, .ended (.answer .inconclusive (some .cancelled)))
    else
      let (b, v) := v.resume b target rest
      (b, .going v)

/-- What the verification does up to now, as far as the next look at whether it was cancelled. A
stage that starts now has done nothing yet. -/
def step (v : Verification) (b : Bench) (stop : Bool) :
    Bench × List RaceEvent × Progress Verification Outcome :=
  match v.phase with
  | .racing race =>
    match race.advance b stop with
    | (b, events, .going race) => (b, events, .going { v with phase := .racing race })
    | (b, events, .ended result) => (b, events, .going { v with phase := .raced result })
  | .raced result =>
    let (b, o) := close b v.scratch stop result
    (b, [], .ended o)
  | .transforming s rest target deadline a =>
    match a.advance b.now (stop || b.passed deadline) with
    | (lines, .going a) =>
      (b, lines.map (.line s.name ·),
        .going { v with phase := .transforming s rest target deadline a })
    | (lines, .ended r) =>
      let (b, t) := judgeStage { b with files := r.closing b.files } s target r.ending
      let (b, p) := v.afterStage b stop rest target t
      (b, lines.map (.line s.name ·), p)

/-- How many steps at one instant a verification can take. -/
def depth (v : Verification) : Nat :=
  match v.phase with
  | .raced _ => 1
  | .racing _ => 2
  | .transforming _ rest .. => rest.length + 3

/-- Steps until nothing more happens at this instant. -/
def settle : (fuel : Nat) → Verification → Bench → (stop : Bool) →
    Bench × List RaceEvent × Progress Verification Outcome
  | 0, v, b, _ => (b, [], .going v)
  | fuel + 1, v, b, stop =>
    match v.step b stop with
    | (b, events, .ended o) => (b, events, .ended o)
    | (b, events, .going v') =>
      if v'.depth < v.depth then
        let (b, more, p) := settle fuel v' b stop
        (b, events ++ more, p)
      else (b, events, .going v')

def advance (v : Verification) (b : Bench) (stop : Bool) :
    Bench × List RaceEvent × Progress Verification Outcome :=
  settle v.depth v b stop

def wake (v : Verification) (now : Instant) : Option Instant :=
  match v.phase with
  | .racing r => r.wake now
  | .raced _ => some now
  | .transforming _ _ _ deadline a => Instant.next now [a.wake, deadline]

end Verification
end Regatta
