import Regatta.Bench
import Regatta.Cli.Catalog
import Regatta.Stage
import Regatta.Tool.Process

/-! Where a command runs, and how its flags are read. -/
namespace Regatta.Cli

structure Station where
  environment : Environment
  files : FileTree
  machine : Tool.Machine
  now : Instant
  /-- Whether it was told to stop before it began. -/
  cancelled : Bool
  randomEnding : Nat → Text
  newId : Nat → Text

/-- What a command printed, how it failed, and the files afterwards. -/
structure Outcome where
  stdout : Text
  failure : Option Failure
  files : FileTree

namespace Station

variable (s : Station)

def fail (f : Failure) : Outcome := ⟨"", some f, s.files⟩

def cancelAt : Option Instant := if s.cancelled then some s.now else none

def bench (t : ToolSettings) : Bench where
  now := s.now
  files := s.files
  temporary := s.environment.temporary
  tool := s.machine.tool t.complete s.cancelled
  randomEnding := s.randomEnding

end Station

def misuse (message : Text) : Failure := .exit Failure.usage message none

/-- A command that could not be understood, and why. -/
def misuseBecause (message cause : Text) : Failure :=
  .exit Failure.usage message (some (.plain cause))

/-! ### Values of flags -/

namespace Given

def text (g : Given) (f : Flag) : Text :=
  match g.value f with
  | .text t => t
  | _ => ""

def toggle (g : Given) (f : Flag) : Bool :=
  match g.value f with
  | .toggle b => b
  | _ => false

def number (g : Given) (f : Flag) : Int :=
  match g.value f with
  | .number n => n
  | _ => 0

def duration (g : Given) (f : Flag) : Duration :=
  match g.value f with
  | .duration d => d
  | _ => 0

def items (g : Given) (f : Flag) : List Text :=
  match g.value f with
  | .list ts | .array ts => ts
  | _ => []

/-- The settings of the tool, with those that flags override. -/
def toolSettings (g : Given) (d : Defaults) : ToolSettings :=
  { d.tool with binary := g.text d.toolFlag, workDirectory := g.text d.toolDirectoryFlag }

end Given

/-! ### Checks that commands share -/

def readEngines (names : List Text) : Except Failure (List Engine) :=
  if names.isEmpty then .error (misuse "at least one engine is required")
  else match Engine.parseList names with
    | .ok es => .ok es
    | .error e => .error (misuseBecause "invalid engines" e.message)

def readTimeout (d : Duration) : Except Failure Duration :=
  if d ≤ 0 then .error (misuse "timeout must be positive") else .ok d

/-- The stages that flags ask for; without any there is the default one. -/
def readStages (given : List Text) (noTransform : Bool) : Except Failure (List Stage) :=
  if noTransform then
    if given.isEmpty then .ok []
    else .error (misuse "--stage and --no-transform are mutually exclusive")
  else if given.isEmpty then .ok Stage.defaults
  else given.mapM fun t =>
    match Stage.parse t with
    | .ok st => .ok st
    | .error f => .error (misuseBecause "invalid stage" f.message)

def readSource (t : Text) : Except Failure Stats.Source :=
  match Stats.Source.parse t with
  | .ok s => .ok s
  | .error m => .error (misuseBecause "invalid stats source" m)

/-- Formats of what is not a report: a table or JSON. -/
def checkFormat (t : Text) : Except Failure Unit :=
  if t == ReportFormat.text.name || t == ReportFormat.json.name then .ok ()
  else .error (misuse ("invalid format " ++ Text.quoted t ++ ": must be json or text"))

/-- The tool must be found before anything is asked of it. -/
def Station.requireTool (s : Station) (binary : Text) : Except Failure Unit :=
  match Tool.findProgram s.files s.machine.search binary with
  | .ok _ => .ok ()
  | .error f => .error (misuseBecause "abc binary not found" f.message)

end Regatta.Cli
