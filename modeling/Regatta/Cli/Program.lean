import Regatta.Cli.Engines
import Regatta.Cli.Help
import Regatta.Cli.Race
import Regatta.Cli.Serve

/-! The program: from arguments to what is printed and how it ends. -/
namespace Regatta.Cli

/-- Whether a text can stand between backquotes: it has none itself, no control character but the
tab, and no byte order mark. -/
def fitsBackquotes (t : Text) : Bool :=
  t.isValid && t.all (fun b => b != 96 && (32 ≤ b || b == 9) && b != 127) &&
    !Text.contains "\ufeff" t

/-- A list of topics, each between backquotes where it can be. -/
def shownTopics (topics : List Text) : Text :=
  let shown (t : Text) : Text :=
    if fitsBackquotes t then "\x60" ++ t ++ "\x60" else Text.quoted t
  "[" ++ Text.join " " (topics.map shown) ++ "]"

def helpOn (top : Command) (topics : List Text) : Text :=
  match top.find topics with
  | .ok (l, _) => l.help
  | .error _ =>
    "Unknown help topic " ++ shownTopics topics ++ "\n" ++ Lineage.usage ⟨top, []⟩ false

/-- Logs are lines of JSON or of text. -/
def checkLogFormat (t : Text) : Except Failure Unit :=
  if t == "json" || t == "text" then .ok ()
  else .error (misuse ("invalid log format " ++ Text.quoted t ++ ": must be json or text"))

namespace Station

variable (s : Station)

/-- Do what a command is for; nothing comes of it when the calling code broke down. -/
def perform (d : Defaults) (a : Action) (g : Given) : Option Outcome :=
  match a with
  | .batch => some (s.batch d g)
  | .race => some (s.race d g (g.arguments.head?.getD ""))
  | .stats => s.stats d g g.arguments
  | .serve => some (s.serve d g)
  | .engines => some (s.engines d g)
  | .help => some ⟨helpOn d.top g.arguments, none, s.files⟩
  | .completion _ => some ⟨"", none, s.files⟩

/-- Run a command that was found, on the arguments that are left for it. -/
def runFound (d : Defaults) (l : Lineage) (as : List Text) : Option Outcome :=
  let help := helpFlag l.command
  let plain (f : CommandFault) : Option Outcome := some (s.fail (.plain f.message))
  match readArguments (help :: l.flags) (as.length + 1) as {} with
  | .error f => plain (.flag f)
  | .ok g =>
    if g.toggle help then some ⟨l.help, none, s.files⟩
    else match l.command.action with
      | none => some ⟨l.help, none, s.files⟩
      | some a =>
        match l.checkArguments g.arguments with
        | .error f => plain f
        | .ok _ =>
          match checkLogFormat (g.text d.logFormatFlag) with
          | .error f => some (s.fail f)
          | .ok _ => s.perform d a g

def run (as : List Text) : Option Outcome :=
  let d := Defaults.load s.environment
  match d.top.find as with
  | .error f => some (s.fail (.plain f.message))
  | .ok (l, rest) => s.runFound d l rest

end Station

def Failure.shown (f : Failure) : Text := programName ++ ": " ++ f.message

end Regatta.Cli
