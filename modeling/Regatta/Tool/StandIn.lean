import Regatta.Tool.Program

/-! A stand-in for the external tool, which answers from a table of engines.

It keeps a history of its scripts in the directory it runs in, as the tool does. A script that
writes a circuit gets a copy of the one it reads. -/
namespace Regatta.Tool

/-- What an engine of the stand-in does. -/
structure EngineAct where
  output : Text
  hangs : Bool

/-- What becomes of a circuit that is to be written. -/
inductive Writing where
  | copy
  | empty
  | none
deriving DecidableEq, Repr

structure StandIn where
  engines : List (Text × EngineAct)
  writing : Writing := .copy
  summary : Text := ""
  /-- Whether a script fails when the circuit it reads is not there. -/
  checksInput : Bool := false

namespace StandIn

/-- The summary that is printed when no other is given. -/
def defaultSummary : Text := "top  : i/o =    5/    3  lat =    2  and =     17  lev =  6"

def historyName : Text := "abc.history"

def readPath (script : Text) : Text :=
  ((Text.stripPrefix? "read " script).getD script).takeWhile (· != 59)

/-- What follows the last `mark` in a text. -/
def afterLast (mark : Text) : Text → Option Text
  | [] => none
  | b :: rest =>
    (afterLast mark rest) <|> Text.stripPrefix? mark (b :: rest)

def writePath (script : Text) : Option Text := afterLast "; write " script

def addLine (path line : Text) (t : FileTree) : FileTree :=
  let old := (t.read path).toOption.getD []
  (t.write path (old ++ line ++ "\n")).toOption.getD t

/-- Make the circuit that is to be written, and say what went wrong. -/
def writeCircuit (r : Writing) (source target : Text) (t : FileTree) : FileTree × Text :=
  match r with
  | .none => (t, "")
  | .empty => ((t.write target []).toOption.getD t, "")
  | .copy =>
    match t.read source with
    | .ok content => ((t.write target content).toOption.getD t, "")
    | .error .isDirectory =>
      (t, "cp: -r not specified; omitting directory '" ++ source ++ "'\n")
    | .error _ => (t, "cp: cannot stat '" ++ source ++ "': No such file or directory\n")

def isFile (t : FileTree) (path : Text) : Bool :=
  match t.stat path with
  | .ok (.file _ _) => true
  | _ => false

/-- The engines in the order in which they are looked for. -/
def sorted (s : StandIn) : List (Text × EngineAct) := s.engines.mergeSort fun a b => Text.le a.1 b.1

/-- What it prints and does for a script, as seen from the directory it runs in. -/
def plan (s : StandIn) (script : Text) (t : FileTree) : ProcessPlan :=
  let summary := if s.summary.isEmpty then defaultSummary else s.summary
  let source := readPath script
  if s.checksInput && !isFile t source then
    { stdout := "Error: Cannot open input file \"" ++ source ++ "\".\n", exit := .code 1 }
  else
    match s.sorted.find? fun (name, _) => Text.contains ("; " ++ name ++ ";") script with
    | some (_, act) =>
      if act.hangs then { hangs := true } else { stdout := act.output ++ "\n" ++ summary ++ "\n" }
    | none =>
      match writePath script with
      | some target =>
        { stdout := "transform done\n"
          stderr := (writeCircuit s.writing source target t).2
          effect := fun t => (writeCircuit s.writing source target t).1 }
      | none =>
        if Text.contains "print_stats" script then { stdout := summary ++ "\n" }
        else { stdout := "no verdict\n" }

/-- The stand-in as a program, which writes down its scripts in `notes` too. -/
def program (s : StandIn) (notes : Text) : Program := fun arguments directory t =>
  let script := arguments[1]?.getD []
  let p := s.plan script { t with current := directory }
  { p with
    effect := fun t =>
      let inside := { t with current := directory }
      let t' := p.effect (addLine historyName script (addLine notes script inside))
      { t' with current := t.current } }

end StandIn
end Regatta.Tool
