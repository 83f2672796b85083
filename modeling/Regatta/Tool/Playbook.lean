import Regatta.Tool.Activity

/-! A tool that answers from a playbook.

The playbook lists, under a key, what the tool does on the first, second, … call of that key; the
last entry repeats. The key of a call is its label and the base name of the file it reads, or the
label alone when the playbook has no such entry. -/
namespace Regatta

/-- What becomes of the file that a call is to write. -/
inductive Artifact where
  | copy
  | empty
  | none
  | content (t : Text)
deriving DecidableEq, Repr, Inhabited

structure Play where
  delay : Duration := 0
  output : Text := ""
  error : Text := ""
  artifact : Artifact := .copy
  lines : List (Duration × Text) := []
deriving Repr, Inhabited

/-- The plays by key. -/
abbrev Playbook := List (Text × List Play)

namespace Playbook

/-- What tells the ends of simultaneous calls apart: a few nanoseconds that depend on the label. -/
def skew (label : Text) : Duration :=
  match Engine.all.find? fun e => e.name == label with
  | some e => e.code.toNat
  | none => 6

def key (p : Playbook) (i : Invocation) : Text :=
  let long := i.label ++ ":" ++ Path.base (i.source?.getD "")
  if (p.lookup long).isSome then long else i.label

def play (p : Playbook) (history : List Invocation) (i : Invocation) : Play :=
  let k := p.key i
  let plays := (p.lookup k).getD []
  let earlier := (history.filter fun h => p.key h == k).length
  (plays[min earlier (plays.length - 1)]?).getD {}

/-- Makes the file that a call is to write. -/
def make (a : Artifact) (i : Invocation) (t : FileTree) : FileTree :=
  match i.target? with
  | none => t
  | some q =>
    let put (c : Text) : FileTree := (t.write q c).toOption.getD t
    match a with
    | .copy => ((i.source?.bind fun s => (t.read s).toOption).map put).getD t
    | .empty => put ""
    | .none => t
    | .content c => put c

def ending (p : Play) : Ending :=
  if p.error == "launch" then .unlaunched "tool: not found"
  else if p.error == "panic" then .breakdown "tool panic"
  else if p.error.isEmpty then .done p.output
  else .failed p.output p.error

def behavior (p : Play) (i : Invocation) : Behavior :=
  let skew := skew i.label
  match ending p with
  | .unlaunched r => .refusal skew r
  | e => {
      lines := p.lines.map fun (d, l) => (d + skew, l)
      length := some (p.delay + skew)
      ending := e
      closing := match e with | .done _ => make p.artifact i | _ => id
      halted := fun _ => .giveUp skew }

def tool (p : Playbook) : Tool := fun history _ i => behavior (p.play history i) i

end Playbook
end Regatta
