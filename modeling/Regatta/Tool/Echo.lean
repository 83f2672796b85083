import Regatta.Tool.Program

/-! Small scripts: lines that print words and a line that ends with a code. -/
namespace Regatta.Tool

def lineWords (line : Text) : List Text := (Text.splitOn 32 line).filter (!·.isEmpty)

def followLines : List Text → ProcessPlan → ProcessPlan
  | [], p => p
  | line :: rest, p =>
    match lineWords line with
    | [] => followLines rest p
    | word :: words =>
      if word == "echo" then
        followLines rest { p with stdout := p.stdout ++ Text.join " " words ++ "\n" }
      else if word == "exit" then
        { p with exit := .code ((words.head?.map Text.digitsValue).getD 0) }
      else followLines rest p

/-- What a script does; lines that begin with a number sign are comments. -/
def scriptPlan (content : Text) : ProcessPlan :=
  followLines ((Text.splitOn 10 content).filter fun l => l.head? != some 35) {}

/-- The script in a file as a program. -/
def scriptProgram (l : Location) : Program := fun _ _ t =>
  match t.lookup l with
  | some (.file content _) => scriptPlan content
  | _ => {}

end Regatta.Tool
