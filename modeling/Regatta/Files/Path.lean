import Regatta.Text.Basic

/-! Paths as text, and what can be said of them without looking at any file. -/
namespace Regatta.Path

def slash : UInt8 := 47

def isAbsolute (p : Text) : Bool := p.head? == some slash

/-- The named parts of a path; empty parts and `.` say nothing. -/
def parts (p : Text) : List Text :=
  (Text.splitOn slash p).filter fun c => !(c.isEmpty || c == ".")

/-- Resolves `..` against the parts before it, which are given innermost first. At the root
there is nothing above. -/
def resolveParts (rooted : Bool) : (done : List Text) → List Text → List Text
  | done, [] => done.reverse
  | done, c :: rest =>
    if c == ".." then
      match done with
      | [] => if rooted then resolveParts rooted [] rest else resolveParts rooted [c] rest
      | d :: above =>
        if d == ".." then resolveParts rooted (c :: done) rest
        else resolveParts rooted above rest
    else resolveParts rooted (c :: done) rest

/-- The shortest path with the same meaning, by its text alone. -/
def clean (p : Text) : Text :=
  let rooted := isAbsolute p
  let body := Text.join "/" (resolveParts rooted [] (parts p))
  if rooted then "/" ++ body
  else if body.isEmpty then "." else body

/-- The paths one after the other, cleaned. Empty ones are left out. -/
def join (ps : List Text) : Text :=
  let kept := ps.filter (!·.isEmpty)
  if kept.isEmpty then [] else clean (Text.join "/" kept)

def base (p : Text) : Text :=
  if p.isEmpty then "."
  else
    let cs := (Text.splitOn slash p).filter (!·.isEmpty)
    cs.getLast?.getD "/"

def directory (p : Text) : Text :=
  let front := (p.reverse.dropWhile (· != slash)).reverse
  clean front

/-- The path seen from the root, given the current directory. -/
def absolute (current p : Text) : Text :=
  if isAbsolute p then clean p else join [current, p]

end Regatta.Path
