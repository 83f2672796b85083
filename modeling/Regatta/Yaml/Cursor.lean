import Regatta.Yaml.Token

/-! Reading characters and keeping count of lines.

The end of the text looks like the character `nul`, which no text holds. -/
namespace Regatta.Yaml

def nul : Char := Char.ofNat 0

def isBlank (c : Char) : Bool := c == ' ' || c == '\t'

/-- The characters that end a line. -/
def isBreak (c : Char) : Bool :=
  c == '\n' || c == '\r' || c.toNat == 0x85 || c.toNat == 0x2028 || c.toNat == 0x2029

def endsLine (c : Char) : Bool := c == nul || isBreak c

def endsWord (c : Char) : Bool := isBlank c || endsLine c

/-- The characters of names of anchors, directives and tag handles. -/
def isNameChar (c : Char) : Bool := c.isAlphanum || c == '_' || c == '-'

def hexValue? (c : Char) : Option Nat :=
  if c.isDigit then some (c.toNat - 48)
  else if 'a' ≤ c && c ≤ 'f' then some (c.toNat - 87)
  else if 'A' ≤ c && c ≤ 'F' then some (c.toNat - 55)
  else none

/-- What is left of a text, where it stands, and how many lines ended since the last character that
was not blank. -/
structure Cursor where
  rest : List Char
  fault : Option CharacterFault
  mark : Mark
  newlines : Nat

def Cursor.ofText (t : Text) : Cursor :=
  let (cs, fault) := characters t
  ⟨cs, fault, .start, 0⟩

abbrev Read := StateT Cursor (Except TextFault)

namespace Read

def mark : Read Mark := do return (← get).mark

/-- The character `k` places ahead. -/
def look (k : Nat) : Read Char := do
  let c ← get
  match c.rest.drop k, c.fault with
  | x :: _, _ => pure x
  | [], none => pure nul
  | [], some f => throw (.characters f)

def next : Read Char := look 0

def unreadable {α : Type} (context : Mark) (message : Text) : Read α := do
  throw (.unreadable context (← mark) message)

/-- Take the characters at the front that satisfy `p`, which holds of no character that ends a
line. -/
def takeWhile (p : Char → Bool) : Read (List Char) := do
  let c ← get
  let taken := c.rest.takeWhile p
  let n := taken.length
  set { c with
    rest := c.rest.dropWhile p
    mark := ⟨c.mark.index + n, c.mark.line, c.mark.column + n⟩
    newlines := if taken.all isBlank then c.newlines else 0 }
  pure taken

def skipWhile (p : Char → Bool) : Read Unit := do
  let _ ← takeWhile p

def skipBlanks : Read Unit := skipWhile isBlank

/-- Take `n` characters, none of which ends a line. -/
def take (n : Nat) : Read (List Char) := do
  let c ← get
  let taken := c.rest.take n
  set { c with
    rest := c.rest.drop n
    mark := ⟨c.mark.index + n, c.mark.line, c.mark.column + n⟩
    newlines := if taken.all isBlank then c.newlines else 0 }
  pure taken

def skip (n : Nat) : Read Unit := do
  let _ ← take n

/-- Take the end of a line: a line feed, except that the two separators stand for themselves. -/
def takeBreak : Read (List Char) := do
  let c ← get
  let pass (n : Nat) (out : List Char) : Read (List Char) := do
    set { c with
      rest := c.rest.drop n
      mark := ⟨c.mark.index + n, c.mark.line + 1, 0⟩
      newlines := c.newlines + 1 }
    pure out
  match c.rest with
  | '\r' :: '\n' :: _ => pass 2 ['\n']
  | x :: _ =>
    if x == '\r' || x == '\n' || x.toNat == 0x85 then pass 1 ['\n']
    else if isBreak x then pass 1 [x]
    else pure []
  | [] => pure []

def skipBreak : Read Unit := do
  let _ ← takeBreak

/-- An upper bound for the number of steps that a loop over the rest of the text takes. -/
def bound : Read Nat := do return (← get).rest.length + 2

/-- Whether a line here is a mark between documents: three dashes or three points. -/
def atDocumentMark (c : Char) : Read Bool := do
  if (← mark).column != 0 then return false
  return (← look 0) == c && (← look 1) == c && (← look 2) == c && endsWord (← look 3)

def atAnyDocumentMark : Read Bool := do
  if ← atDocumentMark '-' then return true
  atDocumentMark '.'

def skipLineComment : Read Unit := do
  let c ← get
  if c.newlines == 0 && (c.rest.dropWhile isBlank).head? == some '#' then
    skipWhile (!endsLine ·)

def skipGap : (fuel : Nat) → Read Unit
  | 0 => pure ()
  | fuel + 1 => do
    skipBlanks
    if isBreak (← next) then
      skipBreak
      skipGap fuel

/-- Skip a run of comments, whatever their indentation, up to the end of the last one. -/
def skipComments : (fuel : Nat) → Read Unit
  | 0 => pure ()
  | fuel + 1 => do
    skipWhile (!endsLine ·)
    let c ← get
    if (c.rest.dropWhile fun x => isBlank x || isBreak x).head? == some '#' then
      skipGap (← bound)
      skipComments fuel

end Read

/-- The text of some characters. -/
def encode (cs : List Char) : Text := cs.flatMap String.utf8EncodeChar

end Regatta.Yaml
