import Regatta.Yaml.Cursor

/-! Scalars as they are written: plain, quoted, or as a block of lines. -/
namespace Regatta.Yaml
open Read

/-- What stands between two pieces of a scalar. -/
structure Gap where
  /-- Whether a line ended. -/
  broken : Bool
  blanks : List Char
  /-- The first end of a line and those after it. -/
  first : List Char
  more : List Char

namespace Gap

def none : Gap := ⟨false, [], [], []⟩

/-- What a gap contributes: blanks are kept, one end of a line is a space, and of several the first
is dropped. -/
def folded (g : Gap) : List Char :=
  if !g.broken then g.blanks
  else if g.first.head? == some '\n' then (if g.more.isEmpty then [' '] else g.more)
  else g.first ++ g.more

/-- Read on through blanks and ends of lines. In a plain scalar no tab may stand where the
indentation is short of `indent`. -/
def read (indent : Option (Mark × Int)) : (fuel : Nat) → Gap → Read Gap
  | 0, g => pure g
  | fuel + 1, g => do
    let c ← next
    if isBlank c then
      if let some (start, least) := indent then
        if g.broken && (← mark).column < least && c == '\t' then
          unreadable start "found a tab character that violates indentation"
      let taken ← take 1
      read indent fuel (if g.broken then g else { g with blanks := g.blanks ++ taken })
    else if isBreak c then
      let taken ← takeBreak
      read indent fuel (if g.broken then { g with more := g.more ++ taken }
        else ⟨true, [], taken, g.more⟩)
    else pure g

end Gap

/-! ### Plain scalars -/

def isFlowIndicator (c : Char) : Bool :=
  c == ',' || c == '?' || c == '[' || c == ']' || c == '\x7b' || c == '\x7d'

/-- The part of a plain scalar up to a blank or an indicator that ends it. -/
def plainRun (inFlow : Bool) : List Char → List Char
  | [] => []
  | c :: rest =>
    if endsWord c || (c == ':' && endsWord (rest.head?.getD nul)) || (inFlow && isFlowIndicator c)
    then []
    else c :: plainRun inFlow rest

/-- A plain scalar so far: its content, the gap after it, and where the content ends. -/
structure Plain where
  content : List Char
  gap : Gap
  last : Mark

def plainFrom (inFlow : Bool) (indent : Int) (start : Mark) : (fuel : Nat) → Plain → Read Plain
  | 0, p => pure p
  | fuel + 1, p => do
    if ← atAnyDocumentMark then return p
    if (← next) == '#' then return p
    let run ← take (plainRun inFlow (← get).rest).length
    let p ← if run.isEmpty then pure p else
      pure (Plain.mk (p.content ++ p.gap.folded ++ run) .none (← mark))
    let c ← next
    if !(isBlank c || isBreak c) then return p
    let gap ← Gap.read (some (start, indent)) (← bound) p.gap
    let p := { p with gap }
    if !inFlow && (← mark).column < indent then return p
    plainFrom inFlow indent start fuel p

/-- A plain scalar, and whether a line ended after it. -/
def plainScalar (inFlow : Bool) (indent : Int) : Read (Token × Bool) := do
  let start ← mark
  let p ← plainFrom inFlow indent start (← bound) ⟨[], .none, start⟩
  return (⟨.scalar (encode p.content) .plain, start, p.last⟩, p.gap.broken)

/-! ### Quoted scalars -/

/-- What a backslash and a character stand for. -/
def escape? (c : Char) : Option Char :=
  [('0', 0), ('a', 7), ('b', 8), ('t', 9), ('\t', 9), ('n', 10), ('v', 11), ('f', 12), ('r', 13),
    ('e', 27), (' ', 32), ('"', 34), ('\'', 39), ('\\', 92), ('N', 0x85), ('_', 0xA0),
    ('L', 0x2028), ('P', 0x2029)].lookup c |>.map Char.ofNat

/-- How many digits follow a backslash and this character. -/
def escapeDigits? (c : Char) : Option Nat := [('x', 2), ('u', 4), ('U', 8)].lookup c

def escaped (start : Mark) : Read Char := do
  let c ← look 1
  match escape? c, escapeDigits? c with
  | some x, _ =>
    skip 2
    pure x
  | none, none => unreadable start "found unknown escape character"
  | none, some n =>
    skip 2
    let digits := (← get).rest.take n
    match digits.mapM hexValue? with
    | none => unreadable start "did not find expected hexdecimal number"
    | some ds =>
      if ds.length < n then unreadable start "did not find expected hexdecimal number"
      let value := ds.foldl (fun v d => 16 * v + d) 0
      if (0xD800 ≤ value && value ≤ 0xDFFF) || 0x10FFFF < value then
        unreadable start "found invalid Unicode character escape code"
      skip n
      pure (Char.ofNat value)

/-- The part of a quoted scalar up to a blank or the closing quote, and whether it ends in an
escaped end of a line. -/
def quotedRun (single : Bool) (start : Mark) :
    (fuel : Nat) → List Char → Read (List Char × Bool)
  | 0, acc => pure (acc, false)
  | fuel + 1, acc => do
    let c ← next
    if endsWord c then return (acc, false)
    if single then
      if c == '\'' then
        if (← look 1) == '\'' then
          skip 2
          quotedRun single start fuel (acc ++ [c])
        else return (acc, false)
      else quotedRun single start fuel (acc ++ (← take 1))
    else if c == '"' then return (acc, false)
    else if c == '\\' then
      if isBreak (← look 1) then
        skip 1
        skipBreak
        return (acc, true)
      quotedRun single start fuel (acc ++ [← escaped start])
    else quotedRun single start fuel (acc ++ (← take 1))

def quotedFrom (single : Bool) (start : Mark) : (fuel : Nat) → List Char → Read (List Char)
  | 0, acc => pure acc
  | fuel + 1, acc => do
    if ← atAnyDocumentMark then unreadable start "found unexpected document indicator"
    if (← next) == nul then unreadable start "found unexpected end of stream"
    let (acc, broken) ← quotedRun single start (← bound) acc
    if (← next) == (if single then '\'' else '"') then return acc
    let gap ← Gap.read none (← bound) { Gap.none with broken }
    quotedFrom single start fuel (acc ++ gap.folded)

def quotedScalar (single : Bool) : Read Token := do
  let start ← mark
  skip 1
  let content ← quotedFrom single start (← bound) []
  skip 1
  return ⟨.scalar (encode content) (if single then .singleQuoted else .doubleQuoted), start, ← mark⟩

/-! ### Block scalars -/

inductive Chomping where
  | strip
  | clip
  | keep
deriving DecidableEq

def chomping? : Char → Option Chomping
  | '-' => some .strip
  | '+' => some .keep
  | _ => none

def blockIncrement (start : Mark) : Read (Option Nat) := do
  let c ← next
  if !c.isDigit then return none
  if c == '0' then unreadable start "found an indentation indicator equal to 0"
  skip 1
  return some (c.toNat - 48)

/-- The indicators in the first line of a block scalar, in either order. -/
def blockHeader (start : Mark) : Read (Chomping × Option Nat) := do
  match chomping? (← next) with
  | some chomp =>
    skip 1
    return (chomp, ← blockIncrement start)
  | none =>
    match ← blockIncrement start with
    | none => return (.clip, none)
    | some n =>
      match chomping? (← next) with
      | none => return (.clip, some n)
      | some chomp =>
        skip 1
        return (chomp, some n)

/-- Skip indentation and take empty lines. The result is the ends of lines, the deepest column that
was reached, and where the last line ended. -/
def blockBreaks (start : Mark) (indent : Option Nat) :
    (fuel : Nat) → List Char → (deepest : Nat) → (last : Mark) → Read (List Char × Nat × Mark)
  | 0, acc, deepest, last => pure (acc, deepest, last)
  | fuel + 1, acc, deepest, last => do
    let here := (← mark).column
    let spaces := ((← get).rest.takeWhile (· == ' ')).length
    skip (match indent with
      | none => spaces
      | some n => min spaces (n - here))
    let here := (← mark).column
    let c ← next
    if (indent.all (here < ·)) && c == '\t' then
      unreadable start "found a tab character where an indentation space is expected"
    if !isBreak c then return (acc, max deepest here, last)
    let taken ← takeBreak
    blockBreaks start indent fuel (acc ++ taken) (max deepest here) (← mark)

/-- A block scalar so far: its content, the end of its last line, the empty lines after it, whether
the last line began with a blank, and where it ends. -/
structure Block where
  content : List Char
  lineEnd : List Char
  empty : List Char
  blank : Bool
  last : Mark

/-- The ends of lines between two lines. Folding joins lines that do not begin with a blank. -/
def Block.joined (b : Block) (folding blank : Bool) : List Char :=
  if folding && !b.blank && !blank && b.lineEnd.head? == some '\n' then
    (if b.empty.isEmpty then [' '] else []) ++ b.empty
  else b.lineEnd ++ b.empty

def blockLines (folding : Bool) (start : Mark) (indent : Nat) : (fuel : Nat) → Block → Read Block
  | 0, b => pure b
  | fuel + 1, b => do
    let c ← next
    if (← mark).column != indent || c == nul then return b
    let before := b.joined folding (isBlank c)
    let line ← takeWhile (!endsLine ·)
    let _ ← next
    let lineEnd ← takeBreak
    let (empty, _, last) ← blockBreaks start (some indent) (← bound) [] 0 (← mark)
    blockLines folding start indent fuel
      ⟨b.content ++ before ++ line, lineEnd, empty, isBlank c, last⟩

/-- A block scalar inside a construct that is indented by `outer`. -/
def blockScalar (folding : Bool) (outer : Int) : Read Token := do
  let start ← mark
  skip 1
  let (chomp, increment) ← blockHeader start
  skipBlanks
  if (← next) == '#' then skipWhile (!endsLine ·)
  if !endsLine (← next) then unreadable start "did not find expected comment or line break"
  skipBreak
  let given := increment.map fun n => (max outer 0).toNat + n
  let (empty, deepest, last) ← blockBreaks start given (← bound) [] 0 (← mark)
  let indent := given.getD (max deepest (max (outer + 1).toNat 1))
  let b ← blockLines folding start indent (← bound) ⟨[], [], empty, false, last⟩
  let tail := match chomp with
    | .strip => []
    | .clip => b.lineEnd
    | .keep => b.lineEnd ++ b.empty
  return ⟨.scalar (encode (b.content ++ tail)) (if folding then .folded else .literal), start, b.last⟩

end Regatta.Yaml
