import Regatta.Circuit.Graph
import Regatta.Circuit.Stats
import Std.Data.HashMap

/-! Reading circuits in the AIGER format, version 1.9, in its ASCII and binary forms.

The reader builds a hashed graph, so the figures it gives are those of the circuit after
structural hashing and constant folding. -/
namespace Regatta.Aiger

inductive Fault where
  | prematureEnd
  | endOfFile
  | unexpectedChar
  | badHeader
  | literalOutOfBounds
  | inputNegated
  | latchNegated
  | gateNegated
  | gateRepeated
  | undefinedLiteral
  | loop
  | badInit
  | badDelta
  /-- A variable above the header's maximum where the reader does not look: it breaks down. -/
  | breakdown
deriving DecidableEq, Repr

def Fault.message : Fault → Text
  | .prematureEnd => "premature EOF"
  | .endOfFile => "EOF"
  | .unexpectedChar => "Unexpected char"
  | .badHeader => "Bad header"
  | .literalOutOfBounds => "Literal out of bounds"
  | .inputNegated => "input is negated"
  | .latchNegated => "latch is negated"
  | .gateNegated => "and gate def is negated"
  | .gateRepeated => "and gate multiply defined"
  | .undefinedLiteral => "literal not defined"
  | .loop => "combinational logic has a loop"
  | .badInit => "invalid latch init value"
  | .badDelta => "Bad Delta Encoding"
  | .breakdown => "index out of range"

/-- A reader takes bytes off the front of the file or fails. -/
abbrev Reader := StateT Text (Except Fault)

/-- The next byte; the end of the file comes too early. -/
def nextByte : Reader UInt8 := do
  match ← get with
  | [] => throw .prematureEnd
  | b :: rest => set rest; return b

/-- A decimal number modulo 2⁶⁴. It needs a byte after it to end. -/
def number : Reader Nat := do
  match ← get with
  | [] => throw .prematureEnd
  | t@(b :: _) =>
    if !Text.isDigit b then throw .unexpectedChar
    let rest := t.dropWhile Text.isDigit
    if rest.isEmpty then throw .endOfFile
    set rest
    return Text.digitsValue (t.takeWhile Text.isDigit) % Number.wordCount

def expect (b : UInt8) : Reader Unit := do
  if (← nextByte) != b then throw .unexpectedChar

def newline : Reader Unit := expect 10

/-- The header's figures in order of writing; the last four may be missing. -/
structure Header where
  maxVar : Nat
  inputs : Nat
  latches : Nat
  outputs : Nat
  ands : Nat
  bad : Nat
  constraints : Nat
  justice : Nat
  fairness : Nat
deriving DecidableEq, Repr

/-- The numbers up to the end of the header line, at most `room` more of them. -/
def headerNumbers : (room : Nat) → Reader (List Nat)
  | 0 => do
    if (← nextByte) == 10 then return [] else throw .badHeader
  | room + 1 => do
    let b ← nextByte
    if b == 10 then return []
    if b != 32 then throw .badHeader
    let n ← number
    return n :: (← headerNumbers room)

def header : Reader Header := do
  match ← headerNumbers 9 with
  | m :: i :: l :: o :: a :: rest =>
    return ⟨m, i, l, o, a, rest[0]?.getD 0, rest[1]?.getD 0, rest[2]?.getD 0, rest[3]?.getD 0⟩
  | _ => throw .badHeader

/-- A literal of the file, within the header's bound. -/
def literal (maxVar : Nat) : Reader Nat := do
  let l ← number
  if 2 * maxVar + 1 < l then throw .literalOutOfBounds
  return l

def literalLine (maxVar : Nat) : Reader Nat := do
  let l ← literal maxVar
  newline
  return l

def times (n : Nat) (r : Reader α) : Reader (List α) :=
  match n with
  | 0 => return []
  | n + 1 => do
    let a ← r
    return a :: (← times n r)

/-- What the variables of the file stand for in the graph. -/
structure Build where
  graph : Graph
  meaning : Std.HashMap Nat Nat

namespace Build

def start : Build := ⟨.empty, (∅ : Std.HashMap Nat Nat).insert 0 Graph.falseLit⟩

/-- The literal of the graph for a variable of the file, undefined where there is none. -/
def lookup (b : Build) (v : Nat) : Nat := b.meaning[v]?.getD Graph.undefinedLit

def literal (b : Build) (l : Nat) : Nat :=
  let m := b.lookup (l / 2)
  if l % 2 == 0 then m else Graph.complement m

def define (b : Build) (v l : Nat) : Build := { b with meaning := b.meaning.insert v l }

def addNode (b : Build) (v : Nat) (n : Node) : Build :=
  let (l, g) := b.graph.push n
  { b with graph := g }.define v l

/-- Defines a variable as the node of the conjunction of two literals of the file. Where the
conjunction folds to a complemented literal, the variable still stands for the plain node. -/
def addGate (b : Build) (v left right : Nat) : Build :=
  let (l, g) := b.graph.and (b.literal left) (b.literal right)
  { b with graph := g }.define v (l - l % 2)

def defined (b : Build) (l : Nat) : Bool := b.lookup (l / 2) != Graph.undefinedLit

end Build

/-- A latch's initial value after its next state, up to the end of the line: zero, one, or the
latch itself for "any". -/
def latchInit (self : Nat) : Reader Unit := do
  let b ← nextByte
  if b == 10 then return
  if b != 32 then throw .unexpectedChar
  let i ← number
  if i != 0 && i != 1 && i != self then throw .badInit
  newline

/-- Literals that the file must define, apart from the gates. -/
structure Uses where
  outputs : List Nat
  others : List Nat

/-- Outputs, bad states, constraints, justice properties and fairness constraints. -/
def uses (h : Header) : Reader Uses := do
  let outputs ← times h.outputs (literalLine h.maxVar)
  let bad ← times h.bad (literalLine h.maxVar)
  let constraints ← times h.constraints (literalLine h.maxVar)
  let sizes ← times h.justice (do
    let n ← number
    newline
    return n)
  let justice ← sizes.mapM fun n => times n (literalLine h.maxVar)
  let fairness ← times h.fairness (literalLine h.maxVar)
  return ⟨outputs, bad ++ constraints ++ justice.flatten ++ fairness⟩

def symbolName : Reader Unit := do
  let t ← get
  match t.dropWhile (· != 10) with
  | [] => throw .prematureEnd
  | _ :: rest => set rest

/-- The symbol table and the comments. Each symbol takes at least one byte of the file. -/
def symbols : (fuel : Nat) → Reader Unit
  | 0 => return
  | fuel + 1 => do
    match ← get with
    | [] => return
    | b :: rest =>
      set rest
      if b == 99 then
        match rest with
        | [] => throw .prematureEnd
        | 10 :: _ => return
        | _ => pure ()
      else if !([105, 108, 111, 98, 106, 102].contains b) then throw .unexpectedChar
      let _ ← number
      expect 32
      symbolName
      symbols fuel

def finish (h : Header) (b : Build) (nexts : List Nat) (u : Uses) : Reader Stats := do
  let t ← get
  symbols (t.length + 1)
  if (nexts ++ u.outputs ++ u.others).all b.defined then
    return ⟨h.inputs, h.outputs, h.latches, b.graph.ands⟩
  else throw .undefinedLiteral

/-! ### The ASCII form -/

/-- A gate of the ASCII form: the variable it defines and its operands. -/
structure GateLine where
  left : Nat
  right : Nat
deriving Repr, Inhabited

def inputLine (h : Header) (b : Build) : Reader Build := do
  let l ← literal h.maxVar
  if l % 2 == 1 then throw .inputNegated
  newline
  return b.addNode (l / 2) .input

/-- A latch, and the literal of its next state. -/
def latchLine (h : Header) (b : Build) : Reader (Build × Nat) := do
  let l ← number
  if l % 2 == 1 then throw .latchNegated
  expect 32
  let next ← literal h.maxVar
  latchInit l
  if h.maxVar < l / 2 then throw .breakdown
  return (b.addNode (l / 2) .latch, next)

def inputLines (h : Header) : Nat → Build → Reader Build
  | 0, b => return b
  | n + 1, b => do inputLines h n (← inputLine h b)

def latchLines (h : Header) : Nat → Build → Reader (Build × List Nat)
  | 0, b => return (b, [])
  | n + 1, b => do
    let (b, next) ← latchLine h b
    let (b, nexts) ← latchLines h n b
    return (b, next :: nexts)

def gateLines (h : Header) : Nat → Std.HashMap Nat GateLine → List Nat →
    Reader (Std.HashMap Nat GateLine × List Nat)
  | 0, gates, order => return (gates, order.reverse)
  | n + 1, gates, order => do
    let l ← literal h.maxVar
    expect 32
    let left ← literal h.maxVar
    expect 32
    let right ← literal h.maxVar
    newline
    if l % 2 == 1 then throw .gateNegated
    if gates.contains (l / 2) then throw .gateRepeated
    gateLines h n (gates.insert (l / 2) ⟨left, right⟩) (l / 2 :: order)

/-- The state of the walk over the gates: variables being defined and those done. -/
structure Walk where
  build : Build
  active : Std.HashMap Nat Unit
  done : Std.HashMap Nat Unit

/-- Defines a variable after the variables of its operands. The path from the starting gate never
repeats a gate, so their number bounds the depth. -/
def visit (gates : Std.HashMap Nat GateLine) : (fuel : Nat) → Walk → Nat → Except Fault Walk
  | 0, _, _ => .error .loop
  | fuel + 1, w, v =>
    if w.done.contains v then .ok w
    else if w.active.contains v then .error .loop
    else match gates[v]? with
      | none => .error .undefinedLiteral
      | some g => do
        let w ← visit gates fuel { w with active := w.active.insert v () } (g.left / 2)
        let w ← visit gates fuel w (g.right / 2)
        return { w with
          build := w.build.addGate v g.left g.right
          done := w.done.insert v () }

def visitAll (gates : Std.HashMap Nat GateLine) (fuel : Nat) : List Nat → Walk → Except Fault Walk
  | [], w => .ok w
  | v :: rest, w => do visitAll gates fuel rest (← visit gates fuel w v)

/-- Tables above this size cannot be set up. -/
def tableLimit : Nat := Number.twoTo 46

def checkTable (h : Header) : Reader Unit :=
  if tableLimit ≤ h.maxVar then throw .breakdown else return

def ascii : Reader Stats := do
  let h ← header
  checkTable h
  let b ← inputLines h h.inputs .start
  let (b, nexts) ← latchLines h h.latches b
  let u ← uses h
  let (gates, order) ← gateLines h h.ands ∅ []
  let done := (b.meaning.erase 0).fold (fun s v _ => s.insert v ()) ∅
  let done := if b.lookup 0 == Graph.falseLit then done else done.insert 0 ()
  let w ← visitAll gates (h.ands + 2) order ⟨b, ∅, done⟩
  finish h w.build nexts u

/-! ### The binary form -/

/-- A difference: seven bits a byte, the lowest first, as far as 64 bits reach. -/
def delta : (fuel shift : Nat) → Reader Nat
  | 0, _ => throw .prematureEnd
  | fuel + 1, shift => do
    let b ← nextByte
    let low := ((b &&& 0x7F).toNat * Number.twoTo shift) % Number.wordCount
    let part := if 64 ≤ shift then 0 else low
    if b < 0x80 then return part
    return part + (← delta fuel (shift + 7))

def readDelta : Reader Nat := do
  let t ← get
  delta (t.length + 1) 0

def implicitInputs : Nat → Nat → Build → Build
  | 0, _, b => b
  | n + 1, v, b => implicitInputs n (v + 1) (b.addNode v .input)

def implicitLatches (h : Header) : Nat → Nat → Build → Reader (Build × List Nat)
  | 0, _, b => return (b, [])
  | n + 1, v, b => do
    let next ← literal h.maxVar
    latchInit (2 * v)
    if h.maxVar < v then throw .breakdown
    let (b, nexts) ← implicitLatches h n (v + 1) (b.addNode v .latch)
    return (b, next :: nexts)

def implicitGates (h : Header) : Nat → Nat → Build → Reader Build
  | 0, _, b => return b
  | n + 1, v, b => do
    let d ← readDelta
    if 2 * v < d then throw .badDelta
    let left := 2 * v - d
    let d ← readDelta
    if left < d then throw .badDelta
    let right := left - d
    if h.maxVar < v then throw .breakdown
    implicitGates h n (v + 1) (b.addGate v left right)

def binary : Reader Stats := do
  let h ← header
  checkTable h
  if h.maxVar < h.inputs then throw .breakdown
  let b := implicitInputs h.inputs 1 .start
  let (b, nexts) ← implicitLatches h h.latches (h.inputs + 1) b
  let u ← uses h
  let b ← implicitGates h h.ands (h.inputs + h.latches + 1) b
  finish h b nexts u

/-! ### Files -/

inductive FileFault where
  | tooShort
  | otherFormat (mark : Text)
  | content (f : Fault)
deriving DecidableEq, Repr

def stats (file : Text) : Except FileFault Stats :=
  let mark := file.take 3
  if mark.length < 3 then .error .tooShort
  else
    let run (r : Reader Stats) : Except FileFault Stats :=
      match r.run (file.drop 3) with
      | .ok (s, _) => .ok s
      | .error f => .error (.content f)
    if mark == "aag" then run ascii
    else if mark == "aig" then run binary
    else .error (.otherFormat mark)

end Regatta.Aiger
