import Regatta.Yaml.Scalar
import Regatta.Yaml.Property

/-! Tokens of a text, one after the other.

Indentation becomes tokens: a deeper line opens a block and a shallower one closes it. A key is
known to be one only when its colon comes, so tokens wait in a queue, into which the opening of a
mapping is put before its first key. -/
namespace Regatta.Yaml

/-- A place where a key may have begun. -/
structure KeyStart where
  possible : Bool
  /-- Whether nothing but a key can stand there. -/
  required : Bool
  /-- How many tokens come before it. -/
  number : Nat
  mark : Mark

structure Lexer where
  cursor : Cursor
  started : Bool
  /-- The indentation of the innermost block, and of those around it. -/
  indent : Int
  indents : List Int
  keyAllowed : Bool
  /-- Where a key may have begun, one for each open flow collection and one for the block around
  them, innermost first. -/
  keys : List KeyStart
  /-- Tokens that were made out but not consumed, and how many were consumed. -/
  queue : List Token
  consumed : Nat

def Lexer.ofText (t : Text) : Lexer := ⟨.ofText t, false, -1, [], false, [], [], 0⟩

abbrev Lex := StateT Lexer (Except TextFault)

namespace Lex

def reading {α : Type} (r : Read α) : Lex α := do
  let l ← get
  let (a, cursor) ← r.run l.cursor
  set { l with cursor }
  pure a

def mark : Lex Mark := do return (← get).cursor.mark

def inFlow : Lex Bool := do return 1 < (← get).keys.length

def push (t : Token) : Lex Unit := modify fun l => { l with queue := l.queue ++ [t] }

def insert (number : Nat) (t : Token) : Lex Unit := modify fun l =>
  let k := number - l.consumed
  { l with queue := l.queue.take k ++ t :: l.queue.drop k }

def nextNumber : Lex Nat := do return (← get).consumed + (← get).queue.length

def allowKey (b : Bool) : Lex Unit := modify fun l => { l with keyAllowed := b }

def setKey (k : KeyStart) : Lex Unit := modify fun l => { l with keys := k :: l.keys.drop 1 }

def missingColon {α : Type} (k : KeyStart) : Lex α := do
  throw (.unreadable k.mark (← mark) "could not find expected ':'")

/-- Longest distance from the start of a key to its colon. -/
def keyReach : Nat := 1024

/-- Whether a key that began at `k` can still get its colon. A required one must. -/
def stillPossible (k : KeyStart) : Lex Bool := do
  if !k.possible then return false
  let here ← mark
  if k.mark.line < here.line || k.mark.index + keyReach < here.index then
    if k.required then missingColon k
    return false
  return true

/-- Give up the key that may have begun in the innermost collection. -/
def dropKey : Lex Unit := do
  match (← get).keys with
  | [] => pure ()
  | k :: _ =>
    if k.possible && k.required then missingColon k
    setKey { k with possible := false }

/-- A key may begin here. -/
def saveKey : Lex Unit := do
  let l ← get
  if l.keyAllowed then
    let k : KeyStart := ⟨true, !(← inFlow) && l.indent == l.cursor.mark.column, ← nextNumber, ← mark⟩
    dropKey
    setKey k

/-- Deepest nesting of blocks, and of flow collections. -/
def deepest : Nat := 10000

def tooDeep {α : Type} : Lex α := do
  let context := (((← get).keys.head?).map (·.mark)).getD .start
  throw (.unreadable context (← mark) ("exceeded max depth of " ++ Text.ofNat deepest))

/-- Open a block at a column that is deeper than the block around it. -/
def indentTo (column : Nat) (number : Option Nat) (kind : TokenKind) (at_ : Mark) : Lex Unit := do
  if ← inFlow then return
  let l ← get
  if l.indent < column then
    set { l with indents := l.indent :: l.indents, indent := column }
    if deepest < l.indents.length + 1 then tooDeep
    match number with
    | some n => insert n ⟨kind, at_, at_⟩
    | none => push ⟨kind, at_, at_⟩

/-- Close the blocks that are deeper than a column. -/
def closeBlocks (column : Int) (at_ : Mark) : (fuel : Nat) → Lex Unit
  | 0 => pure ()
  | fuel + 1 => do
    let l ← get
    match l.indents with
    | [] => pure ()
    | outer :: indents =>
      if column < l.indent then
        set { l with indents, indent := outer }
        push ⟨.blockEnd, at_, at_⟩
        closeBlocks column at_ fuel

def dedentTo (column : Int) (at_ : Mark) : Lex Unit := do
  if !(← inFlow) then closeBlocks column at_ ((← get).indents.length)

/-- A token of `n` characters. -/
def indicator (kind : TokenKind) (n : Nat) : Lex Unit := do
  let first ← mark
  reading (Read.skip n)
  push ⟨kind, first, ← mark⟩

def refuse {α : Type} (message : Text) : Lex α := do
  throw (.unreadable (← mark) (← mark) message)

/-! ### The kinds of token -/

def streamStart : Lex Unit := do
  modify fun l => { l with started := true, keyAllowed := true, keys := [⟨false, false, 0, .start⟩] }
  push ⟨.streamStart, ← mark, ← mark⟩

/-- What comes between documents: every block is closed and no key may have begun. -/
def leaveBlocks : Lex Unit := do
  dedentTo (-1) (← mark)
  dropKey
  allowKey false

def streamEnd : Lex Unit := do
  let here ← mark
  if here.column != 0 then
    modify fun l => { l with cursor := { l.cursor with mark := ⟨here.index, here.line + 1, 0⟩ } }
  leaveBlocks
  push ⟨.streamEnd, ← mark, ← mark⟩

def flowStart (kind : TokenKind) : Lex Unit := do
  saveKey
  let k : KeyStart := ⟨false, false, ← nextNumber, ← mark⟩
  modify fun l => { l with keys := k :: l.keys }
  if deepest + 1 < (← get).keys.length then tooDeep
  allowKey true
  indicator kind 1

def flowEnd (kind : TokenKind) : Lex Unit := do
  dropKey
  if ← inFlow then modify fun l => { l with keys := l.keys.drop 1 }
  allowKey false
  indicator kind 1

def flowEntry : Lex Unit := do
  dropKey
  allowKey true
  indicator .flowEntry 1

def blockEntry : Lex Unit := do
  if !(← inFlow) then
    if !(← get).keyAllowed then
      refuse "block sequence entries are not allowed in this context"
    indentTo (← mark).column none .blockSequenceStart (← mark)
  dropKey
  allowKey true
  indicator .blockEntry 1

def explicitKey : Lex Unit := do
  if !(← inFlow) then
    if !(← get).keyAllowed then refuse "mapping keys are not allowed in this context"
    indentTo (← mark).column none .blockMappingStart (← mark)
  dropKey
  allowKey (!(← inFlow))
  indicator .key 1

/-- The colon after a key. If the key began in a way that could be something else, its tokens are
put before it now. -/
def valueIndicator : Lex Unit := do
  match (← get).keys with
  | [] => pure ()
  | k :: _ =>
    if ← stillPossible k then
      insert k.number ⟨.key, k.mark, k.mark⟩
      indentTo k.mark.column (some k.number) .blockMappingStart k.mark
      setKey { k with possible := false }
      allowKey false
    else
      setKey { k with possible := false }
      if !(← inFlow) then
        if !(← get).keyAllowed then refuse "mapping values are not allowed in this context"
        indentTo (← mark).column none .blockMappingStart (← mark)
      allowKey (!(← inFlow))
  indicator .value 1

/-- A token that may begin a key. -/
def keyToken (r : Read Token) : Lex Unit := do
  saveKey
  allowKey false
  push (← reading r)

def blockScalarToken (folding : Bool) : Lex Unit := do
  dropKey
  allowKey true
  let outer := (← get).indent
  push (← reading (blockScalar folding outer))

def plainToken : Lex Unit := do
  saveKey
  allowKey false
  let (t, broken) ← reading (plainScalar (← inFlow) ((← get).indent + 1))
  if broken then allowKey true
  push t

/-! ### The next token -/

/-- Skip what stands before a token. Where a key may begin, a tab may not stand. -/
def skipToToken : (fuel : Nat) → Lex Unit
  | 0 => pure ()
  | fuel + 1 => do
    if (← mark).column == 0 && (← reading Read.next).toNat == 0xFEFF then reading (Read.skip 1)
    let tabs := (← inFlow) || !(← get).keyAllowed
    reading (Read.skipWhile fun c => c == ' ' || (tabs && c == '\t'))
    if (← reading Read.next) == '#' then reading (do Read.skipComments (← Read.bound))
    if isBreak (← reading Read.next) then
      reading Read.skipBreak
      if !(← inFlow) then allowKey true
      skipToToken fuel

/-- Characters that no plain scalar begins with. -/
def isIndicator (c : Char) : Bool :=
  "-?:,[]\x7b\x7d#&*!|>'\"%@\x60".toList.contains c

def beginsPlain (inFlow : Bool) (c c' : Char) : Bool :=
  !(endsWord c || isIndicator c) || (c == '-' && !isBlank c') ||
    (!inFlow && (c == '?' || c == ':') && !endsWord c')

/-- The token that begins with `c`, which `c'` follows. -/
def tokenAt (c c' : Char) : Lex Unit := do
  let inFlow ← inFlow
  let alone := inFlow || endsWord c'
  if c == '[' then flowStart .flowSequenceStart
  else if c == '\x7b' then flowStart .flowMappingStart
  else if c == ']' then flowEnd .flowSequenceEnd
  else if c == '\x7d' then flowEnd .flowMappingEnd
  else if c == ',' then flowEntry
  else if c == '-' && endsWord c' then blockEntry
  else if c == '?' && alone then explicitKey
  else if c == ':' && alone then valueIndicator
  else if c == '*' then keyToken (anchorName .alias)
  else if c == '&' then keyToken (anchorName .anchor)
  else if c == '!' then keyToken tagToken
  else if c == '|' && !inFlow then blockScalarToken false
  else if c == '>' && !inFlow then blockScalarToken true
  else if c == '\'' then keyToken (quotedScalar true)
  else if c == '"' then keyToken (quotedScalar false)
  else if beginsPlain inFlow c c' then plainToken
  else refuse "found character that cannot start any token"

/-- Make out one more token. -/
def fetch : Lex Unit := do
  let _ ← reading Read.next
  if !(← get).started then streamStart
  else
    let before ← mark
    skipToToken (← reading Read.bound)
    dedentTo (← mark).column before
    let c ← reading Read.next
    if c == nul then streamEnd
    else if (← mark).column == 0 && c == '%' then
      leaveBlocks
      push (← reading directive)
    else if ← reading (Read.atDocumentMark '-') then
      leaveBlocks
      indicator .documentStart 3
    else if ← reading (Read.atDocumentMark '.') then
      leaveBlocks
      indicator .documentEnd 3
    else
      tokenAt c (← reading (Read.look 1))
      if (← get).queue.getLast?.map (·.kind) != some .blockEntry then
        reading Read.skipLineComment

/-- Whether the first token of the queue may still turn out to be a key. -/
def headUndecided : Lex Bool := do
  let l ← get
  match l.keys.find? fun k => k.possible && k.number == l.consumed with
  | none => pure false
  | some k => stillPossible k

/-- Make out tokens until the first one is certain and two more are known. -/
def fill : (fuel : Nat) → Lex Unit
  | 0 => pure ()
  | fuel + 1 => do
    if 2 < (← get).queue.length then
      if !(← headUndecided) then return
    fetch
    fill fuel

def peek : Lex Token := do
  fill ((← reading Read.bound) + 4)
  match (← get).queue with
  | t :: _ => pure t
  | [] => pure ⟨.streamEnd, ← mark, ← mark⟩

def drop : Lex Unit := modify fun l =>
  { l with queue := l.queue.drop 1, consumed := l.consumed + 1 }

end Lex

end Regatta.Yaml
