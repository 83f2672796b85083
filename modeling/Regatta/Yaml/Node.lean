import Regatta.Yaml.Lexer
import Regatta.Yaml.Resolution

/-! The tree of the first document of a text.

An alias does not copy what it stands for: it names the number of an anchored node, which may be a
node around it. -/
namespace Regatta.Yaml

/-- A node, with the line (from one) and the short tag it has. -/
inductive Node where
  | scalar (line : Nat) (tag value : Text)
  | sequence (line : Nat) (tag : Text) (items : List Node)
  | mapping (line : Nat) (tag : Text) (entries : List (Node × Node))
  /-- Stands for the anchored node `target`; `serial` tells aliases apart. -/
  | alias (line : Nat) (name : Text) (target serial : Nat)
deriving Inhabited

structure Document where
  root : Node
  anchored : List (Nat × Node)

/-- What is known while a document is read. -/
structure Reader where
  lexer : Lexer
  /-- The tags that handles stand for. -/
  handles : List (Text × Text)
  /-- The newest number of each anchor. -/
  anchors : List (Text × Nat)
  anchored : List (Nat × Node)
  /-- How many anchors and aliases there were. -/
  serial : Nat

abbrev Compose := StateT Reader (Except TextFault)

namespace Compose

def lexing {α : Type} (r : Lex α) : Compose α := do
  let s ← get
  let (a, lexer) ← r.run s.lexer
  set { s with lexer }
  pure a

def peek : Compose Token := lexing Lex.peek

def drop : Compose Unit := lexing Lex.drop

/-- Consume a token and look at the next. -/
def advance : Compose Token := do
  drop
  peek

def misplaced {α : Type} (context problem : Mark) (message : Text) : Compose α :=
  throw (.misplaced context problem message)

/-! ### Properties of nodes -/

/-- What may stand before the content of a node, and where the node starts. -/
structure Properties where
  anchor : Option Text
  tag : Option (Text × Text × Mark)
  start : Mark

def anchorThenTag : Compose Properties := do
  let t ← peek
  match t.kind with
  | .anchor a =>
    let t' ← advance
    match t'.kind with
    | .tag h s =>
      drop
      return ⟨some a, some (h, s, t'.first), t.first⟩
    | _ => return ⟨some a, none, t.first⟩
  | .tag h s =>
    let t' ← advance
    match t'.kind with
    | .anchor a =>
      drop
      return ⟨some a, some (h, s, t.first), t.first⟩
    | _ => return ⟨none, some (h, s, t.first), t.first⟩
  | _ => return ⟨none, none, t.first⟩

/-- The full tag that a written one stands for; empty when there is none. -/
def fullTag (p : Properties) : Compose Text := do
  match p.tag with
  | none => return []
  | some ([], suffix, _) => return suffix
  | some (handle, suffix, at_) =>
    match ((← get).handles.lookup handle).map (· ++ suffix) with
    | some (b :: rest) => return b :: rest
    | _ => misplaced p.start at_ "found undefined tag handle"

/-- The tag of a node: the one it has, or else the one its kind gives. -/
def chosenTag (tag default : Text) : Text :=
  if tag.isEmpty || tag == bang then default else Tag.short tag

def defaultTag (style : ScalarStyle) (value : Text) : Text :=
  if style == .plain then (meaning true value).tag else Tag.str

/-- Give an anchor the next number. -/
def declare (anchor : Option Text) : Compose (Option Nat) := do
  match anchor with
  | none => return none
  | some a =>
    let s ← get
    set { s with anchors := (a, s.serial) :: s.anchors, serial := s.serial + 1 }
    return some s.serial

/-- A finished node; its anchor stands for it from now on. -/
def finish (number : Option Nat) (n : Node) : Compose Node := do
  if let some k := number then modify fun s => { s with anchored := (k, n) :: s.anchored }
  return n

def emptyAt (m : Mark) : Node := .scalar (m.line + 1) Tag.null []

def aliasAt (t : Token) (name : Text) : Compose Node := do
  drop
  let s ← get
  match s.anchors.lookup name with
  | none => throw (.unknownAnchor name)
  | some target =>
    set { s with serial := s.serial + 1 }
    return .alias (t.first.line + 1) name target s.serial

/-! ### Nodes -/

def endsFlowPair (k : TokenKind) : Bool :=
  k == .value || k == .flowEntry || k == .flowSequenceEnd

mutual

/-- A node. Outside flow collections it may be a block, and after a key a sequence need not be
indented. -/
def node (block indentless : Bool) : (fuel : Nat) → Compose Node
  | 0 => return emptyAt .start
  | fuel + 1 => do
    let t ← peek
    if let .alias name := t.kind then return ← aliasAt t name
    let p ← anchorThenTag
    let t ← peek
    let tag ← fullTag p
    let line := p.start.line + 1
    match t.kind with
    | .scalar value style =>
      let number ← declare p.anchor
      drop
      finish number (.scalar line (chosenTag tag (defaultTag style value)) value)
    | .flowSequenceStart =>
      let number ← declare p.anchor
      drop
      finish number (.sequence line (chosenTag tag Tag.seq) (← flowItems t.first true fuel))
    | .flowMappingStart =>
      let number ← declare p.anchor
      drop
      finish number (.mapping line (chosenTag tag Tag.map) (← flowPairs t.first true fuel))
    | kind =>
      if indentless && kind == .blockEntry then
        let number ← declare p.anchor
        finish number (.sequence line (chosenTag tag Tag.seq) (← looseItems fuel))
      else if block && kind == .blockSequenceStart then
        let number ← declare p.anchor
        drop
        finish number (.sequence line (chosenTag tag Tag.seq) (← blockItems t.first fuel))
      else if block && kind == .blockMappingStart then
        let number ← declare p.anchor
        drop
        finish number (.mapping line (chosenTag tag Tag.map) (← blockPairs t.first fuel))
      else if p.anchor.isSome || !tag.isEmpty then
        let number ← declare p.anchor
        finish number (.scalar line (chosenTag tag Tag.null) [])
      else misplaced p.start t.first "did not find expected node content"

/-- The items of an indented sequence. -/
def blockItems (start : Mark) : (fuel : Nat) → Compose (List Node)
  | 0 => return []
  | fuel + 1 => do
    let t ← peek
    match t.kind with
    | .blockEntry =>
      let t' ← advance
      let item ← if t'.kind == .blockEntry || t'.kind == .blockEnd then pure (emptyAt t.last)
        else node true false fuel
      return item :: (← blockItems start fuel)
    | .blockEnd =>
      drop
      return []
    | _ => misplaced start t.first "did not find expected '-' indicator"

/-- The items of a sequence at the indentation of the mapping around it. -/
def looseItems : (fuel : Nat) → Compose (List Node)
  | 0 => return []
  | fuel + 1 => do
    let t ← peek
    if t.kind != .blockEntry then return []
    let t' ← advance
    let item ←
      if [.blockEntry, .key, .value, .blockEnd].contains t'.kind then pure (emptyAt t.last)
      else node true false fuel
    return item :: (← looseItems fuel)

/-- The keys and values of an indented mapping. -/
def blockPairs (start : Mark) : (fuel : Nat) → Compose (List (Node × Node))
  | 0 => return []
  | fuel + 1 => do
    let t ← peek
    match t.kind with
    | .key =>
      let t' ← advance
      let key ← if [.key, .value, .blockEnd].contains t'.kind then pure (emptyAt t.last)
        else node true true fuel
      let value ← blockValue fuel
      return (key, value) :: (← blockPairs start fuel)
    | .blockEnd =>
      drop
      return []
    | _ => misplaced start t.first "did not find expected key"

def blockValue : (fuel : Nat) → Compose Node
  | 0 => return emptyAt .start
  | fuel + 1 => do
    let t ← peek
    if t.kind != .value then return emptyAt t.first
    let t' ← advance
    if [.key, .value, .blockEnd].contains t'.kind then return emptyAt t.last
    node true true fuel

/-- The items of a sequence in brackets. An item with a colon is a mapping of one pair. -/
def flowItems (start : Mark) (first : Bool) : (fuel : Nat) → Compose (List Node)
  | 0 => return []
  | fuel + 1 => do
    let t ← peek
    if t.kind == .flowSequenceEnd then
      drop
      return []
    let t ← if first then pure t
      else if t.kind == .flowEntry then advance
      else misplaced start t.first "did not find expected ',' or ']'"
    if t.kind == .flowSequenceEnd then
      drop
      return []
    let item ← if t.kind == .key then flowPair t.first fuel else node false false fuel
    return item :: (← flowItems start false fuel)

def flowPair (start : Mark) : (fuel : Nat) → Compose Node
  | 0 => return emptyAt .start
  | fuel + 1 => do
    let t ← advance
    let key ← if endsFlowPair t.kind then do
        drop
        pure (emptyAt t.last)
      else node false false fuel
    let t ← peek
    let value ← if t.kind != .value then pure (emptyAt t.first)
      else do
        let t' ← advance
        if t'.kind == .flowEntry || t'.kind == .flowSequenceEnd then pure (emptyAt t'.first)
        else node false false fuel
    let _ ← peek
    return .mapping (start.line + 1) Tag.map [(key, value)]

/-- The keys and values of a mapping in braces. -/
def flowPairs (start : Mark) (first : Bool) : (fuel : Nat) → Compose (List (Node × Node))
  | 0 => return []
  | fuel + 1 => do
    let t ← peek
    if t.kind == .flowMappingEnd then
      drop
      return []
    let t ← if first then pure t
      else if t.kind == .flowEntry then advance
      else misplaced start t.first "did not find expected ',' or '\x7d'"
    if t.kind == .flowMappingEnd then
      drop
      return []
    if t.kind == .key then
      let t ← advance
      let key ← if [.value, .flowEntry, .flowMappingEnd].contains t.kind then pure (emptyAt t.first)
        else node false false fuel
      let t ← peek
      let value ← if t.kind != .value then pure (emptyAt t.first)
        else do
          let t' ← advance
          if t'.kind == .flowEntry || t'.kind == .flowMappingEnd then pure (emptyAt t'.first)
          else node false false fuel
      return (key, value) :: (← flowPairs start false fuel)
    let key ← node false false fuel
    let t ← peek
    return (key, emptyAt t.first) :: (← flowPairs start false fuel)

end

/-! ### Documents -/

def addHandle (handle value : Text) (at_ : Mark) : Compose Unit := do
  if ((← get).handles.lookup handle).isSome then
    misplaced .start at_ "found duplicate %TAG directive"
  modify fun s => { s with handles := s.handles ++ [(handle, value)] }

/-- The handles that need no directive. -/
def standardHandles : List (Text × Text) := [("!", "!"), ("!!", Tag.authority)]

def directives (versioned : Bool) : (fuel : Nat) → Compose Unit
  | 0 => pure ()
  | fuel + 1 => do
    let t ← peek
    match t.kind with
    | .version major minor =>
      if versioned then misplaced .start t.first "found duplicate %YAML directive"
      if major != 1 || minor != 1 then
        misplaced .start t.first "found incompatible YAML document"
      drop
      directives true fuel
    | .tagDirective handle value =>
      addHandle handle value t.first
      drop
      directives versioned fuel
    | _ => modify fun s => { s with handles := s.handles ++ standardHandles }

def startsExplicitly : TokenKind → Bool
  | .version _ _ | .tagDirective _ _ | .documentStart => true
  | _ => false

/-- The content of a document after its first mark. -/
def content (fuel : Nat) : Compose Node := do
  let t ← peek
  if startsExplicitly t.kind || t.kind == .documentEnd || t.kind == .streamEnd then
    return emptyAt t.first
  node true false fuel

/-- The first document; `none` when there is none. -/
def document (fuel : Nat) : Compose (Option Document) := do
  let _ ← peek
  let t ← advance
  if t.kind == .streamEnd then return none
  let root ← if startsExplicitly t.kind then do
      directives false fuel
      let t ← peek
      if t.kind != .documentStart then
        misplaced .start t.first "did not find expected <document start>"
      drop
      content fuel
    else do
      directives false fuel
      node true false fuel
  let t ← peek
  if t.kind == .documentEnd then drop
  return some ⟨root, (← get).anchored⟩

end Compose

/-- The first document of a text. -/
def Document.ofText? (t : Text) : Except TextFault (Option Document) :=
  (Compose.document (8 * t.length + 64)).run' ⟨.ofText t, [], [], [], 0⟩

end Regatta.Yaml
