import Regatta.Text.Quoted
import Regatta.Yaml.Node

/-! Reading values of known types out of a document.

A node of the wrong kind is noted with its line, and reading goes on, so that one look finds every
such node. A few faults end the reading at once. -/
namespace Regatta.Yaml

inductive Fault where
  | text (f : TextFault)
  | tag (f : TagFault)
  | binary
  | selfContaining (anchor : Text)
  | notMergeable
  | mismatches (notes : List Text)
  | missing

def Fault.message : Fault → Text
  | .text f => "yaml: " ++ f.message
  | .tag f => "yaml: " ++ f.message
  | .binary => "yaml: !!binary value contains invalid base64 data"
  | .selfContaining a => "yaml: anchor '" ++ a ++ "' value contains itself"
  | .notMergeable => "yaml: map merge requires map or sequence of maps as the value"
  | .mismatches notes => "yaml: unmarshal errors:\n  " ++ Text.join "\n  " notes
  | .missing => "EOF"

/-- The anchored nodes, and the aliases that are being followed. -/
structure Scope where
  anchored : List (Nat × Node)
  following : List Nat

/-- Reading with what has been noted so far. -/
abbrev Decode := ReaderT Scope (StateT (List Text) (Except Fault))

namespace Decode

def note (line : Nat) (message : Text) : Decode Unit :=
  modify (· ++ ["line " ++ Text.ofNat line ++ ": " ++ message])

/-- How a message shows the text of a node: long ones are cut. -/
def shown (tag value : Text) : Text :=
  if tag == Tag.seq || tag == Tag.map then ""
  else if 10 < value.length then " \x60" ++ value.take 7 ++ "...\x60"
  else " \x60" ++ value ++ "\x60"

def mismatch (line : Nat) (tag value type : Text) : Decode Unit :=
  note line ("cannot unmarshal " ++ tag ++ shown tag value ++ " into " ++ type)

/-- Read the node that an alias stands for, or the node itself. -/
def follow {α : Type} (n : Node) (k : Node → Decode α) : Decode α := do
  match n with
  | .alias _ name target serial =>
    let s ← read
    if s.following.contains serial then throw (.selfContaining name)
    match s.anchored.lookup target with
    | none => throw (.selfContaining name)
    | some n => withReader (fun s => { s with following := serial :: s.following }) (k n)
  | _ => k n

/-! ### Scalars -/

/-- What a scalar means, bytes in base sixty-four being decoded. -/
def resolved (tag value : Text) : Decode Resolved := do
  match resolve tag value with
  | .error f => throw (.tag f)
  | .ok (.binary t) =>
    match decodeBinary t with
    | none => throw .binary
    | some t => return .binary t
  | .ok r => return r

/-- The line that messages about a node name. -/
def lineOf : Node → Nat
  | .scalar l _ _ | .sequence l _ _ | .mapping l _ _ | .alias l _ _ _ => l

/-- The text by which two keys are compared: that of a scalar, or the name of an alias. -/
def keyText : Node → Text
  | .scalar _ _ v => v
  | .alias _ name _ _ => name
  | _ => ""

def sameKind : Node → Node → Bool
  | .scalar .., .scalar .. | .sequence .., .sequence .. | .mapping .., .mapping ..
  | .alias .., .alias .. => true
  | _, _ => false

/-- The notes on keys that a mapping has twice. -/
def repeats : List Node → List Text
  | [] => []
  | k :: rest =>
    (rest.filter fun k' => sameKind k k' && keyText k == keyText k').map (fun k' =>
      "line " ++ Text.ofNat (lineOf k') ++ ": mapping key " ++ Text.quoted (keyText k') ++
        " already defined at line " ++ Text.ofNat (lineOf k)) ++ repeats rest

/-- Note the keys that a mapping has twice, and say whether there are any. -/
def repeatsAny (entries : List (Node × Node)) : Decode Bool := do
  let notes := repeats (entries.map (·.1))
  modify (· ++ notes)
  return !notes.isEmpty

/-- Read a scalar. A null gives nothing, and so does what `pick` refuses, which is noted. -/
def scalar {α : Type} (type : Text) (pick : Text → Resolved → Option α) (n : Node) :
    Decode (Option α) :=
  follow n fun
    | .scalar line tag value => do
      match ← resolved tag value with
      | .null => return none
      | r =>
        match pick value r with
        | some a => return some a
        | none =>
          mismatch line tag value type
          return none
    | .sequence line tag _ => do
      mismatch line tag "" type
      return none
    | .mapping line tag entries => do
      if !(← repeatsAny entries) then mismatch line tag "" type
      return none
    | .alias .. => return none

/-- Every scalar can be read as its text. -/
def text : Node → Decode (Option Text) :=
  scalar "string" fun value r =>
    match r with
    | .binary t => some t
    | _ => some value

/-- A number as a signed 64-bit integer. A fraction is dropped; a value that is too small becomes
the least integer. -/
def wholeNumber? : Resolved → Option Int
  | .integer n => if n < Number.wordLimit then some n else none
  | .float x =>
    match x, x.truncate? with
    | .infinite true, _ => some Number.leastWord
    | .infinite false, _ => none
    | _, none => none
    | _, some n =>
      if (Number.wordLimit : Int) < n then none
      else if !Number.fitsWord n then some Number.leastWord
      else some n
  | _ => none

def integer : Node → Decode (Option Int) := scalar "int" fun _ r => wholeNumber? r

/-- A length of time is written with its unit. -/
def duration : Node → Decode (Option Duration) :=
  scalar "time.Duration" fun _ r =>
    match r with
    | .text t | .binary t => (Duration.parse t).toOption
    | _ => none

/-! ### Sequences -/

/-- Read each item of a sequence, leaving out those that give nothing. -/
def items {α : Type} (item : Node → Decode (Option α)) : List Node → Decode (List α)
  | [] => return []
  | n :: rest => do
    let a ← item n
    let more ← items item rest
    return a.toList ++ more

def sequence {α : Type} (type : Text) (item : Node → Decode (Option α)) (n : Node) :
    Decode (Option (List α)) :=
  follow n fun
    | .sequence _ _ ns => do return some (← items item ns)
    | .scalar line tag value => do
      match ← resolved tag value with
      | .null => return none
      | _ =>
        mismatch line tag value type
        return none
    | .mapping line tag entries => do
      if !(← repeatsAny entries) then mismatch line tag "" type
      return none
    | .alias .. => return none

/-! ### Records -/

/-- A record: its name in messages, and how the value of each field is taken over. -/
structure Record (σ : Type) where
  type : Text
  fields : List (String × (Node → σ → Decode σ))

def Record.field? {σ : Type} (r : Record σ) (name : Text) : Option (Node → σ → Decode σ) :=
  (r.fields.find? fun (n, _) => Text.ofString n == name).map (·.2)

/-- A field that keeps its value when nothing is read. -/
def Record.field {σ α : Type} (name : String) (read : Node → Decode (Option α)) (put : α → σ → σ) :
    String × (Node → σ → Decode σ) :=
  (name, fun n s => do
    match ← read n with
    | some a => return put a s
    | none => return s)

def isMerge : Node → Bool
  | .scalar _ tag value => value == ("<<" : Text) && tag == Tag.merge
  | _ => false

/-- The keys of a mapping that are texts. -/
def keyNames : List (Node × Node) → Decode (List Text)
  | [] => return []
  | (k, _) :: rest => do
    let name ← follow k fun
      | .scalar _ tag value => do
        match ← resolved tag value with
        | .text t | .binary t => return some t
        | _ => return none
      | _ => return none
    return name.toList ++ (← keyNames rest)

/-- The fields of a record while it is read. A field that `taken` names is passed over; while
mappings are merged, each field that is read is taken. -/
structure Filling (σ : Type) where
  value : σ
  taken : Option (List Text)
  /-- Fields of this mapping that have been read. -/
  done : List Text

def entry {σ : Type} (r : Record σ) (f : Filling σ) (k v : Node) : Decode (Filling σ) := do
  match ← text k with
  | none => return f
  | some name =>
    if (f.taken.getD []).contains name then return f
    let f := { f with taken := f.taken.map (name :: ·) }
    match r.field? name with
    | none =>
      note (lineOf k) ("field " ++ name ++ " not found in type " ++ r.type)
      return f
    | some put =>
      if f.done.contains name then
        note (lineOf k) ("field " ++ name ++ " already set in type " ++ r.type)
        return f
      return { f with value := ← put v f.value, done := name :: f.done }

/-- The entries of a mapping, but for the one that merges others into it. -/
def entries {σ : Type} (r : Record σ) :
    Filling σ → List (Node × Node) → Decode (Filling σ × Option Node)
  | f, [] => return (f, none)
  | f, (k, v) :: rest => do
    if isMerge k then
      let (f, later) ← entries r f rest
      return (f, later <|> some v)
    entries r (← entry r f k v) rest

def isMapping : Node → Decode Bool
  | .mapping .. => return true
  | .alias _ _ target _ => do
    match (← read).anchored.lookup target with
    | some (.mapping ..) => return true
    | _ => return false
  | _ => return false

mutual

/-- Read a record, given the fields that are taken. -/
def fill {σ : Type} (r : Record σ) (taken : Option (List Text)) :
    (fuel : Nat) → σ → Node → Decode (Option σ × Option (List Text))
  | 0, _, _ => return (none, taken)
  | fuel + 1, s, n => follow n fun
    | .mapping _ _ es => do
      if ← repeatsAny es then return (none, taken)
      let (f, merged) ← entries r ⟨s, taken, []⟩ es
      match merged with
      | none => return (some f.value, f.taken)
      | some m =>
        let names ← match f.taken with
          | some ts => pure ts
          | none => keyNames es
        let (value, after) ← merge r names fuel f.value m
        return (some value, f.taken.map fun _ => after)
    | .scalar line tag value => do
      match ← resolved tag value with
      | .null => return (none, taken)
      | _ =>
        mismatch line tag value r.type
        return (none, taken)
    | .sequence line tag _ => do
      mismatch line tag "" r.type
      return (none, taken)
    | .alias .. => return (none, taken)

/-- Merge one mapping, or several, the first one winning. -/
def merge {σ : Type} (r : Record σ) (taken : List Text) :
    (fuel : Nat) → σ → Node → Decode (σ × List Text)
  | 0, s, _ => return (s, taken)
  | fuel + 1, s, n => do
    match n with
    | .sequence _ _ ns => mergeAll r taken fuel s ns
    | _ =>
      if !(← isMapping n) then throw .notMergeable
      let (value, after) ← fill r (some taken) fuel s n
      return (value.getD s, after.getD taken)

def mergeAll {σ : Type} (r : Record σ) (taken : List Text) :
    (fuel : Nat) → σ → List Node → Decode (σ × List Text)
  | 0, s, _ => return (s, taken)
  | _, s, [] => return (s, taken)
  | fuel + 1, s, n :: rest => do
    if !(← isMapping n) then throw .notMergeable
    let (value, after) ← fill r (some taken) fuel s n
    mergeAll r (after.getD taken) fuel (value.getD s) rest

end

/-- Deepest chain of merged mappings that is followed. -/
def mergeDepth : Nat := 1000

/-- Read a record that starts out as `s`. -/
def record {σ : Type} (r : Record σ) (s : σ) (n : Node) : Decode (Option σ) := do
  return (← fill r none mergeDepth s n).1

end Decode

/-- Read a value out of the first document of a text. -/
def decode {α : Type} (t : Text) (read : Node → Decode α) : Except Fault α :=
  match Document.ofText? t with
  | .error f => .error (.text f)
  | .ok none => .error .missing
  | .ok (some d) =>
    match ((read d.root).run ⟨d.anchored, []⟩).run [] with
    | .error f => .error f
    | .ok (a, []) => .ok a
    | .ok (_, notes) => .error (.mismatches notes)

end Regatta.Yaml
