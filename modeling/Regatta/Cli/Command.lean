import Regatta.Cli.Failure
import Regatta.Cli.Flag
import Regatta.Text.Lower

/-! Commands, and finding the one that arguments name.

The first argument that is neither a flag nor the value of one names a subcommand. Until a command
is found it is not known which flags there are, so the value of an unknown flag is taken to be the
next argument. -/
namespace Regatta.Cli

inductive ArgumentRule where
  /-- Any number; a top command that has subcommands takes none. -/
  | any
  | none
  | exactly (n : Nat)
  | atLeast (n : Nat)
deriving DecidableEq, Repr

inductive Shell where
  | bash
  | zsh
  | fish
  | powershell
deriving DecidableEq, Repr

inductive Action where
  | batch
  | race
  | stats
  | serve
  | engines
  | help
  | completion (s : Shell)
deriving DecidableEq, Repr

structure Command where
  name : Text
  /-- How it is called, after the names of the commands around it. -/
  form : Text
  short : Text
  long : Text := ""
  flags : List Flag := []
  /-- Flags that its subcommands have too. -/
  globalFlags : List Flag := []
  arguments : ArgumentRule := .any
  action : Option Action := none
  /-- Whether the form in which it is called mentions flags. -/
  mentionsFlags : Bool := true
  subcommands : List Command := []

/-- A command and the commands around it, the nearest first. -/
structure Lineage where
  command : Command
  around : List Command

namespace Lineage

/-- The names that lead to a command. -/
def path (l : Lineage) : Text :=
  Text.join " " ((l.command :: l.around).reverse.map (·.name))

/-- Flags of the commands around it that hold for it too. -/
def inheritedFlags (l : Lineage) : List Flag := l.around.flatMap (·.globalFlags)

def ownFlags (l : Lineage) : List Flag := l.command.flags ++ l.command.globalFlags

def flags (l : Lineage) : List Flag := l.ownFlags ++ l.inheritedFlags

def find? (l : Lineage) (name : Text) : Option Lineage :=
  (l.command.subcommands.find? (·.name == name)).map fun c => ⟨c, l.command :: l.around⟩

end Lineage

/-- Whether an argument is a flag whose value is the next argument. -/
def takesNext (flags : List Flag) (a : Text) : Bool :=
  if a.any (· == 61) then false
  else match a with
    | 45 :: 45 :: name => !(Flag.find? flags name).any Flag.isToggle
    | [45, b] => !(Flag.findShort? flags b).any Flag.isToggle
    | _ => false

def isWord (a : Text) : Bool := a.head?.any (· != 45)

/-- The arguments that are neither flags nor values of flags. Nothing is looked at after a flag that
has at most one argument behind it. -/
def words (flags : List Flag) : (fuel : Nat) → List Text → List Text
  | 0, _ => []
  | _, [] => []
  | fuel + 1, a :: rest =>
    if a == "--" then []
    else if takesNext flags a then
      if rest.length ≤ 1 then [] else words flags fuel (rest.drop 1)
    else if isWord a then a :: words flags fuel rest
    else words flags fuel rest

/-- The arguments without the first one that is the given word. -/
def without (flags : List Flag) (word : Text) : (fuel : Nat) → List Text → List Text
  | 0, as => as
  | _, [] => []
  | fuel + 1, a :: rest =>
    if a == "--" then a :: rest
    else if takesNext flags a then a :: rest.take 1 ++ without flags word fuel (rest.drop 1)
    else if a == word then rest
    else a :: without flags word fuel rest

def Lineage.words (l : Lineage) (as : List Text) : List Text :=
  Cli.words l.flags (as.length + 1) as

/-- The command that arguments name, and the arguments that are left for it. -/
def Lineage.descend : (fuel : Nat) → Lineage → List Text → Lineage × List Text
  | 0, l, as => (l, as)
  | fuel + 1, l, as =>
    match l.words as with
    | [] => (l, as)
    | word :: _ =>
      match l.find? word with
      | none => (l, as)
      | some l' => descend fuel l' (without l.flags word (as.length + 1) as)

/-! ### Suggestions -/

/-- The next row of distances, given the row before. -/
def distanceRow (b : UInt8) : (left : Nat) → (target : Text) → (before : List Nat) → List Nat
  | left, c :: target, d :: d' :: before =>
    let x := if b == c then d else min (min d d') left + 1
    x :: distanceRow b x target (d' :: before)
  | _, _, _ => []

/-- How many letters have to be put in, taken out or exchanged to make one text of another. -/
def distance (s t : Text) : Nat :=
  let first := List.range (t.length + 1)
  let last := s.zipIdx.foldl (fun row (b, i) => (i + 1) :: distanceRow b (i + 1) t row) first
  last.getLast?.getD 0

/-- Whether a command can be called, not counting the one that gives help. -/
def Command.isAvailable (c : Command) : Bool :=
  c.action != some .help &&
    (c.action.isSome || c.subcommands.any fun s => s.action.isSome)

/-- Names of subcommands that a mistaken name may mean. -/
def Command.suggestions (c : Command) (word : Text) : List Text :=
  let isMeant (name : Text) : Bool :=
    distance (Text.lower word) (Text.lower name) ≤ 2 ||
      (Text.lower word).isPrefixOf (Text.lower name)
  ((c.subcommands.filter Command.isAvailable).map (·.name)).filter isMeant

/-! ### Faults -/

inductive CommandFault where
  | unknown (word path : Text) (suggestions : List Text)
  | exactly (n received : Nat)
  | atLeast (n received : Nat)
  | flag (f : FlagFault)

def CommandFault.message : CommandFault → Text
  | .unknown word path suggestions =>
    let lines : List Text := suggestions.map fun s => "\t" ++ s ++ "\n"
    let hint : Text := if lines.isEmpty then "" else "\n\nDid you mean this?\n" ++ lines.flatten
    "unknown command " ++ Text.quoted word ++ " for " ++ Text.quoted path ++ hint
  | .exactly n k => "accepts " ++ Text.ofNat n ++ " arg(s), received " ++ Text.ofNat k
  | .atLeast n k =>
    "requires at least " ++ Text.ofNat n ++ " arg(s), only received " ++ Text.ofNat k
  | .flag f => f.message

/-- The command that arguments name. A top command that takes any arguments refuses what is no
subcommand. -/
def Command.find (top : Command) (as : List Text) : Except CommandFault (Lineage × List Text) :=
  let (l, rest) := Lineage.descend (as.length + 1) ⟨top, []⟩ as
  match l.words rest with
  | word :: _ =>
    if l.command.arguments == .any && l.around.isEmpty && !l.command.subcommands.isEmpty then
      .error (.unknown word l.path (l.command.suggestions word))
    else .ok (l, rest)
  | [] => .ok (l, rest)

def Lineage.checkArguments (l : Lineage) (as : List Text) : Except CommandFault Unit :=
  match l.command.arguments with
  | .any => .ok ()
  | .none =>
    match as with
    | [] => .ok ()
    | a :: _ => .error (.unknown a l.path [])
  | .exactly n => if as.length == n then .ok () else .error (.exactly n as.length)
  | .atLeast n => if n ≤ as.length then .ok () else .error (.atLeast n as.length)

end Regatta.Cli
