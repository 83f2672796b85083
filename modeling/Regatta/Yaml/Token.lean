import Regatta.Yaml.Character

/-! Tokens of a YAML text and the places where they stand. -/
namespace Regatta.Yaml

/-- A place in a text. Lines and columns count from zero. -/
structure Mark where
  index : Nat
  line : Nat
  column : Nat
deriving DecidableEq, Repr, Inhabited

def Mark.start : Mark := ⟨0, 0, 0⟩

inductive TextFault where
  | characters (f : CharacterFault)
  /-- No token can be made out; `context` is where it began. -/
  | unreadable (context problem : Mark) (message : Text)
  /-- A token stands where it cannot; `context` is where the construct around it began. -/
  | misplaced (context problem : Mark) (message : Text)
  | unknownAnchor (name : Text)
deriving Repr

/-- How a message names a line. A fault in the first line names none. -/
def TextFault.place (context problem : Mark) (more : Nat) : Text :=
  let line := if context.line != 0 then context.line + more
    else if problem.line != 0 then problem.line + more else 0
  if line == 0 then "" else "line " ++ Text.ofNat line ++ ": "

/-- Lines of an unreadable token count from one, lines of a misplaced one from zero. -/
def TextFault.message : TextFault → Text
  | .characters f => f.message
  | .unreadable c p m => TextFault.place c p 1 ++ m
  | .misplaced c p m => TextFault.place c p 0 ++ m
  | .unknownAnchor n => "unknown anchor '" ++ n ++ "' referenced"

inductive ScalarStyle where
  | plain
  | singleQuoted
  | doubleQuoted
  | literal
  | folded
deriving DecidableEq, Repr, Inhabited

inductive TokenKind where
  | streamStart
  | streamEnd
  | version (major minor : Nat)
  | tagDirective (handle value : Text)
  | documentStart
  | documentEnd
  | blockSequenceStart
  | blockMappingStart
  | blockEnd
  | flowSequenceStart
  | flowSequenceEnd
  | flowMappingStart
  | flowMappingEnd
  | blockEntry
  | flowEntry
  | key
  | value
  | alias (name : Text)
  | anchor (name : Text)
  | tag (handle suffix : Text)
  | scalar (content : Text) (style : ScalarStyle)
deriving DecidableEq, Repr, Inhabited

/-- A token, where it starts, and where it ends. -/
structure Token where
  kind : TokenKind
  first : Mark
  last : Mark
deriving DecidableEq, Repr, Inhabited

end Regatta.Yaml
