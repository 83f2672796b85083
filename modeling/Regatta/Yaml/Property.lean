import Regatta.Yaml.Cursor

/-! Anchors, aliases, tags and directives as they are written. -/
namespace Regatta.Yaml
open Read

/-- The characters that may stand right after the name of an anchor. -/
def endsAnchor (c : Char) : Bool :=
  endsWord c || c == '?' || c == ':' || c == ',' || c == ']' || c == '\x7d' || c == '%' ||
    c == '@' || c == '\x60'

/-- An anchor or an alias: an indicator and a name. -/
def anchorName (kind : Text → TokenKind) : Read Token := do
  let start ← mark
  skip 1
  let name ← takeWhile isNameChar
  let last ← mark
  if name.isEmpty || !endsAnchor (← next) then
    unreadable start "did not find expected alphabetic or numeric character"
  return ⟨kind (encode name), start, last⟩

/-! ### Tags -/

def isTagChar (c : Char) : Bool := isNameChar c || ";/?:@&=+$,.!~*'()[]".toList.contains c

/-- The byte that a percent sign and two digits stand for. -/
def tagByte (start : Mark) : Read UInt8 := do
  match hexValue? (← look 1), hexValue? (← look 2) with
  | some high, some low =>
    skip 3
    pure (16 * high + low).toUInt8
  | _, _ => unreadable start "did not find URI escaped octet"

/-- The bytes after the first one of an escaped character. -/
def tagTrailing (start : Mark) : Nat → Read Text
  | 0 => pure []
  | n + 1 => do
    if (← next) != '%' then unreadable start "did not find URI escaped octet"
    let b ← tagByte start
    if b &&& 0xC0 != 0x80 then unreadable start "found an incorrect trailing UTF-8 octet"
    return b :: (← tagTrailing start n)

def tagEscape (start : Mark) : Read Text := do
  let b ← tagByte start
  let w := width b
  if w == 0 then unreadable start "found an incorrect leading UTF-8 octet"
  return b :: (← tagTrailing start (w - 1))

def tagRest (start : Mark) : (fuel : Nat) → Text → Read Text
  | 0, acc => pure acc
  | fuel + 1, acc => do
    let run ← takeWhile isTagChar
    let acc := acc ++ encode run
    if (← next) == '%' then tagRest start fuel (acc ++ (← tagEscape start))
    else pure acc

/-- A tag after the characters `front`, the first of which is not part of it. -/
def tagUri (start : Mark) (front : Text) : Read Text := do
  let t ← tagRest start (← bound) []
  if front.isEmpty && t.isEmpty then unreadable start "did not find expected tag URI"
  return front.drop 1 ++ t

def bang : Text := "!"

/-- An exclamation mark, a name, and perhaps a second mark. -/
def tagHandle (start : Mark) (directive : Bool) : Read Text := do
  if (← next) != '!' then unreadable start "did not find expected '!'"
  skip 1
  let name ← takeWhile isNameChar
  if (← next) == '!' then
    skip 1
    return bang ++ encode name ++ bang
  if directive && !name.isEmpty then unreadable start "did not find expected '!'"
  return bang ++ encode name

def tagParts (start : Mark) : Read (Text × Text) := do
  if (← look 1) == '<' then
    skip 2
    let uri ← tagUri start []
    if (← next) != '>' then unreadable start "did not find the expected '>'"
    skip 1
    return ([], uri)
  let handle ← tagHandle start false
  if 1 < handle.length && handle.getLast? == bang.head? then
    return (handle, ← tagUri start [])
  let suffix ← tagUri start handle
  if suffix.isEmpty then return ([], bang)
  return (bang, suffix)

def tagToken : Read Token := do
  let start ← mark
  let (handle, suffix) ← tagParts start
  if !endsWord (← next) then unreadable start "did not find expected whitespace or line break"
  return ⟨.tag handle suffix, start, ← mark⟩

/-! ### Directives -/

def versionNumber (start : Mark) : Read Nat := do
  let digits ← takeWhile Char.isDigit
  if digits.isEmpty then unreadable start "did not find expected version number"
  if 2 < digits.length then unreadable start "found extremely long version number"
  return digits.foldl (fun n d => 10 * n + (d.toNat - 48)) 0

def versionDirective (start : Mark) : Read TokenKind := do
  skipBlanks
  let major ← versionNumber start
  if (← next) != '.' then unreadable start "did not find expected digit or '.' character"
  skip 1
  return .version major (← versionNumber start)

def tagDirective (start : Mark) : Read TokenKind := do
  skipBlanks
  let handle ← tagHandle start true
  if !isBlank (← next) then unreadable start "did not find expected whitespace"
  skipBlanks
  let value ← tagUri start []
  if !endsWord (← next) then unreadable start "did not find expected whitespace or line break"
  return .tagDirective handle value

/-- A directive, with the end of its line. -/
def directive : Read Token := do
  let start ← mark
  skip 1
  let name ← takeWhile isNameChar
  if name.isEmpty then unreadable start "could not find expected directive name"
  if !endsWord (← next) then unreadable start "found unexpected non-alphabetical character"
  let kind ←
    if name == "YAML".toList then versionDirective start
    else if name == "TAG".toList then tagDirective start
    else unreadable start "found unknown directive name"
  let last ← mark
  skipBlanks
  if (← next) == '#' then skipWhile (!endsLine ·)
  if !endsLine (← next) then unreadable start "did not find expected comment or line break"
  skipBreak
  return ⟨kind, start, last⟩

end Regatta.Yaml
