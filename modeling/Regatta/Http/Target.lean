import Regatta.Http.Message

/-! What a request asks for: the path, and the parameters after it. -/
namespace Regatta.Http.Target

/-- Percent escapes replaced by the bytes they stand for; `none` when one is malformed. In a query
a plus sign stands for a blank. -/
def unescape (query : Bool) : Text → Option Text
  | [] => some []
  | 37 :: a :: b :: rest => do
    let h ← Text.hexValue? a
    let l ← Text.hexValue? b
    return (16 * h + l).toUInt8 :: (← unescape query rest)
  | 37 :: _ => none
  | b :: rest => do
    return (if query && b == 43 then 32 else b) :: (← unescape query rest)

/-- Bytes that stand for themselves in a path. -/
def plain (b : UInt8) : Bool :=
  Text.isLetter b || Text.isDigit b || (Text.ofString "-_.~$&+,/:;=@").any (· == b)

/-- The customary escaped form of a path. -/
def escape (t : Text) : Text :=
  t.flatMap fun b => if plain b then [b] else 37 :: (Text.hex 2 b.toNat).map upper
where
  upper (b : UInt8) : UInt8 := if 97 ≤ b then b - 32 else b

def split (target : Text) : Text × Text :=
  match Text.cut (Text.byte '?') target with
  | some (p, q) => (p, q)
  | none => (target, [])

/-- The path by which a request is routed: unescaped, if escaping gives back what was sent. -/
def routePath (target : Text) : Text :=
  let p := (split target).1
  match unescape false p with
  | some d => if escape d == p then d else p
  | none => p

/-- The parameters of a query, in order. Malformed ones are left out. -/
def parameters (query : Text) : List (Text × Text) :=
  (Text.splitOn (Text.byte '&') query).filterMap fun part =>
    if part.isEmpty || part.any (· == 59) then none
    else
      let (k, v) := (Text.cut (Text.byte '=') part).getD (part, [])
      match unescape true k, unescape true v with
      | some k, some v => some (k, v)
      | _, _ => none

/-- The first value of a parameter; blank when there is none. -/
def parameter (target name : Text) : Text := ((parameters (split target).2).lookup name).getD ""

end Regatta.Http.Target
