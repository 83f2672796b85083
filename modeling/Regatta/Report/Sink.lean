import Regatta.Text.Basic

/-! Where a report goes: a place that takes bytes until it has no room left.

What does not fit is refused as a whole, and with that the sink is spent: it takes no byte any more. -/
namespace Regatta

structure Sink where
  /-- How many bytes still fit; `none` when there is no limit. -/
  room : Option Nat
  /-- The chunks taken so far, the last one first. -/
  chunks : List Text

namespace Sink

def unlimited : Sink := ⟨none, []⟩

def limited (room : Nat) : Sink := ⟨some room, []⟩

def received (s : Sink) : Text := s.chunks.reverse.flatten

/-- Takes all of a chunk. One that does not fit leaves no room behind, for a shorter one either. -/
def write (s : Sink) (chunk : Text) : Except Sink Sink :=
  match s.room with
  | none => .ok { s with chunks := chunk :: s.chunks }
  | some n =>
    if chunk.length ≤ n then .ok ⟨some (n - chunk.length), chunk :: s.chunks⟩
    else .error { s with room := some 0 }

end Sink
end Regatta
