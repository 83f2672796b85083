/-! And-inverter graphs with structural hashing.

A literal is twice a node's number, plus one for the complement. Node zero stands for "nothing";
node one is the constant true. `Graph.and` folds constants and never builds the same gate twice,
so the gates left are those that a circuit really needs. -/
namespace Regatta

inductive Node where
  | nothing
  | constant
  | input
  | latch
  | gate (left right : Nat)
deriving DecidableEq, Repr, Inhabited

structure Graph where
  nodes : Array Node
deriving Repr, Inhabited

namespace Graph

/-- The literal that no node has. -/
def undefinedLit : Nat := 0
def trueLit : Nat := 2
def falseLit : Nat := 3

def complement (l : Nat) : Nat := if l % 2 == 0 then l + 1 else l - 1

def empty : Graph := ⟨#[.nothing, .constant]⟩

def push (g : Graph) (n : Node) : Nat × Graph := (2 * g.nodes.size, ⟨g.nodes.push n⟩)

def and (g : Graph) (a b : Nat) : Nat × Graph :=
  if a == b then (a, g)
  else if a == complement b then (falseLit, g)
  else
    let lo := min a b
    let hi := max a b
    if lo == falseLit then (falseLit, g)
    else if lo == trueLit then (hi, g)
    else match g.nodes.findIdx? (· == .gate lo hi) with
      | some i => (2 * i, g)
      | none => g.push (.gate lo hi)

/-- How many gates have two defined operands. -/
def ands (g : Graph) : Nat :=
  g.nodes.foldl (fun n node =>
    match node with
    | .gate lo _ => if lo == undefinedLit then n else n + 1
    | _ => n) 0

end Graph
end Regatta
