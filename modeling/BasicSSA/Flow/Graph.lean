import BasicSSA.IL.Module

/-!
# Flow graphs

The nodes of a flow graph are the numbers of the blocks of a function, and a run starts at node 0.
-/

namespace BasicSSA.IL

/-- A flow graph, as the successors of each node. -/
structure Graph where
  edges : Array (List Nat)
  deriving Inhabited, Repr

/-- The graph of a function. A branch to a label that no block has gives no edge. -/
def Function.graph (f : Function) : Graph :=
  { edges := (f.blocks.map fun b => b.targets.filterMap f.blockIdx?).toArray }

namespace Graph

def size (g : Graph) : Nat :=
  g.edges.size

def succs (g : Graph) (n : Nat) : List Nat :=
  g.edges.getD n []

def preds (g : Graph) (n : Nat) : List Nat :=
  (List.range g.size).filter fun p => (g.succs p).contains n

/-- The nodes that a depth-first walk has seen, and those it has left, last first. -/
structure Walk where
  seen : List Nat := []
  left : List Nat := []
  deriving Inhabited, Repr

/-- Walks on from a node to all that it leads to, at most `fuel` nodes deep. -/
def visit (g : Graph) : (fuel : Nat) → Walk → Nat → Walk
  | 0, w, _ => w
  | fuel + 1, w, n =>
    if w.seen.contains n then w
    else
      let w := (g.succs n).foldl (visit g fuel) { w with seen := n :: w.seen }
      { w with left := n :: w.left }

/-- The reachable nodes in reverse post-order: a node comes before those it leads to, loops
apart. -/
def reversePostOrder (g : Graph) : List Nat :=
  if g.size = 0 then [] else (g.visit (g.size + 1) {} 0).left

/-- The reachable nodes in post-order: a node comes after those it leads to, loops apart. -/
def postOrder (g : Graph) : List Nat :=
  g.reversePostOrder.reverse

end Graph

end BasicSSA.IL
