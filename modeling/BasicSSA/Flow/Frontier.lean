import BasicSSA.Flow.Dominance

/-!
# Dominance frontiers

The frontier of a node holds the joins where its dominance ends. A join is a node with two or more
reachable predecessors.
-/

namespace BasicSSA.IL

abbrev Frontiers := Array (List Nat)

namespace Graph

/-- The predecessors of a node that a run can come from. -/
def reachablePreds (g : Graph) (t : DomTree) (b : Nat) : List Nat :=
  (g.preds b).filter t.contains

/-- The nodes whose frontier a join belongs to: on the way from each of its predecessors up the
tree, those below the immediate dominator of the join. -/
def runners (g : Graph) (t : DomTree) (b : Nat) : List Nat :=
  let preds := g.reachablePreds t b
  if preds.length < 2 then []
  else preds.flatMap fun p => (t.chain p).takeWhile (some · ≠ t.parent? b)

def frontiers (g : Graph) (t : DomTree) : Frontiers :=
  let table := t.order.map fun b => (b, g.runners t b)
  (Array.range g.size).map fun a =>
    (table.filter fun (_, runners) => runners.contains a).map (·.1)

end Graph

/-- The frontier of a node without the nodes already found, each once. -/
def Frontiers.fresh (df : Frontiers) (placed : List Nat) (b : Nat) : List Nat :=
  (df.getD b []).eraseDups.filter (!placed.contains ·)

/-- Adds the frontiers of the nodes in a work list, and of all nodes that this adds. What was put on
the list last is taken off first. -/
def iterateAux (df : Frontiers) : (fuel : Nat) → (work queued placed : List Nat) → List Nat
  | 0, _, _, placed => placed
  | _, [], _, placed => placed
  | fuel + 1, b :: work, queued, placed =>
    let new := df.fresh placed b
    let next := new.filter (!queued.contains ·)
    iterateAux df fuel (next.reverse ++ work) (next ++ queued) (placed ++ new)

/-- The least set of nodes that holds the frontiers of some nodes and of its own. -/
def iteratedFrontier (df : Frontiers) (defs : List Nat) : List Nat :=
  iterateAux df (defs.length + (df.toList.map List.length).foldr (· + ·) 0 + 1) defs.reverse defs []

end BasicSSA.IL
