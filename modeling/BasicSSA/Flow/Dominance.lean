import BasicSSA.Flow.Graph

/-!
# Dominance

A node dominates another if every run that reaches the other passes it. The dominators of a
reachable node form a chain; its immediate dominator is the last one before the node itself.

The tree of immediate dominators is found in passes over the nodes in reverse post-order. A pass
moves each node to where the ways from its predecessors up the tree meet, and the passes end when
one of them moves no node.
-/

namespace BasicSSA.IL

/-- A tree that grows: the parent of each node; none for the entry and for nodes that have no place
yet. -/
abbrev Parents := Array (Option Nat)

namespace Parents

def parent? (t : Parents) (b : Nat) : Option Nat :=
  (t[b]?).join

/-- The entry always has a place in the tree, another node if it has a parent. -/
def isPlaced (t : Parents) (b : Nat) : Bool :=
  b = 0 || (t.parent? b).isSome

/-- Where the ways from two nodes up the tree meet, after at most `steps` steps. Always the node
that stands later in the order goes up. -/
def meet (t : Parents) (order : List Nat) : (steps : Nat) → Nat → Nat → Nat
  | 0, a, _ => a
  | steps + 1, a, b =>
    if a = b then a
    else if order.idxOf b < order.idxOf a then t.meet order steps ((t.parent? a).getD 0) b
    else t.meet order steps a ((t.parent? b).getD 0)

end Parents

structure DomTree where
  /-- The reachable nodes in reverse post-order. -/
  order : List Nat
  /-- The immediate dominator of each node; none for the entry and for unreachable nodes. -/
  parents : Parents
  deriving Inhabited, DecidableEq, Repr

namespace Graph

/-- Where the ways up the tree meet from those predecessors of a node that have a place. -/
def meetPreds? (g : Graph) (order : List Nat) (steps : Nat) (t : Parents) (b : Nat) :
    Option Nat :=
  match (g.preds b).filter t.isPlaced with
  | [] => none
  | p :: ps => some (ps.foldl (fun d p => t.meet order steps p d) p)

def move (g : Graph) (order : List Nat) (steps : Nat) (t : Parents) (b : Nat) : Parents :=
  match g.meetPreds? order steps t b with
  | none => t
  | some d => t.setIfInBounds b (some d)

/-- Moves all nodes but the entry, in order. -/
def pass (g : Graph) (order : List Nat) (steps : Nat) (t : Parents) : Parents :=
  order.tail.foldl (g.move order steps) t

/-- Repeats passes until one changes nothing, but at most `passes` times. -/
def settle (g : Graph) (order : List Nat) (steps : Nat) : (passes : Nat) → Parents → Parents
  | 0, t => t
  | passes + 1, t =>
    let t' := g.pass order steps t
    if t' = t then t else g.settle order steps passes t'

/-- The dominator tree, with bounds for the steps up the tree and for the passes. -/
def domTreeWithin (g : Graph) (steps passes : Nat) : DomTree :=
  let order := g.reversePostOrder
  { order, parents := g.settle order steps passes (Array.replicate g.size none) }

def domTree (g : Graph) : DomTree :=
  g.domTreeWithin (2 * g.size) (g.size * g.size + 2)

end Graph

namespace DomTree

def contains (t : DomTree) (b : Nat) : Bool :=
  t.order.contains b

def parent? (t : DomTree) (b : Nat) : Option Nat :=
  t.parents.parent? b

def children (t : DomTree) (b : Nat) : List Nat :=
  t.order.filter (t.parent? · = some b)

/-- A node, its immediate dominator, the one of that, and so on, for at most `fuel` nodes. -/
def chainAux (t : DomTree) : (fuel : Nat) → Nat → List Nat
  | 0, _ => []
  | fuel + 1, b => b :: (t.parent? b).elim [] (chainAux t fuel)

/-- A node and its strict dominators, closest first. -/
def chain (t : DomTree) (b : Nat) : List Nat :=
  t.chainAux t.parents.size b

def dominates (t : DomTree) (a b : Nat) : Bool :=
  a = b || (t.chain b).contains a

end DomTree

end BasicSSA.IL
