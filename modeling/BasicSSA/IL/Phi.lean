import BasicSSA.Flow.Frontier

/-!
# Placing phis

A variable that is read in a block which does not define it first gets a phi at each block where
several of its definitions meet. Then each definition gets a version of its own and each use the
version that reaches it.
-/

namespace BasicSSA.IL

/-- How many phis were placed and how many definitions got a version. -/
structure PhiStats where
  inserted : Nat := 0
  renamed : Nat := 0
  deriving Inhabited, DecidableEq, Repr

def PhiStats.add (a b : PhiStats) : PhiStats :=
  { inserted := a.inserted + b.inserted, renamed := a.renamed + b.renamed }

/-! ### Variables -/

def varsOf (vs : List Value) : List (String × Ty) :=
  vs.filterMap fun
    | .var name _ type => some (name, type)
    | _ => none

def Instr.vars (i : Instr) : List (String × Ty) :=
  varsOf i.operands ++ i.definedVar?.toList

def Block.defines (b : Block) (name : String) : Bool :=
  b.instrs.any fun i => i.definedVar?.any (·.1 = name)

/-- Whether instructions read a variable before they define it. -/
def readsFirst (name : String) : List Instr → Bool
  | [] => false
  | i :: rest =>
    (varsOf i.operands).any (·.1 = name) ||
      (!i.definedVar?.any (·.1 = name) && readsFirst name rest)

/-- The first pair of each name. -/
def firstOfEach : (seen : List String) → List (String × Ty) → List (String × Ty)
  | _, [] => []
  | seen, (name, type) :: rest =>
    if seen.contains name then firstOfEach seen rest
    else (name, type) :: firstOfEach (name :: seen) rest

namespace Function

def reachable (f : Function) (t : DomTree) : List (Block × Nat) :=
  f.blocks.zipIdx.filter fun (_, n) => t.contains n

/-- The variables of a function with their types, in the order they are met. -/
def allVars (f : Function) (t : DomTree) : List (String × Ty) :=
  firstOfEach [] (f.params.map (fun p => (p.name, p.type)) ++
    (f.reachable t).flatMap fun (b, _) => b.instrs.flatMap Instr.vars)

/-- The blocks that define a variable. The entry defines the parameters. -/
def defBlocks (f : Function) (t : DomTree) (name : String) : List Nat :=
  (if f.params.any (·.name = name) then [0] else []) ++
    ((f.reachable t).filter fun (b, _) => b.defines name).map (·.2)

/-- Whether some block needs the value of a variable from before. -/
def isLive (f : Function) (t : DomTree) (name : String) : Bool :=
  (f.reachable t).any fun (b, _) => readsFirst name b.instrs

/-! ### New phis -/

/-- The variables that get a phi, with the blocks where they do. -/
def joins (f : Function) (t : DomTree) (df : Frontiers) : List ((String × Ty) × List Nat) :=
  ((f.allVars t).filter fun (name, _) => f.isLive t name).map fun v =>
    (v, iteratedFrontier df (f.defBlocks t v.1))

end Function

/-- A phi with an operand for each predecessor, all at version 0. -/
def newPhi (preds : List String) (v : String × Ty) : Instr :=
  let (name, type) := v
  { op := .phi, type, result := some (.var name 0 type),
    operands := preds.map fun _ => .var name 0 type, labels := preds }

/-- A block with new phis after those that it has. -/
def Block.insertPhis (b : Block) (phis : List Instr) : Block :=
  { b with instrs :=
      b.instrs.takeWhile (·.op = .phi) ++ phis ++ b.instrs.dropWhile (·.op = .phi) }

def Function.insertPhis (f : Function) (g : Graph) (t : DomTree) (df : Frontiers) :
    Function × Nat :=
  let joins := f.joins t df
  let phisAt (n : Nat) : List Instr :=
    let preds := (g.reachablePreds t n).map f.label
    (joins.filter fun (_, blocks) => blocks.contains n).map fun (v, _) => newPhi preds v
  ({ f with blocks := f.blocks.zipIdx.map fun (b, n) => b.insertPhis (phisAt n) },
    (joins.map fun (_, blocks) => blocks.length).foldr (· + ·) 0)

/-! ### Versions -/

/-- The version of each variable; 0 for a variable that is not listed. -/
abbrev Versions := List (String × Nat)

def Versions.of (vs : Versions) (name : String) : Nat :=
  (vs.lookup name).getD 0

/-- A variable or a temporary with another number. -/
def Value.renumber (n : Nat) : Value → Value
  | .var name _ type => .var name n type
  | .temp _ type => .temp n type
  | v => v

/-- A use of a variable with the version that reaches it. -/
def Value.use (env : Versions) : Value → Value
  | .var name _ type => .var name (env.of name) type
  | v => v

/-- Gives the result of an instruction the next version of its variable, and its operands the
versions that reach them. The operands of a phi come later, from the predecessors. -/
def renameInstr (env last : Versions) (i : Instr) : Instr × Versions × Versions :=
  let operands := if i.op = .phi then i.operands else i.operands.map (Value.use env)
  match i.result with
  | some (.var name _ type) =>
    let version := last.of name + 1
    ({ i with operands, result := some (.var name version type) },
      (name, version) :: env, (name, version) :: last)
  | _ => ({ i with operands }, env, last)

/-- Renames instructions in order. `env` holds the versions that reach the first one, `last` the
last version given to each variable; the versions after the last instruction come back. -/
def renameInstrs : (env last : Versions) → List Instr → List Instr × Versions × Versions
  | env, last, [] => ([], env, last)
  | env, last, i :: rest =>
    let (i, env, last) := renameInstr env last i
    let (rest, env, last) := renameInstrs env last rest
    (i :: rest, env, last)

/-- The state of the renaming: the last version given to each variable, and for each block done its
new instructions and the versions at its end. -/
structure Renaming where
  last : Versions := []
  done : List (Nat × List Instr × Versions) := []
  deriving Inhabited, Repr

/-- Renames a block and the blocks below it in the dominator tree, which may be `fuel` levels
deep. -/
def renameTree (f : Function) (t : DomTree) : (fuel : Nat) → Versions → Renaming → Nat → Renaming
  | 0, _, r, _ => r
  | fuel + 1, env, r, n =>
    let (instrs, env, last) := renameInstrs env r.last (f.block n).instrs
    (t.children n).foldl (renameTree f t fuel env)
      { last, done := (n, instrs, env) :: r.done }

/-- Gives the operands of a phi the versions that its variable has at the ends of the predecessors
they come from. -/
def fillPhi (ends : List (String × Versions)) (i : Instr) : Instr :=
  match i.result with
  | some result =>
    { i with operands := i.operands.zipIdx.map fun (v, k) =>
        match (i.labels[k]?).bind (ends.lookup ·) with
        | some env => v.renumber (env.of result.name)
        | none => v }
  | none => i

def fillPhis (ends : List (String × Versions)) : List Instr → List Instr
  | [] => []
  | i :: rest => if i.op = .phi then fillPhi ends i :: fillPhis ends rest else i :: rest

/-- The function with a version for each definition, and the number of versions. -/
def Function.rename (f : Function) (g : Graph) (t : DomTree) : Function × Nat :=
  let r := renameTree f t (f.blocks.length + 1) (f.params.map fun p => (p.name, 0)) {} 0
  let ends (n : Nat) : List (String × Versions) :=
    (g.preds n).filterMap fun p => (r.done.lookup p).map fun (_, env) => (f.label p, env)
  ({ f with blocks := f.blocks.zipIdx.map fun (b, n) =>
      match r.done.lookup n with
      | some (instrs, _) => { b with instrs := fillPhis (ends n) instrs }
      | none => b },
    (r.done.map fun (_, instrs, _) => instrs.countP (·.definedVar?.isSome)).foldr (· + ·) 0)

/-- Places phis along given frontiers. -/
def Function.placePhisAlong (f : Function) (df : Frontiers) : Function × PhiStats :=
  if f.blocks.isEmpty then (f, {})
  else
    let g := f.graph
    let t := g.domTree
    let (f, inserted) := f.insertPhis g t df
    let (f, renamed) := f.rename g t
    (f, { inserted, renamed })

/-- Places the phis of a function and gives each definition a version. -/
def Function.placePhis (f : Function) : Function × PhiStats :=
  f.placePhisAlong (f.graph.frontiers f.graph.domTree)

def placePhisIn : List Function → List Function × PhiStats
  | [] => ([], {})
  | f :: rest =>
    let (f, a) := f.placePhis
    let (rest, b) := placePhisIn rest
    (f :: rest, a.add b)

def Module.placePhis (m : Module) : Module × PhiStats :=
  let (functions, stats) := placePhisIn m.functions
  ({ m with functions }, stats)

end BasicSSA.IL
