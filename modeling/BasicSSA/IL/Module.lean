import BasicSSA.IL.Opcode
import BasicSSA.IL.Value
import BasicSSA.Loc

/-!
# Modules of the intermediate language

A module holds functions, a function holds blocks and a block holds instructions. The parts of an
instruction that its operation asks for may be missing; the verifier finds out.
-/

namespace BasicSSA.IL

structure Instr where
  op : Opcode
  /-- The type of the result, void if there is none. -/
  type : Ty := {}
  result : Option Value := none
  operands : List Value := []
  /-- The function of a call, the field of a field access, the class of a new object or the type of
  a stack slot. -/
  name : String := ""
  /-- The targets of a branch, or the predecessors of a phi. -/
  labels : List String := []
  loc : Loc := {}
  deriving Inhabited, DecidableEq, Repr

structure Block where
  label : String
  instrs : List Instr := []
  deriving Inhabited, DecidableEq, Repr

/-- A name with its type: a parameter, a local variable or a field. -/
structure Slot where
  name : String
  type : Ty
  deriving Inhabited, DecidableEq, Repr

structure Function where
  name : String
  returnType : Ty := {}
  params : List Slot := []
  locals : List Slot := []
  /-- The blocks in the order they were made; a run starts with the first. -/
  blocks : List Block := []
  deriving Inhabited, DecidableEq, Repr

structure Global where
  name : String
  type : Ty
  init : Option Value := none
  isConstant : Bool := false
  deriving Inhabited, DecidableEq, Repr

/-- The value of a constant of the module, if it has one. -/
def Global.known? (g : Global) : Option Value :=
  if g.isConstant then g.init else none

structure ClassLayout where
  name : String
  base : String := ""
  fields : List Slot := []
  methods : List String := []
  deriving Inhabited, DecidableEq, Repr

structure Module where
  name : String := "main"
  globals : List Global := []
  classes : List ClassLayout := []
  functions : List Function := []
  deriving Inhabited, DecidableEq, Repr

def Instr.definedVar? (i : Instr) : Option (String × Ty) :=
  match i.result with
  | some (.var name _ type) => some (name, type)
  | _ => none

namespace Block

/-- The last instruction, if it ends the block. -/
def terminator? (b : Block) : Option Instr :=
  b.instrs.getLast?.filter (·.op.isTerminator)

def isTerminated (b : Block) : Bool :=
  b.terminator?.isSome

/-- The labels of the blocks that control may go to, each once. -/
def targets (b : Block) : List String :=
  match b.terminator? with
  | none => []
  | some i => i.labels.foldl (fun seen l => if seen.contains l then seen else seen ++ [l]) []

end Block

namespace Function

/-- The number of the first block with a label. -/
def blockIdx? (f : Function) (label : String) : Option Nat :=
  f.blocks.findIdx? (·.label = label)

def hasBlock (f : Function) (label : String) : Bool :=
  (f.blockIdx? label).isSome

def block (f : Function) (i : Nat) : Block :=
  f.blocks.getD i default

def label (f : Function) (i : Nat) : String :=
  (f.block i).label

end Function

namespace Module

def function? (m : Module) (name : String) : Option Function :=
  m.functions.find? (·.name = name)

def global? (m : Module) (name : String) : Option Global :=
  m.globals.find? (·.name = name)

def class? (m : Module) (name : String) : Option ClassLayout :=
  m.classes.find? (·.name = name)

end Module

end BasicSSA.IL
