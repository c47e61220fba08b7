import BasicSSA.IL.Phi

/-!
# Running functions

A machine runs the blocks of a function for any meaning of its operations. It keeps the values of
variables in registers: one for each name, or one for each version of a name. On the way into a
block its phis read their operands for the edge just taken, all before any of them is written.
-/

namespace BasicSSA.IL

/-- A meaning of the operations over values `V` and states of the world `W`. An operation sees its
code, its callee, its type and the values of its operands; it gives a result, changes the world and
chooses one of the targets of a branch. -/
structure Interpretation (V W : Type) where
  /-- The value of an operand that is neither a variable nor a temporary. -/
  const : Value → V
  exec : W → Opcode → String → Ty → List V → V × W × Nat

/-- How variables are kept: by their names alone, or by name and version. -/
inductive Addressing where
  | byName
  | byVersion
  deriving DecidableEq, Repr

/-- The register of a name that holds a version. -/
def Addressing.slot : Addressing → Nat → Nat
  | byName, _ => 0
  | byVersion, v => v

structure Registers (V : Type) where
  var : String → Nat → V
  temp : Nat → V

/-- What a run shows: the blocks it enters, and the instructions it executes with the values of
their operands. An instruction is known by its block and the number of instructions after it; it is
shown without versions. -/
inductive Event (V : Type) where
  | enter (block : Nat)
  | exec (block after : Nat) (instr : Instr) (values : List V)

/-- A point of a run: the block, what remains of it, the registers and the world. -/
structure Point (V W : Type) where
  block : Nat
  rest : List Instr
  regs : Registers V
  world : W

/-- A value without its version. -/
def Value.unversioned : Value → Value
  | .var x _ t => .var x 0 t
  | v => v

/-- An instruction without versions. -/
def Instr.unversioned (i : Instr) : Instr :=
  { i with
    result := i.result.map Value.unversioned
    operands := i.operands.map Value.unversioned }

/-- The operand of a phi for a predecessor. -/
def Instr.operandFor? (i : Instr) (label : String) : Option Value :=
  (i.labels.zip i.operands).lookup label

namespace Registers

def read (r : Registers V) (S : Interpretation V W) (a : Addressing) : Value → V
  | .var x v _ => r.var x (a.slot v)
  | .temp n _ => r.temp n
  | v => S.const v

def setVar (r : Registers V) (x : String) (v : Nat) (value : V) : Registers V :=
  { r with var := fun y w => if y = x ∧ w = v then value else r.var y w }

def setTemp (r : Registers V) (n : Nat) (value : V) : Registers V :=
  { r with temp := fun m => if m = n then value else r.temp m }

/-- Gives a value to the result of an instruction, if it has one. -/
def write (r : Registers V) (a : Addressing) (result : Option Value) (value : V) : Registers V :=
  match result with
  | some (.var x v _) => r.setVar x (a.slot v) value
  | some (.temp n _) => r.setTemp n value
  | _ => r

/-- The registers after phis that were entered from a block. All of them read the old registers. -/
def takePhis (old : Registers V) (S : Interpretation V W) (a : Addressing) (origin : String) :
    List Instr → Registers V → Registers V
  | [], r => r
  | i :: is, r =>
    match i.operandFor? origin with
    | some v => takePhis old S a origin is (r.write a i.result (old.read S a v))
    | none => takePhis old S a origin is r

end Registers

namespace Function

/-- The point at the start of a block that is entered from another one. -/
def enter (f : Function) (S : Interpretation V W) (a : Addressing) (origin : String) (b : Nat)
    (regs : Registers V) (world : W) : Point V W :=
  { block := b
    rest := (f.block b).instrs.dropWhile (·.op = .phi)
    regs := regs.takePhis S a origin ((f.block b).instrs.takeWhile (·.op = .phi)) regs
    world }

/-- Goes on after an instruction with its result, the new world and the chosen target: to the block
of the target, to the end of the run after another terminator, or to the next instruction. -/
def advance (f : Function) (S : Interpretation V W) (a : Addressing) (c : Point V W) (i : Instr)
    (rest : List Instr) (out : V × W × Nat) : List (Event V) × Point V W :=
  let (value, world, target) := out
  let regs := c.regs.write a i.result value
  if i.op.isTerminator then
    match (i.labels[target]?).bind f.blockIdx? with
    | none => ([], { c with rest := [], regs, world })
    | some b => ([.enter b], f.enter S a (f.label c.block) b regs world)
  else ([], { c with rest, regs, world })

/-- Executes the next instruction, if there is one that is no phi. -/
def step (f : Function) (S : Interpretation V W) (a : Addressing) (c : Point V W) :
    Option (List (Event V) × Point V W) :=
  match c.rest with
  | [] => none
  | i :: rest =>
    if i.op = .phi then none
    else
      let values := i.operands.map (c.regs.read S a)
      let next := f.advance S a c i rest (S.exec c.world i.op i.name i.type values)
      some (.exec c.block rest.length i.unversioned values :: next.1, next.2)

/-- What a run shows in a number of steps. -/
def trace (f : Function) (S : Interpretation V W) (a : Addressing) :
    (steps : Nat) → Point V W → List (Event V)
  | 0, _ => []
  | n + 1, c =>
    match f.step S a c with
    | none => []
    | some (events, c) => events ++ trace f S a n c

/-- What a run from the first block shows in a number of steps. -/
def run (f : Function) (S : Interpretation V W) (a : Addressing) (regs : Registers V) (world : W)
    (steps : Nat) : List (Event V) :=
  .enter 0 :: f.trace S a steps { block := 0, rest := (f.block 0).instrs, regs, world }

end Function

end BasicSSA.IL
