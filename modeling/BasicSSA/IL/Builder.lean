import BasicSSA.IL.Module

/-!
# Building modules

A builder holds a module that grows, the block that takes new instructions and the number of the
next temporary. A step that fails leaves the module as it was, though a temporary that was taken
for its result stays taken.
-/

namespace BasicSSA.IL

inductive BuildError where
  | duplicateGlobal (name : String)
  | emptyFunctionName
  | noFunction
  | emptyLabel
  | duplicateLabel (label function : String)
  | notComparison
  | targetNotVariable
  | noBlock
  | afterTerminator (label : String)
  deriving DecidableEq, Repr

def BuildError.message : BuildError → String
  | .duplicateGlobal name => "global '" ++ name ++ "' already exists in module"
  | .emptyFunctionName => "function name cannot be empty"
  | .noFunction => "no function started"
  | .emptyLabel => "block label cannot be empty"
  | .duplicateLabel label function =>
    "block label '" ++ label ++ "' already exists in function '" ++ function ++ "'"
  | .notComparison => "emitCompare requires a comparison opcode"
  | .targetNotVariable => "assign target must be a variable"
  | .noBlock => "no insertion block set"
  | .afterTerminator label => "instruction appended after terminator in block '" ++ label ++ "'"

structure Builder where
  finished : Module := {}
  function : Option Function := none
  /-- The number of the block that takes new instructions. -/
  current : Option Nat := none
  nextTemp : Nat := 0
  deriving Inhabited, Repr

abbrev Build := ExceptT BuildError (StateM Builder)

namespace Builder

def module (b : Builder) : Module :=
  { b.finished with functions := b.finished.functions ++ b.function.toList }

/-- The builder with its module replaced; the last function stays under construction. -/
def withModule (b : Builder) (m : Module) : Builder :=
  { b with finished := { m with functions := m.functions.dropLast },
           function := m.functions.getLast? }

def block? (b : Builder) : Option Block := do
  let f ← b.function
  let i ← b.current
  f.blocks[i]?

def isTerminated (b : Builder) : Bool :=
  b.block?.any Block.isTerminated

def modifyFunction (b : Builder) (change : Function → Function) : Builder :=
  { b with function := b.function.map change }

def modifyBlock (b : Builder) (change : Block → Block) : Builder :=
  match b.current with
  | none => b
  | some i => b.modifyFunction fun f => { f with blocks := f.blocks.modify i change }

end Builder

namespace Build

def addGlobal (g : Global) : Build Unit := do
  if ((← get).finished.global? g.name).isSome then throw (.duplicateGlobal g.name)
  modify fun b => { b with finished.globals := b.finished.globals ++ [g] }

def addClass (c : ClassLayout) : Build Unit :=
  modify fun b => { b with finished.classes := b.finished.classes ++ [c] }

/-- Starts a function, which needs a name. There is no block yet that takes instructions. -/
def startFunction (name : String) (returnType : Ty) (params : List Slot) : Build Unit := do
  if name.isEmpty then throw .emptyFunctionName
  modify fun b => { finished := b.module, function := some { name, returnType, params } }

/-- Adds an empty block and gives its number. -/
def addBlock (label : String) : Build Nat := do
  match (← get).function with
  | none => throw .noFunction
  | some f =>
    if label.isEmpty then throw .emptyLabel
    if f.hasBlock label then throw (.duplicateLabel label f.name)
    modify (·.modifyFunction fun f => { f with blocks := f.blocks ++ [{ label }] })
    return f.blocks.length

/-- Adds an empty block to a function that was started before the last one. -/
def addBlockTo (function : Nat) (label : String) : Build Unit := do
  match (← get).finished.functions[function]? with
  | none => throw .noFunction
  | some f =>
    if label.isEmpty then throw .emptyLabel
    if f.hasBlock label then throw (.duplicateLabel label f.name)
    modify fun b => { b with finished.functions := b.finished.functions.modify function fun f =>
      { f with blocks := f.blocks ++ [{ label }] } }

/-- New instructions go to the end of a block. -/
def continueAt (block : Nat) : Build Unit :=
  modify fun b => { b with current := some block }

def addLocal (s : Slot) : Build Unit :=
  modify (·.modifyFunction fun f => { f with locals := f.locals ++ [s] })

def freshTemp (type : Ty) : Build Value := do
  let id := (← get).nextTemp
  modify fun b => { b with nextTemp := id + 1 }
  return .temp id type

/-- Adds an instruction to the current block, which must be open. -/
def append (i : Instr) : Build Unit := do
  match (← get).block? with
  | none => throw .noBlock
  | some block =>
    if block.isTerminated then throw (.afterTerminator block.label)
    else modify (·.modifyBlock fun block => { block with instrs := block.instrs ++ [i] })

/-- Adds an instruction with a new temporary of its type as its result. -/
def appendResult (i : Instr) : Build Value := do
  let result ← freshTemp i.type
  append { i with result := some result }
  return result

def binary (op : Opcode) (type : Ty) (lhs rhs : Value) (loc : Loc) : Build Value :=
  appendResult { op, type, operands := [lhs, rhs], loc }

def unary (op : Opcode) (type : Ty) (operand : Value) (loc : Loc) : Build Value :=
  appendResult { op, type, operands := [operand], loc }

def compare (op : Opcode) (lhs rhs : Value) (loc : Loc) : Build Value := do
  if op.isCompare then binary op .boolean lhs rhs loc else throw .notComparison

/-- A call; without a return type it has no result. -/
def call (callee : String) (args : List Value) (returnType : Ty) (loc : Loc) :
    Build (Option Value) := do
  let i : Instr := { op := .call, type := returnType, operands := args, name := callee, loc }
  if returnType.isVoid then
    append i
    return none
  else return some (← appendResult i)

def alloca (type : Ty) (loc : Loc) : Build Value :=
  appendResult { op := .alloca, type := .pointerTo type, name := type.text, loc }

def load (type : Ty) (address : Value) (loc : Loc) : Build Value :=
  appendResult { op := .load, type, operands := [address], loc }

def store (address value : Value) (loc : Loc) : Build Unit :=
  append { op := .store, operands := [address, value], loc }

def gep (element : Ty) (base : Value) (indices : List Value) (loc : Loc) : Build Value :=
  appendResult { op := .gep, type := .pointerTo element, operands := base :: indices, loc }

def cast (value : Value) (target : Ty) (loc : Loc) : Build Value :=
  appendResult { op := .cast, type := target, operands := [value], loc }

def assign (target value : Value) (loc : Loc) : Build Unit :=
  if target.isVar then
    append { op := .assign, type := target.type, result := some target, operands := [value], loc }
  else throw .targetNotVariable

def fieldLoad (type : Ty) (object : Value) (field : String) (loc : Loc) : Build Value :=
  appendResult { op := .fieldLoad, type, operands := [object], name := field, loc }

def fieldStore (object : Value) (field : String) (value : Value) (loc : Loc) : Build Unit :=
  append { op := .fieldStore, operands := [object, value], name := field, loc }

def newObject (type : Ty) (className : String) (args : List Value) (loc : Loc) : Build Value :=
  appendResult { op := .newObj, type, operands := args, name := className, loc }

def br (target : String) (loc : Loc) : Build Unit :=
  append { op := .br, labels := [target], loc }

def cbr (cond : Value) (yes no : String) (loc : Loc) : Build Unit :=
  append { op := .cbr, operands := [cond], labels := [yes, no], loc }

def switch (value : Value) (cases : List (Value × String)) (default : String) (loc : Loc) :
    Build Unit :=
  append { op := .switch, operands := value :: cases.map (·.1),
           labels := default :: cases.map (·.2), loc }

def ret (value : Option Value) (loc : Loc) : Build Unit :=
  append { op := .ret, operands := value.toList, loc }

/-- Whether the result of an instruction may be given to a variable instead of a temporary. -/
def canRename (temp target : Value) (i : Instr) : Bool :=
  target.isVar && (match temp with | .temp .. => true | _ => false) &&
    i.result.any (·.same temp) && i.type = target.type &&
    (i.op.isBinary || i.op.isUnary || i.op.isCompare || i.op = .call)

/-- Gives the result of the last instruction, a temporary, to a variable of its type instead; tells
whether that was possible. -/
def renameResult (temp target : Value) : Build Bool := do
  match (← get).block?.bind (·.instrs.getLast?) with
  | none => return false
  | some last =>
    if canRename temp target last then
      modify (·.modifyBlock fun block =>
        { block with instrs := block.instrs.dropLast ++ [{ last with result := some target }] })
      return true
    else return false

end Build

end BasicSSA.IL
