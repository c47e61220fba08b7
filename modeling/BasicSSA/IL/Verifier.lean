import BasicSSA.Flow.Graph

/-!
# Verifying modules

A module is accepted if each function has blocks with distinct labels, each block ends with its only
terminator and starts with its phis, and each instruction has the parts that its operation asks for.
The first problem is reported.
-/

namespace BasicSSA.IL

inductive BlockFault where
  | empty
  | missingTerminator
  | earlyTerminator
  | latePhi
  | notPredecessor (label : String)
  | targetCount (op : Opcode) (count : Nat)
  | switchMismatch
  | unknownTarget (label : String)
  | missingReturnValue (type : Ty)
  | unexpectedReturnValue
  | phiMismatch
  | phiWithoutVariable
  | missingCallee
  | badStore
  | storeToConstant (name : String)
  | badAssign
  | notTwoOperands (op : Opcode)
  deriving DecidableEq, Repr

def BlockFault.message : BlockFault → String
  | .empty => "empty block"
  | .missingTerminator => "missing terminator"
  | .earlyTerminator => "terminator before end of block"
  | .latePhi => "phi after non-phi instruction"
  | .notPredecessor label => "phi names non-predecessor '" ++ label ++ "'"
  | .targetCount op count => op.text ++ " has " ++ toString count ++ " targets"
  | .switchMismatch => "switch case values and targets differ"
  | .unknownTarget label => "unknown branch target '" ++ label ++ "'"
  | .missingReturnValue type => "ret must carry a " ++ type.text ++ " value"
  | .unexpectedReturnValue => "ret in a subroutine carries a value"
  | .phiMismatch => "phi operands and labels differ"
  | .phiWithoutVariable => "phi must define a variable"
  | .missingCallee => "call without callee"
  | .badStore => "store expects address and value"
  | .storeToConstant name => "store to constant global '@" ++ name ++ "'"
  | .badAssign => "assign expects a variable and one value"
  | .notTwoOperands op => op.text ++ " expects two operands"

inductive VerifyProblem where
  | duplicateFunction (name : String)
  | noBlocks (function : String)
  | duplicateLabel (function label : String)
  | inBlock (function label : String) (fault : BlockFault)
  deriving DecidableEq, Repr

def VerifyProblem.message : VerifyProblem → String
  | .duplicateFunction name => "duplicate function '" ++ name ++ "'"
  | .noBlocks function => "function '" ++ function ++ "' has no blocks"
  | .duplicateLabel function label =>
    "function '" ++ function ++ "': duplicate label '" ++ label ++ "'"
  | .inBlock function label fault =>
    "function '" ++ function ++ "': block '" ++ label ++ "': " ++ fault.message

structure VerifyError where
  problem : VerifyProblem
  loc : Loc := {}
  deriving DecidableEq, Repr

def VerifyError.message (e : VerifyError) : String :=
  e.problem.message

/-- The first element that occurs again, at its second occurrence. -/
def firstRepeated? : (seen rest : List String) → Option String
  | _, [] => none
  | seen, x :: rest => if seen.contains x then some x else firstRepeated? (x :: seen) rest

def targetFault? (f : Function) (i : Instr) : Option BlockFault :=
  (i.labels.find? (!f.hasBlock ·)).map .unknownTarget

def instrFault? (m : Module) (f : Function) (i : Instr) : Option BlockFault :=
  match i.op with
  | .br =>
    if i.labels.length ≠ 1 then some (.targetCount .br i.labels.length) else targetFault? f i
  | .cbr =>
    if i.labels.length ≠ 2 then some (.targetCount .cbr i.labels.length) else targetFault? f i
  | .switch =>
    if i.operands.length ≠ i.labels.length then some .switchMismatch else targetFault? f i
  | .ret =>
    if f.returnType.isVoid then
      if i.operands.isEmpty then none else some .unexpectedReturnValue
    else if i.operands.length ≠ 1 then some (.missingReturnValue f.returnType)
    else none
  | .phi =>
    if i.operands.length ≠ i.labels.length then some .phiMismatch
    else if i.result.any Value.isVar then none
    else some .phiWithoutVariable
  | .call => if i.name.isEmpty then some .missingCallee else none
  | .store =>
    match i.operands with
    | [.global name _, _] =>
      if (m.global? name).any (·.isConstant) then some (.storeToConstant name) else none
    | [_, _] => none
    | _ => some .badStore
  | .assign =>
    if i.result.any Value.isVar && i.operands.length = 1 then none else some .badAssign
  | op =>
    if (op.isBinary || op.isCompare) && i.operands.length ≠ 2 then some (.notTwoOperands op)
    else none

/-- The problem with the place of an instruction in its block: `isLast` tells whether it is the last
one, and `afterPhis` whether an instruction other than a phi came before. -/
def placeFault? (f : Function) (preds : List Nat) (isLast afterPhis : Bool) (i : Instr) :
    Option BlockFault :=
  if i.op.isTerminator ≠ isLast then
    some (if isLast then .missingTerminator else .earlyTerminator)
  else if i.op = .phi then
    if afterPhis then some .latePhi
    else
      (i.labels.find? fun l => !(f.blockIdx? l).any preds.contains).map .notPredecessor
  else none

def instrsError? (m : Module) (f : Function) (preds : List Nat) :
    (afterPhis : Bool) → List Instr → Option (BlockFault × Loc)
  | _, [] => none
  | afterPhis, i :: rest =>
    match placeFault? f preds rest.isEmpty afterPhis i <|> instrFault? m f i with
    | some fault => some (fault, i.loc)
    | none => instrsError? m f preds (afterPhis || i.op ≠ .phi) rest

def blockError? (m : Module) (f : Function) (n : Nat) (b : Block) : Option VerifyError :=
  let found := if b.instrs.isEmpty then some (BlockFault.empty, {})
    else instrsError? m f (f.graph.preds n) false b.instrs
  found.map fun (fault, loc) => ⟨.inBlock f.name b.label fault, loc⟩

def functionError? (m : Module) (f : Function) : Option VerifyError :=
  if f.blocks.isEmpty then some { problem := .noBlocks f.name }
  else
    match firstRepeated? [] (f.blocks.map (·.label)) with
    | some label => some { problem := .duplicateLabel f.name label }
    | none => f.blocks.zipIdx.findSome? fun (b, n) => blockError? m f n b

def functionsError? (m : Module) : (seen : List String) → List Function → Option VerifyError
  | _, [] => none
  | seen, f :: rest =>
    if seen.contains f.name then some { problem := .duplicateFunction f.name }
    else functionError? m f <|> functionsError? m (f.name :: seen) rest

/-- The first problem in a module. -/
def verify (m : Module) : Except VerifyError Unit :=
  match functionsError? m [] m.functions with
  | some e => .error e
  | none => .ok ()

end BasicSSA.IL
