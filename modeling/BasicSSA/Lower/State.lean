import BasicSSA.Analysis.Declare
import BasicSSA.IL.Builder
import BasicSSA.Lower.Constant
import BasicSSA.Lower.Loops
import BasicSSA.Lower.Names

/-!
# The state of lowering

Lowering turns an analysed program into a module of the intermediate language. It builds one
function at a time.
-/

namespace BasicSSA

inductive LowerError where
  | build (e : IL.BuildError)
  | notAnalyzed (what : String)
  | subroutineAsValue (name : String)
  | callAsValue
  | notValue (name : String)
  | outsideWith (member : String)
  | outsideMethod
  | notAssignable
  | voidDefault
  | outsideLoop (kind : ExitKind)
  | noFunctionFor (procedure : String)
  /-- A field of a class is given a new object of the class, and so on without end. -/
  | endlessFields (className : String)
  deriving DecidableEq, Repr

def LowerError.message : LowerError → String
  | .build e => e.message
  | .notAnalyzed what => what ++ " was not analyzed"
  | .subroutineAsValue name => "subroutine '" ++ name ++ "' used as a value"
  | .callAsValue => "subroutine call used as a value"
  | .notValue name => "'" ++ name ++ "' is not a value"
  | .outsideWith member => "'." ++ member ++ "' outside a With block"
  | .outsideMethod => "'Me' used outside an instance method"
  | .notAssignable => "expression is not assignable"
  | .voidDefault => "no default value for void"
  | .outsideLoop kind => "'Exit " ++ kind.text ++ "' outside a matching loop"
  | .noFunctionFor procedure => "no lowered name for procedure '" ++ procedure ++ "'"
  | .endlessFields className => "fields of '" ++ className ++ "' have no end"

structure LowerState where
  builder : IL.Builder := {}
  /-- The names of the procedure that is lowered now. -/
  names : Names := {}
  deriving Inhabited, Repr

abbrev Lower := StateT LowerState (Except LowerError)

namespace Lower

open IL (Value Ty Opcode Build)

/-- What lowering knows about the whole program. -/
structure Env where
  types : Catalog
  tree : ScopeTree
  procedures : List (SymbolId × String) := []
  /-- The names of variables and constants that belong to no procedure. -/
  globals : List (SymbolId × String) := []
  /-- The fields of classes that are given a value in every new object. -/
  classes : List (TypeId × List (VarDecl Note)) := []

/-- Where code stands. -/
structure Place extends Env where
  returnType : Ty := {}
  me : Option Value := none
  /-- The objects of the `With` blocks around, innermost first. -/
  withValues : List Value := []
  loops : LoopStack := []

namespace Env

def typeOf (env : Env) (i : Note) : Ty :=
  env.types.lowered i.type

def typeOfSymbol (env : Env) (x : SymbolId) : Ty :=
  env.types.lowered (env.tree.symbol x).type

def isCallable (env : Env) (x : SymbolId) : Bool :=
  (env.tree.symbol x).isCallable

/-- Whether a symbol belongs to each object of a class or an interface. -/
def isInstanceMember (env : Env) (x : SymbolId) : Bool :=
  let s := env.tree.symbol x
  !s.isShared && (s.kind = .field || s.isCallable) && (env.tree.scope s.scope).kind.isClass

/-- Whether an expression names something with members that is no object. -/
def isContainer (env : Env) (i : Note) : Bool :=
  i.symbol.any fun x =>
    match (env.tree.symbol x).kind with
    | .nspace | .module | .cls | .struct | .type | .interface => true
    | _ => false

def function? (env : Env) (x : SymbolId) : Option String :=
  let s := env.tree.symbol x
  (if s.isBuiltin then (Builtin.find? s.name).map (·.runtime) else none) <|>
    env.procedures.lookup x

/-- What a call of a procedure gives. Where that is a type parameter, the call itself tells. -/
def returnTypeAt (env : Env) (site : Note) (x : SymbolId) : Ty :=
  let s := env.tree.symbol x
  match s.kind, s.returnType with
  | .function, some t =>
    if env.types.isParameter t then env.typeOf site else env.types.lowered (some t)
  | _, _ => {}

end Env

/-! ### Code -/

def emit {α : Type} (step : Build α) : Lower α := fun s =>
  match step.run.run s.builder with
  | (.ok a, builder) => .ok (a, { s with builder })
  | (.error e, _) => .error (.build e)

def naming {α : Type} (f : Names → α × Names) : Lower α :=
  modifyGet fun s =>
    let (a, names) := f s.names
    (a, { s with names })

/-- The value of something that must have one. -/
def needed (e : LowerError) : Option Value → Lower Value
  | some v => return v
  | none => throw e

/-- Calls a function of the runtime that gives a value. -/
def runtime (function : String) (args : List Value) (type : Ty) (loc : Loc) : Lower Value := do
  needed .callAsValue (← emit (Build.call function args type loc))

def me (p : Place) : Lower Value :=
  needed .outsideMethod p.me

/-- The object of the innermost `With` block, for one of its members. -/
def withValue (p : Place) (member : String) : Lower Value :=
  needed (.outsideWith member) p.withValues.head?

/-! ### Conversion -/

def zero (type : Ty) : Lower Value :=
  needed .voidDefault type.zero?

/-- A value as a value of another type. Values that are stored alike need no conversion. -/
def coerce (v : Value) (target : Ty) (loc : Loc) : Lower Value :=
  if target.isVoid || v.type.kind = target.kind then return v
  else
    match v.convert? target with
    | some v => return v
    | none => emit (Build.cast v target loc)

/-- Whether a value is not zero, not empty and not `Nothing`. -/
def toBoolean (v : Value) (loc : Loc) : Lower Value := do
  if v.type.kind = .i1 then return v
  else emit (Build.compare .cmpNe v (← zero v.type) loc)

def toText (v : Value) (loc : Loc) : Lower Value :=
  if v.type.kind = .str then return v
  else runtime "rt_to_string" [v] .string loc

/-! ### Variables -/

def nameOf (p : Place) (x : SymbolId) : Lower String :=
  naming (·.nameOf x (p.tree.symbol x).name)

def readName (name : String) (type : Ty) : Lower Value := do
  return .var name ((← get).names.version name) type

def read (p : Place) (x : SymbolId) : Lower Value := do
  readName (← nameOf p x) (p.typeOfSymbol x)

/-- Gives a value to a new version of a name. The instruction that made the value gives it to the
version itself if it can. -/
def bindName (name : String) (type : Ty) (v : Value) (loc : Loc) : Lower Unit := do
  let version ← naming (·.newVersion name)
  let target := Value.var name version type
  if !(← emit (Build.renameResult v target)) then emit (Build.assign target v loc)

def bind (p : Place) (x : SymbolId) (v : Value) (loc : Loc) : Lower Unit := do
  let type := p.typeOfSymbol x
  let v ← coerce v type loc
  bindName (← nameOf p x) type v loc

def declare (p : Place) (x : SymbolId) : Lower Unit := do
  emit (Build.addLocal { name := ← nameOf p x, type := p.typeOfSymbol x })

/-- Runs a step in a scope of its own: afterwards the variables have their old versions. -/
def inScope {α : Type} (step : Lower α) : Lower α := do
  let current := (← get).names.current
  let a ← step
  modify fun s => { s with names.current := current }
  return a

/-! ### Blocks -/

def newBlock (hint : String) : Lower Nat := do
  emit (Build.addBlock (← naming (·.label hint)))

def continueAt (block : Nat) : Lower Unit :=
  emit (Build.continueAt block)

def labelOf (block : Nat) : Lower String := do
  return ((← get).builder.function.map (·.label block)).getD ""

def isTerminated : Lower Bool := do
  return (← get).builder.isTerminated

def jump (block : Nat) (loc : Loc) : Lower Unit := do
  emit (Build.br (← labelOf block) loc)

/-- Goes on at a block, unless the code before it has gone elsewhere. -/
def jumpIfOpen (block : Nat) (loc : Loc) : Lower Unit := do
  if !(← isTerminated) then jump block loc

def branch (cond : Value) (yes no : Nat) (loc : Loc) : Lower Unit := do
  emit (Build.cbr cond (← labelOf yes) (← labelOf no) loc)

/-- Returns the value that a procedure without a `Return` has. -/
def returnDefault (p : Place) (loc : Loc) : Lower Unit := do
  if p.returnType.isVoid then emit (Build.ret none loc)
  else emit (Build.ret (some (← zero p.returnType)) loc)

end Lower

end BasicSSA
