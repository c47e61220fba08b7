import BasicSSA.Lower.Expr

/-!
# Lowering of statements

A statement goes on at the end of the current block. Statements after a jump are left out.
-/

namespace BasicSSA.Lower

open IL (Value Ty Opcode Build)

/-! ### Simple statements -/

/-- The number of elements of an array with some dimensions, as a product in 64 bits; 0 if a
dimension is not known. -/
def elementCount (dims : List (Option Nat)) : Int64 :=
  dims.foldl (fun n dim => n * .ofNat (dim.getD 0)) 1

/-- The value of a variable that is declared without one: a new array where its size is written, a
new object of a structure, or else the default of the type. -/
def freshValue (p : Place) (d : VarDecl Note) (x : SymbolId) : Lower Value := do
  let s := p.tree.symbol x
  let type := p.typeOfSymbol x
  if d.dims.isEmpty then
    match s.type.map p.types.shape with
    | some (.struct) | some (.record) =>
      emit (Build.newObject type (s.type.elim "" p.types.name) [] d.info.loc)
    | _ => zero type
  else if 0 < elementCount d.dims then
    runtime "rt_array_new" [.long (elementCount d.dims)] type d.info.loc
  else return .null type

def varDecl (p : Place) (d : VarDecl Note) : Lower Unit := do
  match d.info.symbol with
  | none => throw (.notAnalyzed ("local '" ++ d.name ++ "'"))
  | some x =>
    declare p x
    let v ← match d.init with
      | some e => expr p e
      | none => freshValue p d x
    bind p x v d.info.loc

def constDecl (p : Place) (d : ConstDecl Note) : Lower Unit := do
  match d.info.symbol, d.value with
  | some x, some e =>
    declare p x
    let v ← expr p e
    bind p x v d.info.loc
  | _, _ => throw (.notAnalyzed ("constant '" ++ d.name ++ "'"))

/-- The operator of a compound assignment. What is added to a text is appended. -/
def compoundOp? (type : Ty) : AssignOp → Option BinaryOp
  | .assign => none
  | .add => some (if type.kind = .str then .concat else .add)
  | .sub => some .sub
  | .mul => some .mul
  | .div => some .div

/-- An assignment. The value comes before the target. -/
def assignStmt (p : Place) (loc : Loc) (target : Expr Note) (op : AssignOp) (e : Expr Note) :
    Lower Unit := do
  let v ← expr p e
  let type := p.typeOf target.info
  match compoundOp? type op with
  | none => assign p target v loc
  | some op =>
    let current ← expr p target
    let v ← arith op current v type loc
    assign p target v loc

def returnStmt (p : Place) (loc : Loc) : Option (Expr Note) → Lower Unit
  | none => returnDefault p loc
  | some e => do
    let v ← expr p e
    let v ← coerce v p.returnType loc
    emit (Build.ret (some v) loc)

def exitStmt (p : Place) (loc : Loc) (kind : ExitKind) : Lower Unit :=
  match kind with
  | .sub | .function => returnDefault p loc
  | kind =>
    match p.loops.innermost? kind with
    | some loop => jump loop.leave loc
    | none => throw (.outsideLoop kind)

def throwStmt (p : Place) (loc : Loc) (value : Option (Expr Note)) : Lower Unit := do
  let args ← match value with
    | some e => pure [← expr p e]
    | none => pure []
  let _ ← emit (Build.call "__throw" args {} loc)

/-! ### Arms -/

/-- Lowers statements into a block, which then goes on at another one. -/
def arm (block next : Nat) (loc : Loc) (body : Lower Unit) : Lower Unit := do
  continueAt block
  inScope body
  jumpIfOpen next loc

/-- The block for what follows an arm of an `If`, if anything does. -/
def elseBlock (hint : String) (e : Else Note) : Lower (Option Nat) := do
  let label ← naming (·.label hint)
  if e.isNothing then return none else return some (← emit (Build.addBlock label))

def newBlocks : List String → Lower (List Nat)
  | [] => return []
  | hint :: hints => do
    let block ← newBlock hint
    return block :: (← newBlocks hints)

def condition (p : Place) (e : Expr Note) (loc : Loc) : Lower Value := do
  toBoolean (← expr p e) loc

/-! ### Loops -/

def readCounter (p : Place) (loc : Loc) (x : SymbolId) : Lower Value := do
  match p.globals.lookup x with
  | some name => emit (Build.load (p.typeOfSymbol x) (.global name (p.typeOfSymbol x)) loc)
  | none => read p x

def writeCounter (p : Place) (loc : Loc) (x : SymbolId) (v : Value) : Lower Unit :=
  match p.globals.lookup x with
  | some name => storeGlobal p name x v loc
  | none => bind p x v loc

/-- Declares the variable of a `For` loop, unless it exists already. -/
def declareCounter (p : Place) (x : SymbolId) : Lower Unit := do
  let isNamed := ((← get).names.varNames.lookup x).isSome
  if (p.globals.lookup x).isNone && !isNamed then declare p x

/-- Gives the variable of a `For` loop its first value. The bounds are computed once: gives the last
value and the step. -/
def forStart (p : Place) (loc : Loc) (x : SymbolId) (start stop : Expr Note)
    (step : Option (Expr Note)) : Lower (Value × Value) := do
  let type := p.typeOfSymbol x
  declareCounter p x
  writeCounter p loc x (← expr p start)
  let last ← coerce (← expr p stop) type stop.info.loc
  let step ← match step with
    | some e => coerce (← expr p e) type e.info.loc
    | none => pure type.one
  return (last, step)

def forTest (p : Place) (loc : Loc) (x : SymbolId) (last step : Value) : Lower Value := do
  let counter ← readCounter p loc x
  let test : Opcode := if step.isNegativeConstant then .cmpGe else .cmpLe
  emit (Build.compare test counter last loc)

def forNext (p : Place) (loc : Loc) (x : SymbolId) (step : Value) : Lower Unit := do
  let counter ← readCounter p loc x
  let next ← emit (Build.binary .add (p.typeOfSymbol x) counter step loc)
  writeCounter p loc x next

/-- What a `For Each` loop goes over: the collection, its length and the name of the index. -/
structure Elements where
  collection : Value
  length : Value
  index : String

/-- The start of a `For Each` loop: the index is before the first element. -/
def eachStart (p : Place) (loc : Loc) (x : SymbolId) (e : Expr Note) : Lower Elements := do
  declare p x
  let collection ← expr p e
  let length ← runtime "rt_array_len" [collection] .long loc
  let index ← naming (·.fresh "__idx")
  emit (Build.addLocal { name := index, type := .long })
  bindName index .long (.int 0 .long) loc
  return { collection, length, index }

def eachTest (loc : Loc) (es : Elements) : Lower Value := do
  let i ← readName es.index .long
  emit (Build.compare .cmpLt i es.length loc)

/-- Gives the variable of a `For Each` loop its element. -/
def eachElement (p : Place) (loc : Loc) (x : SymbolId) (es : Elements) : Lower Unit := do
  let type := p.typeOfSymbol x
  let i ← readName es.index .long
  let address ← emit (Build.gep type es.collection [i] loc)
  let v ← emit (Build.load type address loc)
  bind p x v loc

def eachNext (loc : Loc) (es : Elements) : Lower Unit := do
  let i ← readName es.index .long
  let next ← emit (Build.binary .add .long i (.int 1 .long) loc)
  bindName es.index .long next loc

/-- A loop that counts: a test, the body and a step to the next round. The body is told how to leave
the loop. -/
def countedLoop (hint : String) (loc : Loc) (test : Lower Value) (next : Lower Unit)
    (body : LoopFrame → Lower Unit) : Lower Unit := do
  let cond ← newBlock (hint ++ ".cond")
  let inside ← newBlock (hint ++ ".body")
  let step ← newBlock (hint ++ ".inc")
  let leave ← newBlock (hint ++ ".end")
  jump cond loc
  continueAt cond
  branch (← test) inside leave loc
  arm inside step loc (body { kind := .forLoop, leave, next := step })
  continueAt step
  next
  jump cond loc
  continueAt leave

def loopTest (p : Place) (loc : Loc) (cond body leave : Nat) : Option (LoopTest Note) → Lower Unit
  | none => do
    continueAt cond
    jump body loc
  | some t => do
    continueAt cond
    let v ← condition p t.cond t.cond.info.loc
    if t.isWhile then branch v body leave loc else branch v leave body loc

/-- A loop that goes on as long as its test says so. The body is told how to leave the loop. -/
def testedLoop (hint : String) (kind : ExitKind) (p : Place) (loc : Loc)
    (test : Option (LoopTest Note)) (body : LoopFrame → Lower Unit) : Lower Unit := do
  let cond ← newBlock (hint ++ ".cond")
  let inside ← newBlock (hint ++ ".body")
  let leave ← newBlock (hint ++ ".end")
  let atTop := test.all (·.atTop)
  jump (if atTop then cond else inside) loc
  if atTop then loopTest p loc cond inside leave test
  arm inside cond loc (body { kind, leave, next := cond })
  if !atTop then loopTest p loc cond inside leave test
  continueAt leave

/-! ### Select -/

/-- What the block of an arm of a `Select` is named after. -/
def caseHint : Case Note → String
  | .values .. => "select.case"
  | .otherwise .. => "select.default"

/-- The block of the last `Case Else`. -/
def defaultBlock? : List (Case Note) → List Nat → Option Nat
  | .otherwise .. :: cs, block :: blocks => defaultBlock? cs blocks <|> some block
  | .values .. :: cs, _ :: blocks => defaultBlock? cs blocks
  | _, _ => none

def caseTests : List (Case Note) → List Nat → List (Expr Note × Nat)
  | .otherwise .. :: cs, _ :: blocks => caseTests cs blocks
  | .values _ vs _ :: cs, block :: blocks => vs.map ((·, block)) ++ caseTests cs blocks
  | _, _ => []

def caseTest (p : Place) (subject : Value) (e : Expr Note) : Lower Value := do
  let v ← coerce (← expr p e) subject.type e.info.loc
  emit (Build.compare .cmpEq subject v e.info.loc)

def selectTests (p : Place) (subject : Value) (miss : Nat) : List (Expr Note × Nat) → Lower Unit
  | [] => return ()
  | (e, block) :: rest => do
    let hit ← caseTest p subject e
    if rest.isEmpty then branch hit block miss e.info.loc
    else
      let next ← newBlock "select.test"
      branch hit block next e.info.loc
      continueAt next
    selectTests p subject miss rest

/-! ### Try -/

/-- Declares the variable of a `Catch`. It holds the default of its type, since nothing is ever
caught. -/
def catchVar (p : Place) (i : Note) : Lower Unit := do
  match i.symbol with
  | none => return ()
  | some x =>
    declare p x
    bind p x (← zero (p.typeOfSymbol x)) i.loc

/-! ### All statements -/

mutual

def stmt (p : Place) : Stmt Note → Lower Unit
  | .ifThen i c b e => do
    let v ← condition p c i.loc
    let yes ← newBlock "if.then"
    let no ← elseBlock "if.else" e
    let leave ← newBlock "if.end"
    branch v yes (no.getD leave) i.loc
    arm yes leave i.loc (stmts p b)
    elseArms p i.loc leave (no.getD leave) e
    continueAt leave
  | .select i e cs => do
    let subject ← expr p e
    let blocks ← newBlocks (cs.map caseHint)
    let leave ← newBlock "select.end"
    let miss := (defaultBlock? cs blocks).getD leave
    let tests := caseTests cs blocks
    if tests.isEmpty then jump miss i.loc
    selectTests p subject miss tests
    caseBodies p leave blocks cs
    continueAt leave
  | .forLoop i v a z s b => do
    match i.symbol with
    | none => throw (.notAnalyzed ("loop variable '" ++ v ++ "'"))
    | some x =>
      let (last, step) ← forStart p i.loc x a z s
      countedLoop "for" i.loc (forTest p i.loc x last step) (forNext p i.loc x step) fun frame =>
        stmts { p with loops := frame :: p.loops } b
  | .forEach i v _ e b => do
    match i.symbol with
    | none => throw (.notAnalyzed ("loop variable '" ++ v ++ "'"))
    | some x =>
      let es ← eachStart p i.loc x e
      countedLoop "foreach" i.loc (eachTest i.loc es) (eachNext i.loc es) fun frame => do
        eachElement p i.loc x es
        stmts { p with loops := frame :: p.loops } b
  | .whileLoop i c b =>
    testedLoop "while" .whileLoop p i.loc (some { cond := c, isWhile := true, atTop := true })
      fun frame => stmts { p with loops := frame :: p.loops } b
  | .doLoop i t b =>
    testedLoop "do" .doLoop p i.loc t fun frame => stmts { p with loops := frame :: p.loops } b
  | .tryCatch i b cs last => do
    let body ← newBlock "try.body"
    let blocks ← newBlocks (cs.map fun _ => "catch.body")
    let finals ← newBlocks (last.toList.map fun _ => "finally.body")
    let leave ← newBlock "try.end"
    let next := finals.headD leave
    jump body i.loc
    arm body next i.loc (stmts p b)
    catchBodies p next blocks cs
    finallyBody p i.loc leave next last
    continueAt leave
  | .withBlock _ e b => do
    let v ← expr p e
    inScope (stmts { p with withValues := v :: p.withValues } b)
  | .throw i e => throwStmt p i.loc e
  | .return_ i e => returnStmt p i.loc e
  | .exit i kind => exitStmt p i.loc kind
  | .assign i target op e => assignStmt p i.loc target op e
  | .expr _ e => exprStmt p e
  | .var d => varDecl p d
  | .const d => constDecl p d

/-- Lowers statements in order, up to a jump. -/
def stmts (p : Place) : List (Stmt Note) → Lower Unit
  | [] => return ()
  | s :: ss => do
    if ← isTerminated then return ()
    else
      stmt p s
      stmts p ss

def elseArms (p : Place) (loc : Loc) (leave block : Nat) : Else Note → Lower Unit
  | .nothing => return ()
  | .block b => arm block leave loc (stmts p b)
  | .elseIf i c b e => do
    continueAt block
    let v ← condition p c i.loc
    let yes ← newBlock "elseif.then"
    let no ← elseBlock "elseif.else" e
    branch v yes (no.getD leave) i.loc
    arm yes leave i.loc (stmts p b)
    elseArms p loc leave (no.getD leave) e

def caseBodies (p : Place) (leave : Nat) (blocks : List Nat) : List (Case Note) → Lower Unit
  | [] => return ()
  | .values i _ b :: cs => do
    arm (blocks.headD leave) leave i.loc (stmts p b)
    caseBodies p leave blocks.tail cs
  | .otherwise i b :: cs => do
    arm (blocks.headD leave) leave i.loc (stmts p b)
    caseBodies p leave blocks.tail cs

def catchBodies (p : Place) (leave : Nat) (blocks : List Nat) : List (Catch Note) → Lower Unit
  | [] => return ()
  | .mk i _ _ b :: cs => do
    arm (blocks.headD leave) leave i.loc do
      catchVar p i
      stmts p b
    catchBodies p leave blocks.tail cs

def finallyBody (p : Place) (loc : Loc) (leave block : Nat) : Option (List (Stmt Note)) → Lower Unit
  | none => return ()
  | some l => arm block leave loc (stmts p l)

end

end BasicSSA.Lower
