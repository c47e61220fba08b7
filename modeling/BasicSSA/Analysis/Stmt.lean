import BasicSSA.Analysis.Expr

/-!
# Analysis of statements
-/

namespace BasicSSA.Analyze

def inner (cx : Context) (name : String) (kind : ScopeKind) : Analyze Context := do
  let scope ← openScope cx.scope name kind
  return { cx with scope }

/-- Analyses a condition, which should be a truth value. -/
def condition (cx : Context) (what : String) (e : Expr Note) : Analyze (Expr Note) := do
  let e ← expr cx e
  if e.typeId ≠ .boolean then report (.condition what (← typeText e.typeId)) e.info.loc
  return e

def expr? (cx : Context) : Option (Expr Note) → Analyze (Option (Expr Note))
  | none => return none
  | some e => return some (← expr cx e)

/-! ### Local declarations -/

/-- The type of a variable from what is written, and from the type of its value. -/
def varType (cx : Context) (d : VarDecl Note) (init : Option (Expr Note)) : Analyze TypeId := do
  if d.isAuto then
    match init with
    | none =>
      report (.missingInitializer d.name) d.info.loc
      return .object
    | some e =>
      let c ← types
      if c.isVoid e.typeId || c.shape e.typeId = .null then
        report (.cannotInfer d.name) d.info.loc
        return .object
      else return e.typeId
  else
    let t ← typeOf? cx.scope d.type d.info.loc
    match init with
    | none => return t
    | some e =>
      let c ← types
      if !c.fits t e then report (.initMismatch (c.text e.typeId) (c.text t)) d.info.loc
      return t

/-- Defines a variable after its value has been analysed, so the value cannot use it. -/
def varDecl (cx : Context) (d : VarDecl Note) : Analyze (VarDecl Note) := do
  let init ← expr? cx d.init
  let t ← varType cx d init
  let new ← define cx.scope
    { name := d.name, kind := .variable, type := some t, loc := d.info.loc,
      access := d.modifiers.access, isShared := d.modifiers.isShared }
  match new with
  | none =>
    report (.duplicateInScope "Variable" d.name) d.info.loc d.name.length
    return { d with init }
  | some x =>
    refer d.info.loc d.name.length x
    return { d with init, info := { d.info with symbol := some x } }

/-- Checks the value of a constant, which must have one. -/
def checkConst (d : ConstDecl Note) (t : TypeId) : Option (Expr Note) → Analyze Unit
  | none => report (.missingConstant d.name) d.info.loc
  | some e => do
    let c ← types
    if !c.fits t e then report (.constantMismatch (c.text e.typeId) (c.text t)) d.info.loc

/-- Defines a constant. In a class it is a member too. -/
def constDecl (cx : Context) (d : ConstDecl Note) : Analyze (ConstDecl Note) := do
  let t ← typeOf cx.scope d.type d.info.loc
  let value ← expr? cx d.value
  checkConst d t value
  let new ← define cx.scope { name := d.name, kind := .constant, type := some t, loc := d.info.loc }
  match new with
  | none =>
    report (.duplicateInScope "Constant" d.name) d.info.loc
    return { d with value }
  | some x =>
    let scope := (← tree).scope cx.scope
    addMember (if scope.kind = .cls then scope.classType else none) d.name x
    refer d.info.loc 0 x
    return { d with value, info := { d.info with symbol := some x } }

/-! ### Loops -/

def boundType (what : String) (e : Expr Note) : Analyze TypeId := do
  if e.typeId.isNumeric then return e.typeId
  else
    report (.loopBound what (← typeText e.typeId)) e.info.loc
    return .integer

/-- The variable of a `For` loop: a variable or a parameter that is in scope, or else a new one of
the type of the bounds. -/
def loopVar (cx : Context) (loc : Loc) (name : String) (t : TypeId) :
    Analyze (Option SymbolId) := do
  let s ← get
  let existing := s.tree.find? cx.scope name
  let fresh := define cx.scope { name, kind := .variable, type := some t, loc }
  match existing with
  | none => fresh
  | some id =>
    let x := s.tree.symbol id
    match x.kind with
    | .constant =>
      report (.assignToConstant x.name) loc
      return some id
    | .variable | .parameter =>
      let t := x.type.getD .object
      if !t.isNumeric then report (.loopVariable x.name (s.types.text t)) loc
      return some id
    | _ => fresh

/-- The type of the elements of a collection, if it has elements. -/
def elementOf? (c : Catalog) (t : TypeId) : Option TypeId :=
  match c.shape t with
  | .array element _ => some element
  | .generic [arg] => some arg
  | _ => none

/-- The type that is written for an element, or else the type that it has. -/
def writtenType (cx : Context) (loc : Loc) (written : Option TypeRef) (element : Option TypeId) :
    Analyze TypeId := do
  match written with
  | none => return element.getD .object
  | some r =>
    let t ← typeOf cx.scope r loc
    let c ← types
    match element with
    | none => return t
    | some e =>
      if !c.isAssignable t e then report (.elementMismatch (c.text e) (c.text t)) loc
      return t

def eachType (cx : Context) (loc : Loc) (written : Option TypeRef) (collection : Expr Note) :
    Analyze TypeId := do
  let element := elementOf? (← types) collection.typeId
  if element.isNone then report .notEnumerable collection.info.loc
  writtenType cx loc written element

/-- The loop scopes that an `Exit` may leave. -/
def loopNames : ExitKind → List String
  | .forLoop => ["For", "ForEach"]
  | .doLoop => ["Do"]
  | .whileLoop => ["While"]
  | .sub | .function => []

/-- Whether there is a loop of one of some names around a scope in the same procedure. -/
def isInLoopNamed (t : ScopeTree) (scope : ScopeId) (names : List String) : Bool :=
  ((t.chain scope).findSome? fun s =>
    let s := t.scope s
    if s.kind.isProcedure then some false
    else if s.kind = .loop && names.contains s.name then some true
    else none).getD false

def canExit (t : ScopeTree) (scope : ScopeId) (kind : ExitKind) : Bool :=
  match kind with
  | .sub => (t.procedure? scope).any fun s => (t.scope s).kind = .subroutine
  | .function => (t.procedure? scope).any fun s => (t.scope s).kind = .function
  | _ => isInLoopNamed t scope (loopNames kind)

/-! ### Simple statements -/

def checkReturn (cx : Context) (loc : Loc) (value : Option (Expr Note)) : Analyze Unit := do
  let s ← get
  match s.tree.procedure? cx.scope with
  | none => report .returnOutside loc
  | some scope =>
    let c := s.types
    let expected := (s.tree.scope scope).returnType.getD .object
    match value with
    | some e =>
      if c.isVoid expected then report .returnFromSub loc
      else if !c.fits expected e then
        report (.returnMismatch (c.text e.typeId) (c.text expected)) loc
    | none => if !c.isVoid expected then report (.missingReturn (c.text expected)) loc

def checkStored (loc : Loc) (op : AssignOp) (target value : Expr Note) : Analyze Unit := do
  let c ← types
  if op = .assign then
    if !c.fits target.typeId value then
      report (.assignMismatch (c.text value.typeId) (c.text target.typeId)) loc
  else if !(target.typeId.isNumeric && value.typeId.isNumeric) then
    report (.compoundOperands op.text) loc

/-- Checks an assignment. A name that stands for nothing has been reported already. -/
def checkAssign (loc : Loc) (op : AssignOp) (target value : Expr Note) : Analyze Unit := do
  match ← symbol? target.info.symbol with
  | none =>
    match target with
    | .name .. => return ()
    | _ => checkStored loc op target value
  | some x =>
    match x.kind with
    | .variable | .parameter | .field => checkStored loc op target value
    | .constant =>
      report (.assignToConstant x.name) loc
      checkStored loc op target value
    | kind => report (.assignTo kind.text x.name) loc

def caseValues (cx : Context) (subject : TypeId) :
    List (Expr Note) → Analyze (List (Expr Note))
  | [] => return []
  | e :: es => do
    let e ← expr cx e
    let c ← types
    if !c.areComparable subject e.typeId then
      report (.caseMismatch (c.text e.typeId) (c.text subject)) e.info.loc
    let es ← caseValues cx subject es
    return e :: es

/-! ### Statements -/

mutual

def stmt (cx : Context) : Stmt Note → Analyze (Stmt Note)
  | .ifThen i c b e => do
    let c ← condition cx "Condition" c
    let b ← stmts (← inner cx "block" .block) b
    let e ← elseArms cx e
    return .ifThen i c b e
  | .select i e cs => do
    let e ← expr cx e
    let cs ← cases cx e.typeId cs
    return .select i e cs
  | .forLoop i v a z s b => do
    let a ← expr cx a
    let ta ← boundType "start" a
    let z ← expr cx z
    let tz ← boundType "end" z
    let t := (← types).common ta tz
    let s ← expr? cx s
    let t ← match s with
      | none => pure t
      | some s => do
        let ts ← boundType "step" s
        pure ((← types).common t ts)
    let cx ← inner cx "For" .loop
    let x ← loopVar cx i.loc v t
    let b ← stmts (← inner cx "block" .block) b
    return .forLoop { i with symbol := x } v a z s b
  | .forEach i v r e b => do
    let e ← expr cx e
    let t ← eachType cx i.loc r e
    let cx ← inner cx "ForEach" .loop
    let x ← define cx.scope { name := v, kind := .variable, type := some t, loc := i.loc }
    let b ← stmts (← inner cx "block" .block) b
    return .forEach { i with symbol := x } v r e b
  | .whileLoop i c b => do
    let c ← condition cx "While condition" c
    let cx ← inner cx "While" .loop
    let b ← stmts (← inner cx "block" .block) b
    return .whileLoop i c b
  | .doLoop i none b => do
    let cx ← inner cx "Do" .loop
    let b ← stmts (← inner cx "block" .block) b
    return .doLoop i none b
  | .doLoop i (some t) b => do
    if t.atTop then
      let c ← condition cx "Loop condition" t.cond
      let cx ← inner cx "Do" .loop
      let b ← stmts (← inner cx "block" .block) b
      return .doLoop i (some { t with cond := c }) b
    else
      let inside ← inner cx "Do" .loop
      let b ← stmts (← inner inside "block" .block) b
      let c ← condition cx "Loop condition" t.cond
      return .doLoop i (some { t with cond := c }) b
  | .tryCatch i b cs none => do
    let b ← stmts (← inner cx "block" .block) b
    let cs ← catches cx cs
    return .tryCatch i b cs none
  | .tryCatch i b cs (some l) => do
    let b ← stmts (← inner cx "block" .block) b
    let cs ← catches cx cs
    let l ← stmts (← inner cx "block" .block) l
    return .tryCatch i b cs (some l)
  | .withBlock i e b => do
    let e ← expr cx e
    let cx := { cx with withTypes := e.typeId :: cx.withTypes }
    let b ← stmts (← inner cx "block" .block) b
    return .withBlock i e b
  | .throw i e => do
    let e ← expr? cx e
    return .throw i e
  | .return_ i e => do
    let e ← expr? cx e
    checkReturn cx i.loc e
    return .return_ i e
  | .exit i k => do
    if !canExit (← tree) cx.scope k then report (.exitOutside k.text) i.loc
    return .exit i k
  | .assign i t op v => do
    let t ← expr cx t
    let v ← expr cx v
    checkAssign i.loc op t v
    return .assign i t op v
  | .expr i e => do
    let e ← expr cx e
    return .expr i e
  | .var d => do
    let d ← varDecl cx d
    return .var d
  | .const d => do
    let d ← constDecl cx d
    return .const d

def stmts (cx : Context) : List (Stmt Note) → Analyze (List (Stmt Note))
  | [] => return []
  | s :: ss => do
    let s ← stmt cx s
    let ss ← stmts cx ss
    return s :: ss

def elseArms (cx : Context) : Else Note → Analyze (Else Note)
  | .nothing => return .nothing
  | .block b => do
    let b ← stmts (← inner cx "block" .block) b
    return .block b
  | .elseIf i c b e => do
    let c ← condition cx "ElseIf condition" c
    let b ← stmts (← inner cx "block" .block) b
    let e ← elseArms cx e
    return .elseIf i c b e

def cases (cx : Context) (subject : TypeId) : List (Case Note) → Analyze (List (Case Note))
  | [] => return []
  | .values i vs b :: cs => do
    let vs ← caseValues cx subject vs
    let b ← stmts (← inner cx "block" .block) b
    let cs ← cases cx subject cs
    return .values i vs b :: cs
  | .otherwise i b :: cs => do
    let b ← stmts (← inner cx "block" .block) b
    let cs ← cases cx subject cs
    return .otherwise i b :: cs

def catches (cx : Context) : List (Catch Note) → Analyze (List (Catch Note))
  | [] => return []
  | .mk i none r b :: cs => do
    let inside ← inner cx "catch" .block
    let b ← stmts (← inner inside "block" .block) b
    let cs ← catches cx cs
    return .mk { i with symbol := none } none r b :: cs
  | .mk i (some v) r b :: cs => do
    let inside ← inner cx "catch" .block
    let t ← typeOf? inside.scope r i.loc
    let x ← define inside.scope { name := v, kind := .variable, type := some t, loc := i.loc }
    let b ← stmts (← inner inside "block" .block) b
    let cs ← catches cx cs
    return .mk { i with symbol := x } (some v) r b :: cs

end

def block (cx : Context) (b : List (Stmt Note)) : Analyze (List (Stmt Note)) := do
  stmts (← inner cx "block" .block) b

end BasicSSA.Analyze
