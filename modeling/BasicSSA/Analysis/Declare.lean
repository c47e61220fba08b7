import BasicSSA.Analysis.Stmt

/-!
# Analysis of declarations

Names may be used before they are declared, so declarations are visited three times: first the types
and the scopes of their members are made, then the bases, the fields and the signatures, and last
the bodies.
-/

namespace BasicSSA

/-- A scope that an earlier visit should have opened is missing. -/
structure MissingScope where
  name : String
  deriving DecidableEq, Repr

abbrev Declare := ExceptT MissingScope Analyze

namespace Analyze

/-! ### Types -/

/-- Defines type parameters in a scope; a repeated one is left out. -/
def typeParams (scope : ScopeId) (loc : Loc) : List String → Analyze Unit
  | [] => return ()
  | name :: rest => do
    if ((← tree).findLocal? scope name).isNone then
      let t ← withTypes (·.parameter name)
      let _ ← define scope { name, kind := .typeParameter, type := some t, loc }
    typeParams scope loc rest

/-- Opens the scope of a namespace or a module. A namespace may be opened again. -/
def container (scope : ScopeId) (i : Note) (name : String) (kind : SymbolKind)
    (scopeKind : ScopeKind) (what : String) : Declare Note := do
  let t ← tree
  let again := (t.findLocal? scope name).filter fun x =>
    kind = .nspace && (t.symbol x).kind = .nspace
  match again with
  | some x =>
    match (t.symbol x).inner with
    | none => throw ⟨name⟩
    | some s =>
      refer i.loc 0 x
      return { i with scope := some s, symbol := some x }
  | none =>
    let s ← openScope scope name scopeKind
    match ← define scope { name, kind, loc := i.loc, inner := some s } with
    | none =>
      report (.duplicateInScope what name) i.loc
      return { i with scope := some s }
    | some x =>
      refer i.loc 0 x
      return { i with scope := some s, symbol := some x }

/-- Defines a named type and its symbol; none if one of them exists. -/
def typeSymbol (scope : ScopeId) (i : Note) (x : Symbol) (kind : TypeKind) (what : String) :
    Analyze (Option (TypeId × Note)) := do
  match (← types).define x.name kind with
  | none =>
    report (.duplicate what x.name) i.loc
    return none
  | some (types, t) =>
    write fun s => { s with types }
    match ← define scope { x with type := some t, loc := i.loc } with
    | none =>
      report (.duplicateInScope "Symbol" x.name) i.loc
      return none
    | some x =>
      write fun s => { s with typeSymbols := (t, x) :: s.typeSymbols }
      refer i.loc 0 x
      return some (t, { i with symbol := some x })

/-- Defines a type with members and opens their scope. -/
def typeWithMembers (scope : ScopeId) (i : Note) (x : Symbol) (kind : TypeKind)
    (scopeKind : ScopeKind) (what : String) : Analyze Note := do
  match ← typeSymbol scope i x kind what with
  | none => return i
  | some (t, i) =>
    let s ← openScope scope x.name scopeKind
    modifyScope s fun p => { p with classType := some t }
    typeParams s i.loc x.typeParams
    return { i with scope := some s }

mutual

def typeDecl (scope : ScopeId) : Decl Note → Declare (Decl Note)
  | .nspace i n ds => do
    let i ← container scope i n .nspace .nspace "Namespace"
    let ds ← typeDecls (i.scope.getD scope) ds
    return .nspace i n ds
  | .module i n ds => do
    let i ← container scope i n .module .module "Module"
    let ds ← typeDecls (i.scope.getD scope) ds
    return .module i n ds
  | .cls i h ds => do
    let x : Symbol := { name := h.name, kind := .cls, typeParams := h.typeParams }
    let i ← typeWithMembers scope i x .cls .cls "Class"
    return .cls i h ds
  | .interface i n ps => do
    let i ← typeWithMembers scope i { name := n, kind := .interface } .interface .interface
      "Interface"
    return .interface i n ps
  | .record i .type n vs => do
    let i ← typeWithMembers scope i { name := n, kind := .type } .record .cls "Type"
    return .record i .type n vs
  | .record i .struct n vs => do
    let i ← typeWithMembers scope i { name := n, kind := .struct } .struct .cls "Structure"
    return .record i .struct n vs
  | .delegate d => do
    match ← typeSymbol scope d.info { name := d.name, kind := .delegate } .delegate "Delegate" with
    | none => return .delegate d
    | some (_, info) => return .delegate { d with info }
  | .template i d => do
    let d ← typeDecl scope d
    return .template i d
  | d => return d

def typeDecls (scope : ScopeId) : List (Decl Note) → Declare (List (Decl Note))
  | [] => return []
  | d :: ds => do
    let d ← typeDecl scope d
    let ds ← typeDecls scope ds
    return d :: ds

end

/-! ### Members and signatures -/

def paramDecls (scope : ScopeId) : List (Param Note) → Analyze (List ParamInfo)
  | [] => return []
  | p :: ps => do
    let t ← typeOf scope p.type p.loc
    match ← define scope { name := p.name, kind := .parameter, type := some t, loc := p.loc } with
    | none => report (.duplicate "Parameter" p.name) p.loc p.name.length
    | some x => refer p.loc p.name.length x
    let infos ← paramDecls scope ps
    return { name := p.name, type := some t, isOptional := p.isOptional } :: infos

def procedureScope (scope : ScopeId) (p : Procedure Note) :
    Analyze (ScopeId × TypeId × List ParamInfo) := do
  let loc := p.info.loc
  let s ← openScope scope p.name (if p.isFunction then .function else .subroutine)
  typeParams s loc p.typeParams
  let t ← if p.isFunction then typeOf? s p.returnType loc else pure .void
  let params ← paramDecls s p.params
  return (s, t, params)

/-- Declares a procedure: opens its scope and defines its symbol, which is a member of the type it
belongs to. -/
def procedure (scope : ScopeId) (owner : Option TypeId) (p : Procedure Note) :
    Analyze (Procedure Note) := do
  let loc := p.info.loc
  let (s, t, params) ← procedureScope scope p
  modifyScope s fun s => { s with returnType := some t }
  let new ← define scope
    { name := p.name, kind := if p.isFunction then .function else .subroutine, type := some t,
      returnType := some t, params, typeParams := p.typeParams, loc, access := p.modifiers.access,
      isShared := p.modifiers.isShared }
  match new with
  | none =>
    report (.duplicateInScope (if p.isFunction then "Function" else "Subroutine") p.name) loc
    return { p with info := { p.info with scope := some s } }
  | some x =>
    addMember owner p.name x
    refer loc 0 x
    if p.body.isSome then write fun s => { s with functions := s.functions ++ [x] }
    return { p with info := { p.info with scope := some s, symbol := some x } }

def procedures (scope : ScopeId) (owner : Option TypeId) :
    List (Procedure Note) → Analyze (List (Procedure Note))
  | [] => return []
  | p :: ps => do
    let p ← procedure scope owner p
    let ps ← procedures scope owner ps
    return p :: ps

def field (scope : ScopeId) (owner : Option TypeId) (d : VarDecl Note) :
    Analyze (VarDecl Note) := do
  let t ← typeOf? scope d.type d.info.loc
  let new ← define scope
    { name := d.name, kind := .field, type := some t, loc := d.info.loc,
      access := d.modifiers.access, isShared := d.modifiers.isShared }
  match new with
  | none =>
    report (.duplicateInScope "Member" d.name) d.info.loc d.name.length
    return d
  | some x =>
    addMember owner d.name x
    refer d.info.loc d.name.length x
    return { d with info := { d.info with symbol := some x } }

def fields (scope : ScopeId) (owner : Option TypeId) :
    List (VarDecl Note) → Analyze (List (VarDecl Note))
  | [] => return []
  | d :: ds => do
    let d ← field scope owner d
    let ds ← fields scope owner ds
    return d :: ds

/-- Sets the base of a class, unless that would make a cycle. -/
def baseClass (loc : Loc) (h : ClassHead) (t : TypeId) : Analyze Unit := do
  let c ← types
  if h.base.isEmpty then return ()
  match c.find? (lastSegment h.base) with
  | none => report (.unknownBase h.base) loc
  | some base =>
    if c.shape base ≠ .cls then report (.notClass h.base) loc
    else if (c.bases base).contains t then report (.selfInheritance h.name) loc
    else write fun s => { s with types := s.types.setBase t base }

def interfaces (loc : Loc) (t : TypeId) : List String → Analyze Unit
  | [] => return ()
  | name :: rest => do
    let c ← types
    match c.find? (lastSegment name) with
    | none => report (.unknownInterface name) loc
    | some interface =>
      if c.shape interface ≠ .interface then report (.notInterface name) loc
      else write fun s => { s with types := s.types.addInterface t interface }
    interfaces loc t rest

def classMember (scope : ScopeId) (owner : Option TypeId) : Decl Note → Analyze (Decl Note)
  | .proc p => return .proc (← procedure scope owner p)
  | .template i (.proc p) => return .template i (.proc (← procedure scope owner p))
  | .var d => return .var (← field scope owner d)
  | d => return d

def classMembers (scope : ScopeId) (owner : Option TypeId) :
    List (Decl Note) → Analyze (List (Decl Note))
  | [] => return []
  | d :: ds => do
    let d ← classMember scope owner d
    let ds ← classMembers scope owner ds
    return d :: ds

/-- Gives the symbol of a delegate its parameters and the type it returns. -/
def delegate (scope : ScopeId) (d : DelegateDecl Note) (x : SymbolId) : Analyze Unit := do
  let params ← d.params.mapM fun p => do
    let t ← typeOf scope p.type p.loc
    return ({ name := p.name, type := some t, isOptional := p.isOptional } : ParamInfo)
  let t ← if d.isFunction then typeOf? scope d.returnType d.info.loc else pure .void
  write fun s => { s with
    tree := s.tree.modifySymbol x fun x => { x with params, returnType := some t } }

/-- Defines the aliases among some declarations. They come before all other members. -/
def aliases (scope : ScopeId) : List (Decl Note) → Analyze Unit
  | [] => return ()
  | .typeDefine i name r :: ds => do
    let t ← typeOf scope r i.loc
    match (← types).defineAlias name t with
    | none => report (.duplicate "Type alias" name) i.loc
    | some types => write fun s => { s with types }
    aliases scope ds
  | _ :: ds => aliases scope ds

mutual

def memberDecl (scope : ScopeId) : Decl Note → Declare (Decl Note)
  | .nspace i n ds => do
    match i.scope with
    | none => throw ⟨n⟩
    | some s =>
      aliases s ds
      let ds ← memberDecls s ds
      return .nspace i n ds
  | .module i n ds => do
    match i.scope with
    | none => throw ⟨n⟩
    | some s =>
      aliases s ds
      let ds ← memberDecls s ds
      return .module i n ds
  | .cls i h ds => do
    match i.scope with
    | none => return .cls i h ds
    | some s =>
      let owner := ((← tree).scope s).classType
      if let some t := owner then
        baseClass i.loc h t
        interfaces i.loc t h.interfaces
      return .cls i h (← classMembers s owner ds)
  | .interface i n ps => do
    match i.scope with
    | none => return .interface i n ps
    | some s => return .interface i n (← procedures s ((← tree).scope s).classType ps)
  | .record i k n vs => do
    match i.scope with
    | none => return .record i k n vs
    | some s => return .record i k n (← fields s ((← tree).scope s).classType vs)
  | .delegate d => do
    if let some x := d.info.symbol then delegate scope d x
    return .delegate d
  | .proc p => return .proc (← procedure scope none p)
  | .template i d => do
    let d ← memberDecl scope d
    return .template i d
  | .extension i t p => do
    if ((← types).find? (lastSegment t)).isNone then report (.unknownExtended t) i.loc
    return .extension i t (← procedure scope none p)
  | d => return d

def memberDecls (scope : ScopeId) : List (Decl Note) → Declare (List (Decl Note))
  | [] => return []
  | d :: ds => do
    let d ← memberDecl scope d
    let ds ← memberDecls scope ds
    return d :: ds

end

/-! ### Bodies -/

def paramDefault (cx : Context) (p : Param Note) : Analyze (Param Note) := do
  match p.default with
  | none => return p
  | some e =>
    let e ← expr cx e
    let s ← get
    match (s.tree.findLocal? cx.scope p.name).map s.tree.symbol with
    | none => return { p with default := some e }
    | some x =>
      let t := x.type.getD .object
      if x.kind = .parameter && !s.types.fits t e then
        report (.defaultMismatch (s.types.text e.typeId) (s.types.text t)) p.loc
      return { p with default := some e }

def procedureBody (p : Procedure Note) : Analyze (Procedure Note) := do
  match p.body, p.info.scope with
  | some body, some scope =>
    let cx : Context := { scope }
    let params ← p.params.mapM (paramDefault cx)
    let body ← block cx body
    return { p with params, body := some body }
  | _, _ => return p

def fieldInit (cx : Context) (d : VarDecl Note) : Analyze (VarDecl Note) := do
  match d.init, ← symbol? d.info.symbol with
  | some e, some x =>
    let e ← expr cx e
    let c ← types
    let t := x.type.getD .object
    if !c.fits t e then report (.initMismatch (c.text e.typeId) (c.text t)) d.info.loc
    return { d with init := some e }
  | _, _ => return d

mutual

/-- Analyses the bodies of a declaration. A variable or a constant is defined now, so only what
follows can use it. -/
def bodyDecl (cx : Context) : Decl Note → Analyze (Decl Note)
  | .nspace i n ds =>
    match i.scope with
    | none => return .nspace i n ds
    | some scope => do
      let ds ← bodyDecls { scope } ds
      return .nspace i n ds
  | .module i n ds =>
    match i.scope with
    | none => return .module i n ds
    | some scope => do
      let ds ← bodyDecls { scope } ds
      return .module i n ds
  | .cls i h ds =>
    match i.scope with
    | none => return .cls i h ds
    | some scope => do
      let ds ← classBodies { scope } ds
      return .cls i h ds
  | .proc p => return .proc (← procedureBody p)
  | .var d => return .var (← varDecl cx d)
  | .const d => return .const (← constDecl cx d)
  | .template i d => do
    let d ← bodyDecl cx d
    return .template i d
  | .extension i t p => return .extension i t (← procedureBody p)
  | d => return d

def bodyDecls (cx : Context) : List (Decl Note) → Analyze (List (Decl Note))
  | [] => return []
  | d :: ds => do
    let d ← bodyDecl cx d
    let ds ← bodyDecls cx ds
    return d :: ds

/-- The fields of a class are defined already; only their values remain. -/
def classBodies (cx : Context) : List (Decl Note) → Analyze (List (Decl Note))
  | [] => return []
  | .var d :: ds => do
    let d ← fieldInit cx d
    let ds ← classBodies cx ds
    return .var d :: ds
  | d :: ds => do
    let d ← bodyDecl cx d
    let ds ← classBodies cx ds
    return d :: ds

end

def program (p : Program Note) : Declare (Program Note) := do
  let p ← typeDecls ScopeTree.root p
  aliases ScopeTree.root p
  let p ← memberDecls ScopeTree.root p
  bodyDecls { scope := ScopeTree.root } p

end Analyze

/-- A program after analysis, with all that was collected. -/
structure Analysis extends AnalysisState where
  program : Program Note

def analyze (p : Program Loc) : Analysis :=
  let noted : Program Note := p.map ({ loc := · })
  match (Analyze.program noted).run.run {} with
  | (.ok program, state) => { state with program }
  | (.error fault, state) =>
    let finding : Finding := { problem := .internal ("no scope for " ++ fault.name), loc := {} }
    { state with program := noted, findings := state.findings ++ [finding] }

namespace Analysis

def isAccepted (a : Analysis) : Bool :=
  !a.findings.any Finding.isError

def log (a : Analysis) : Log :=
  { entries := (a.findings.map Finding.diagnostic).toArray }

/-- The symbol that is named at a position. -/
def symbolAt? (a : Analysis) (line column : Nat) : Option SymbolId :=
  (a.references.find? (·.covers line column)).map (·.symbol)

end Analysis

end BasicSSA
