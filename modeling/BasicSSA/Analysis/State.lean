import BasicSSA.Analysis.Problem
import BasicSSA.Builtin
import BasicSSA.Types.Conversion

/-!
# The state of analysis

Analysis collects types, scopes, symbols and problems, and writes what it learns about a node of the
syntax tree into the node.
-/

namespace BasicSSA

structure Note where
  loc : Loc
  /-- The type of an expression. -/
  type : Option TypeId := none
  /-- The symbol that an expression stands for, or that a declaration or a loop defines. -/
  symbol : Option SymbolId := none
  scope : Option ScopeId := none
  deriving Inhabited, DecidableEq, Repr

/-- A place in the source that names a symbol. -/
structure Reference where
  loc : Loc
  length : Nat
  symbol : SymbolId
  deriving DecidableEq, Repr

/-- Whether a position lies on a reference, which is at least one character wide. -/
def Reference.covers (r : Reference) (line column : Nat) : Bool :=
  r.loc.line = line && r.loc.column ≤ column && column < r.loc.column + max r.length 1

/-- What analysis has collected at a moment. -/
structure Snapshot where
  types : Catalog := .initial
  tree : ScopeTree := Builtin.register .initial .initial ScopeTree.root
  typeSymbols : List (TypeId × SymbolId) := []
  /-- The procedures with a body, in the order of their declarations. -/
  functions : List SymbolId := []
  references : List Reference := []
  findings : List Finding := []
  deriving Inhabited, Repr

/-- What analysis has collected so far, and what it had collected before each change of it. -/
structure AnalysisState extends Snapshot where
  /-- The last one comes first. -/
  past : List Snapshot := []
  deriving Inhabited, Repr

def AnalysisState.next (s : AnalysisState) (q : Snapshot) : AnalysisState :=
  { toSnapshot := q, past := s.toSnapshot :: s.past }

def AnalysisState.setTypes (s : AnalysisState) (types : Catalog) : AnalysisState :=
  s.next { s.toSnapshot with types }

def AnalysisState.setTree (s : AnalysisState) (tree : ScopeTree) : AnalysisState :=
  s.next { s.toSnapshot with tree }

abbrev Analyze := StateM AnalysisState

namespace Analyze

/-- Every change of what is collected leaves its trace. -/
def write (f : Snapshot → Snapshot) : Analyze Unit :=
  modify fun s => s.next (f s.toSnapshot)

def report (problem : Problem) (loc : Loc) (length : Nat := 0) : Analyze Unit :=
  write fun s => { s with findings := s.findings ++ [{ problem, loc, length }] }

def reportAll (problems : List Problem) (loc : Loc) : Analyze Unit :=
  write fun s => { s with findings := s.findings ++ problems.map ({ problem := ·, loc }) }

def refer (loc : Loc) (length : Nat) (symbol : SymbolId) : Analyze Unit :=
  if loc.hasLine then
    write fun s => { s with references := s.references ++ [{ loc, length, symbol }] }
  else return ()

def types : Analyze Catalog := do
  return (← get).types

def typeText (t : TypeId) : Analyze String := do
  return (← get).types.text t

def tree : Analyze ScopeTree := do
  return (← get).tree

def symbol (x : SymbolId) : Analyze Symbol := do
  return (← get).tree.symbol x

def symbol? : Option SymbolId → Analyze (Option Symbol)
  | none => return none
  | some x => return some (← symbol x)

def openScope (outer : ScopeId) (name : String) (kind : ScopeKind) : Analyze ScopeId :=
  modifyGet fun s =>
    let (tree, new) := s.tree.child outer name kind
    (new, s.setTree tree)

def modifyScope (scope : ScopeId) (f : Scope → Scope) : Analyze Unit :=
  write fun s => { s with tree := s.tree.modifyScope scope f }

/-- Defines a symbol in a scope; none if the scope has one of that name. -/
def define (scope : ScopeId) (x : Symbol) : Analyze (Option SymbolId) :=
  modifyGet fun s =>
    match s.tree.define scope x with
    | none => (none, s)
    | some (tree, new) => (some new, s.setTree tree)

def withTypes {α : Type} (f : Catalog → Catalog × α) : Analyze α :=
  modifyGet fun s =>
    let (types, a) := f s.types
    (a, s.setTypes types)

def addMember (owner : Option TypeId) (name : String) (member : SymbolId) : Analyze Unit :=
  match owner with
  | none => return ()
  | some t => write fun s => { s with types := s.types.setMember t name member }

/-- The symbol whose parameters a call of a symbol must match: that of a procedure itself, or that
of the delegate type of a variable. -/
def signature? (x : SymbolId) : Analyze (Option SymbolId) := do
  let s ← get
  let symbol := s.tree.symbol x
  if symbol.isCallable then return some x
  else
    match symbol.type with
    | some t =>
      if s.types.shape t = .delegate then return s.typeSymbols.lookup t else return none
    | none => return none

/-! ### Written types -/

/-- The type of a dotted name, which is found by its last part. A type parameter in scope hides a
type of the catalog. An unknown name is reported and stands for `Object`. -/
def typeNamed (scope : ScopeId) (name : String) (loc : Loc) : Analyze TypeId := do
  let s ← get
  let simple := lastSegment name
  let parameter := (s.tree.find? scope simple).bind fun x =>
    let x := s.tree.symbol x
    if x.kind = .typeParameter then x.type else none
  match parameter <|> s.types.find? simple with
  | some t => return t
  | none =>
    report (.unknownType name) loc name.length
    return .object

/-- The type with type arguments, if its own name is known. -/
def applyArgs (t : TypeId) (args : List TypeId) : Analyze TypeId :=
  if args.isEmpty then return t
  else withTypes fun c => (c.genericOf (c.name t) args).getD (c, t)

mutual

/-- The type of a written type in a scope. A written type without a position of its own is reported
at another one. -/
def typeOf (scope : ScopeId) : TypeRef → (otherwise : Loc) → Analyze TypeId
  | .mk name args _ isPointer dims loc, otherwise => do
    let loc := if loc.hasLine then loc else otherwise
    let t ← typeNamed scope name loc
    let args ← typesOf scope args loc
    let t ← applyArgs t args
    let t ← if isPointer then withTypes (·.pointerTo t) else pure t
    if dims.isEmpty then return t else withTypes (·.arrayOf t dims.length)

def typesOf (scope : ScopeId) : List TypeRef → (otherwise : Loc) → Analyze (List TypeId)
  | [], _ => return []
  | r :: rs, otherwise => do
    let t ← typeOf scope r otherwise
    let ts ← typesOf scope rs otherwise
    return t :: ts

end

/-- The type of a written type; `Object` if none is written. -/
def typeOf? (scope : ScopeId) (r : Option TypeRef) (otherwise : Loc) : Analyze TypeId :=
  match r with
  | some r => typeOf scope r otherwise
  | none => return .object

end Analyze

end BasicSSA
