import BasicSSA.Scope.Symbol

/-!
# Scopes

The scopes of a program form a tree. A scope knows all the scopes around it, so a search outwards
goes over a list.
-/

namespace BasicSSA

inductive ScopeKind where
  | global | nspace | module | cls | interface | function | subroutine | block | loop
  deriving DecidableEq, Inhabited, Repr

def ScopeKind.isProcedure : ScopeKind → Bool
  | .function | .subroutine => true
  | _ => false

/-- The scopes of the members of types. -/
def ScopeKind.isClass : ScopeKind → Bool
  | .cls | .interface => true
  | .function | .subroutine | .block | .loop | .global | .nspace | .module => false

structure Scope where
  name : String
  kind : ScopeKind
  /-- The scopes around this one, innermost first. -/
  outer : List ScopeId := []
  children : List ScopeId := []
  /-- The symbols under their folded names, in the order of their definitions. -/
  symbols : List (String × SymbolId) := []
  returnType : Option TypeId := none
  /-- The type whose members a class scope holds. -/
  classType : Option TypeId := none
  deriving Inhabited, Repr

structure ScopeTree where
  scopes : Array Scope
  symbols : Array Symbol := #[]
  deriving Repr

namespace ScopeTree

/-- The scope around all others. -/
def root : ScopeId := ⟨0⟩

def initial : ScopeTree :=
  { scopes := #[{ name := "global", kind := .global }] }

instance : Inhabited ScopeTree := ⟨initial⟩

def scope (t : ScopeTree) (s : ScopeId) : Scope :=
  t.scopes.getD s.index default

def symbol (t : ScopeTree) (x : SymbolId) : Symbol :=
  t.symbols.getD x.index default

def modifyScope (t : ScopeTree) (s : ScopeId) (f : Scope → Scope) : ScopeTree :=
  { t with scopes := t.scopes.modify s.index f }

def modifySymbol (t : ScopeTree) (x : SymbolId) (f : Symbol → Symbol) : ScopeTree :=
  { t with symbols := t.symbols.modify x.index f }

/-- A scope and the scopes around it, innermost first. -/
def chain (t : ScopeTree) (s : ScopeId) : List ScopeId :=
  s :: (t.scope s).outer

def parent? (t : ScopeTree) (s : ScopeId) : Option ScopeId :=
  (t.scope s).outer.head?

def child (t : ScopeTree) (s : ScopeId) (name : String) (kind : ScopeKind) :
    ScopeTree × ScopeId :=
  let new : ScopeId := ⟨t.scopes.size⟩
  let t := t.modifyScope s fun p => { p with children := p.children ++ [new] }
  ({ t with scopes := t.scopes.push { name, kind, outer := t.chain s } }, new)

def findLocal? (t : ScopeTree) (s : ScopeId) (name : String) : Option SymbolId :=
  (t.scope s).symbols.lookup (foldCase name)

/-- The symbol that a name stands for in a scope: the innermost definition counts. -/
def find? (t : ScopeTree) (s : ScopeId) (name : String) : Option SymbolId :=
  (t.chain s).findSome? (t.findLocal? · name)

/-- Defines a symbol in a scope; none if the scope itself has one of that name. -/
def define (t : ScopeTree) (s : ScopeId) (x : Symbol) : Option (ScopeTree × SymbolId) :=
  if (t.findLocal? s x.name).isSome then none
  else
    let new : SymbolId := ⟨t.symbols.size⟩
    let t := t.modifyScope s fun p => { p with symbols := p.symbols ++ [(foldCase x.name, new)] }
    some ({ t with symbols := t.symbols.push { x with scope := s } }, new)

/-- The innermost procedure around a scope, itself included. -/
def procedure? (t : ScopeTree) (s : ScopeId) : Option ScopeId :=
  (t.chain s).find? fun s => (t.scope s).kind.isProcedure

/-- The innermost class around a scope, itself included. -/
def class? (t : ScopeTree) (s : ScopeId) : Option ScopeId :=
  (t.chain s).find? fun s => (t.scope s).kind = .cls

/-- Whether there is a loop around a scope in the same procedure. -/
def isInLoop (t : ScopeTree) (s : ScopeId) : Bool :=
  ((t.chain s).findSome? fun s =>
    match (t.scope s).kind with
    | .loop => some true
    | .function | .subroutine => some false
    | _ => none).getD false

def symbolsOf (t : ScopeTree) (s : ScopeId) : List SymbolId :=
  (t.scope s).symbols.map (·.2)

end ScopeTree

end BasicSSA
