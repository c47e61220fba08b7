import BasicSSA.Syntax.Decl
import BasicSSA.Types.Catalog

/-!
# Symbols
-/

namespace BasicSSA

/-- A scope, as its number in a scope tree. -/
structure ScopeId where
  index : Nat
  deriving DecidableEq, Inhabited, Repr

inductive SymbolKind where
  | variable | constant | parameter | field | function | subroutine
  | cls | interface | struct | type | delegate | module | nspace | typeParameter
  deriving DecidableEq, Inhabited, Repr

def SymbolKind.text : SymbolKind → String
  | .variable => "variable"
  | .constant => "constant"
  | .parameter => "parameter"
  | .field => "field"
  | .function => "function"
  | .subroutine => "subroutine"
  | .cls => "class"
  | .interface => "interface"
  | .struct => "structure"
  | .type => "type"
  | .delegate => "delegate"
  | .module => "module"
  | .nspace => "namespace"
  | .typeParameter => "type parameter"

def SymbolKind.isCallable : SymbolKind → Bool
  | .function | .subroutine => true
  | _ => false

structure ParamInfo where
  name : String
  type : Option TypeId := none
  isOptional : Bool := false
  deriving DecidableEq, Inhabited, Repr

structure Symbol where
  name : String
  kind : SymbolKind := .variable
  /-- The type of the value, or the type that is named. -/
  type : Option TypeId := none
  /-- The type that a procedure returns, `Void` for a subroutine. -/
  returnType : Option TypeId := none
  params : List ParamInfo := []
  typeParams : List String := []
  loc : Loc := {}
  access : Access := .public_
  isShared : Bool := false
  isBuiltin : Bool := false
  /-- The scope where it is defined. -/
  scope : ScopeId := default
  /-- The scope that a namespace or a module opens. -/
  inner : Option ScopeId := none
  deriving Inhabited, Repr

def Symbol.isCallable (s : Symbol) : Bool :=
  s.kind.isCallable

/-- The type of a declaration: what a procedure returns, or else the type of the value. -/
def Symbol.declaredType (s : Symbol) : Option TypeId :=
  if s.isCallable then s.returnType else s.type

end BasicSSA
