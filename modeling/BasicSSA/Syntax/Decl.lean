import BasicSSA.Syntax.Stmt

/-!
# Declarations
-/

namespace BasicSSA

structure Param (α : Type) where
  loc : Loc
  name : String
  type : TypeRef
  default : Option (Expr α) := none
  isOptional : Bool := false

inductive ProcKind where
  | function | sub | constructor
  deriving DecidableEq, Inhabited, Repr

/-- A procedure. Without a body it is only a signature. -/
structure Procedure (α : Type) where
  info : α
  kind : ProcKind
  name : String
  modifiers : Modifiers := {}
  typeParams : List String := []
  params : List (Param α) := []
  returnType : Option TypeRef := none
  /-- The interface method that the procedure implements, empty if none is named. -/
  implements : String := ""
  body : Option (List (Stmt α))

/-- The head of a class; the base is empty if none is named. -/
structure ClassHead where
  name : String
  typeParams : List String := []
  base : String := ""
  interfaces : List String := []
  deriving DecidableEq, Inhabited, Repr

structure DelegateDecl (α : Type) where
  info : α
  name : String
  params : List (Param α) := []
  returnType : Option TypeRef := none
  isFunction : Bool := true

inductive RecordKind where
  | type | struct
  deriving DecidableEq, Inhabited, Repr

inductive Decl (α : Type) where
  | nspace (info : α) (name : String) (members : List (Decl α))
  | module (info : α) (name : String) (members : List (Decl α))
  | uses (info : α) (name : String)
  | imports (info : α) (name : String)
  | cls (info : α) (head : ClassHead) (members : List (Decl α))
  | interface (info : α) (name : String) (methods : List (Procedure α))
  | record (info : α) (kind : RecordKind) (name : String) (fields : List (VarDecl α))
  | proc (p : Procedure α)
  | var (d : VarDecl α)
  | const (d : ConstDecl α)
  | typeDefine (info : α) (name : String) (type : TypeRef)
  /-- A generic function or class, marked as a template. -/
  | template (info : α) (decl : Decl α)
  | delegate (d : DelegateDecl α)
  /-- A function added to a type. -/
  | extension (info : α) (type : String) (method : Procedure α)

abbrev Program (α : Type) := List (Decl α)

variable {α β : Type}

def Param.map (f : α → β) (p : Param α) : Param β :=
  { loc := p.loc, name := p.name, type := p.type, default := p.default.map (·.map f),
    isOptional := p.isOptional }

def Procedure.map (f : α → β) (p : Procedure α) : Procedure β :=
  { info := f p.info, kind := p.kind, name := p.name, modifiers := p.modifiers,
    typeParams := p.typeParams, params := p.params.map (·.map f), returnType := p.returnType,
    implements := p.implements, body := p.body.map (Stmt.mapList f) }

def Procedure.isFunction (p : Procedure α) : Bool :=
  p.kind == .function

def DelegateDecl.map (f : α → β) (d : DelegateDecl α) : DelegateDecl β :=
  { info := f d.info, name := d.name, params := d.params.map (·.map f),
    returnType := d.returnType, isFunction := d.isFunction }

namespace Decl

def info : Decl α → α
  | nspace i .. | module i .. | uses i _ | imports i _ | cls i .. | interface i .. | record i ..
  | typeDefine i .. | template i _ | extension i .. => i
  | proc p => p.info
  | var d => d.info
  | const d => d.info
  | delegate d => d.info

/-- The name that is declared, if one is. -/
def name : Decl α → String
  | uses .. | imports .. => ""
  | nspace _ n _ | module _ n _ | interface _ n _ | record _ _ n _ | typeDefine _ n _ => n
  | cls _ h _ => h.name
  | proc p | extension _ _ p => p.name
  | var d => d.name
  | const d => d.name
  | delegate d => d.name
  | template _ d => d.name

def typeParams : Decl α → List String
  | cls _ h _ => h.typeParams
  | proc p => p.typeParams
  | _ => []

mutual

def map (f : α → β) : Decl α → Decl β
  | nspace i n ds => nspace (f i) n (mapList f ds)
  | module i n ds => module (f i) n (mapList f ds)
  | uses i n => uses (f i) n
  | imports i n => imports (f i) n
  | cls i h ds => cls (f i) h (mapList f ds)
  | interface i n ps => interface (f i) n (ps.map (·.map f))
  | record i k n vs => record (f i) k n (vs.map (·.map f))
  | proc p => proc (p.map f)
  | var d => var (d.map f)
  | const d => const (d.map f)
  | typeDefine i a t => typeDefine (f i) a t
  | template i d => template (f i) (d.map f)
  | delegate d => delegate (d.map f)
  | extension i t p => extension (f i) t (p.map f)

def mapList (f : α → β) : List (Decl α) → List (Decl β)
  | [] => []
  | d :: ds => d.map f :: mapList f ds

end

end Decl

def Program.map (f : α → β) (p : Program α) : Program β :=
  Decl.mapList f p

end BasicSSA
