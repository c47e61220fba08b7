import BasicSSA.Syntax.Expr

/-!
# Statements
-/

namespace BasicSSA

inductive Access where
  | public_ | private_ | protected_
  deriving DecidableEq, Inhabited, Repr

/-- What is written before a member. -/
structure Modifiers where
  access : Access := .public_
  isShared : Bool := false
  isOverridable : Bool := false
  isOverrides : Bool := false
  isMustOverride : Bool := false
  isNotOverridable : Bool := false
  deriving DecidableEq, Inhabited, Repr

/-- A variable or a field. Without `Auto` its type is written. -/
structure VarDecl (α : Type) where
  info : α
  name : String
  type : Option TypeRef := none
  init : Option (Expr α) := none
  isAuto : Bool := false
  modifiers : Modifiers := {}

/-- The dimensions of a variable; none if its type is not written as that of an array. -/
def VarDecl.dims (d : VarDecl α) : List (Option Nat) :=
  d.type.elim [] TypeRef.dims

structure ConstDecl (α : Type) where
  info : α
  name : String
  type : TypeRef
  value : Option (Expr α) := none

inductive ExitKind where
  | forLoop | doLoop | whileLoop | sub | function
  deriving DecidableEq, Inhabited, Repr

def ExitKind.text : ExitKind → String
  | .forLoop => "For"
  | .doLoop => "Do"
  | .whileLoop => "While"
  | .sub => "Sub"
  | .function => "Function"

inductive AssignOp where
  | assign | add | sub | mul | div
  deriving DecidableEq, Inhabited, Repr

def AssignOp.text : AssignOp → String
  | .assign => "="
  | .add => "+="
  | .sub => "-="
  | .mul => "*="
  | .div => "/="

/-- The test of a `Do` loop: where it stands and whether the loop goes on when it holds. -/
structure LoopTest (α : Type) where
  atTop : Bool
  isWhile : Bool
  cond : Expr α

mutual

inductive Stmt (α : Type) where
  | ifThen (info : α) (cond : Expr α) (body : List (Stmt α)) (orElse : Else α)
  | select (info : α) (subject : Expr α) (cases : List (Case α))
  | forLoop (info : α) (var : String) (start stop : Expr α) (step : Option (Expr α))
    (body : List (Stmt α))
  | forEach (info : α) (var : String) (varType : Option TypeRef) (collection : Expr α)
    (body : List (Stmt α))
  | whileLoop (info : α) (cond : Expr α) (body : List (Stmt α))
  | doLoop (info : α) (test : Option (LoopTest α)) (body : List (Stmt α))
  | tryCatch (info : α) (body : List (Stmt α)) (catches : List (Catch α))
    (last : Option (List (Stmt α)))
  | withBlock (info : α) (target : Expr α) (body : List (Stmt α))
  | throw (info : α) (value : Option (Expr α))
  | return_ (info : α) (value : Option (Expr α))
  | exit (info : α) (kind : ExitKind)
  | assign (info : α) (target : Expr α) (op : AssignOp) (value : Expr α)
  | expr (info : α) (e : Expr α)
  | var (decl : VarDecl α)
  | const (decl : ConstDecl α)

/-- What follows the first arm of an `If`. -/
inductive Else (α : Type) where
  | nothing
  | block (body : List (Stmt α))
  | elseIf (info : α) (cond : Expr α) (body : List (Stmt α)) (rest : Else α)

inductive Case (α : Type) where
  | values (info : α) (values : List (Expr α)) (body : List (Stmt α))
  | otherwise (info : α) (body : List (Stmt α))

/-- A `Catch` clause, with the variable and its type if they are written. -/
inductive Catch (α : Type) where
  | mk (info : α) (var : Option String) (type : Option TypeRef) (body : List (Stmt α))

end

variable {α β : Type}

def Else.isNothing : Else α → Bool
  | .nothing => true
  | _ => false

def VarDecl.map (f : α → β) (d : VarDecl α) : VarDecl β :=
  { info := f d.info, name := d.name, type := d.type, init := d.init.map (·.map f),
    isAuto := d.isAuto, modifiers := d.modifiers }

def ConstDecl.map (f : α → β) (d : ConstDecl α) : ConstDecl β :=
  { info := f d.info, name := d.name, type := d.type, value := d.value.map (·.map f) }

def LoopTest.map (f : α → β) (t : LoopTest α) : LoopTest β :=
  { atTop := t.atTop, isWhile := t.isWhile, cond := t.cond.map f }

namespace Stmt

def info : Stmt α → α
  | ifThen i .. | select i .. | forLoop i .. | forEach i .. | whileLoop i .. | doLoop i ..
  | tryCatch i .. | withBlock i .. | throw i _ | return_ i _ | exit i _ | assign i ..
  | expr i _ => i
  | var d => d.info
  | const d => d.info

mutual

def map (f : α → β) : Stmt α → Stmt β
  | ifThen i c b e => ifThen (f i) (c.map f) (mapList f b) (mapElse f e)
  | select i s cs => select (f i) (s.map f) (mapCases f cs)
  | forLoop i v a z s b => forLoop (f i) v (a.map f) (z.map f) (s.map (·.map f)) (mapList f b)
  | forEach i v t c b => forEach (f i) v t (c.map f) (mapList f b)
  | whileLoop i c b => whileLoop (f i) (c.map f) (mapList f b)
  | doLoop i t b => doLoop (f i) (t.map (·.map f)) (mapList f b)
  | tryCatch i b cs none => tryCatch (f i) (mapList f b) (mapCatches f cs) none
  | tryCatch i b cs (some l) => tryCatch (f i) (mapList f b) (mapCatches f cs) (some (mapList f l))
  | withBlock i t b => withBlock (f i) (t.map f) (mapList f b)
  | throw i v => throw (f i) (v.map (·.map f))
  | return_ i v => return_ (f i) (v.map (·.map f))
  | exit i k => exit (f i) k
  | assign i t op v => assign (f i) (t.map f) op (v.map f)
  | expr i e => expr (f i) (e.map f)
  | var d => var (d.map f)
  | const d => const (d.map f)

def mapList (f : α → β) : List (Stmt α) → List (Stmt β)
  | [] => []
  | s :: ss => s.map f :: mapList f ss

def mapElse (f : α → β) : Else α → Else β
  | .nothing => .nothing
  | .block b => .block (mapList f b)
  | .elseIf i c b e => .elseIf (f i) (c.map f) (mapList f b) (mapElse f e)

def mapCases (f : α → β) : List (Case α) → List (Case β)
  | [] => []
  | .values i vs b :: cs => .values (f i) (vs.map (·.map f)) (mapList f b) :: mapCases f cs
  | .otherwise i b :: cs => .otherwise (f i) (mapList f b) :: mapCases f cs

def mapCatches (f : α → β) : List (Catch α) → List (Catch β)
  | [] => []
  | .mk i v t b :: cs => .mk (f i) v t (mapList f b) :: mapCatches f cs

end

end Stmt

end BasicSSA
