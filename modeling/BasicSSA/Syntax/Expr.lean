import BasicSSA.Number.Decimal
import BasicSSA.Syntax.TypeRef

/-!
# Expressions

Every node carries an `info`: its position after parsing, and more after analysis.
-/

namespace BasicSSA

/-- A whole number fits the type that it has. -/
inductive Literal where
  | integer (n : Fin (maxInteger + 1))
  | long (n : Fin (maxLong + 1))
  | single (x : Single)
  | double (x : Double)
  | string (s : String)
  | boolean (b : Bool)
  | nothing
  deriving DecidableEq, Inhabited, Repr

inductive BinaryOp where
  | or | and | eq | ne | lt | le | gt | ge | add | sub | concat | mul | div | intDiv | mod
  deriving DecidableEq, Inhabited, Repr

def BinaryOp.text : BinaryOp → String
  | .or => "Or"
  | .and => "And"
  | .eq => "="
  | .ne => "<>"
  | .lt => "<"
  | .le => "<="
  | .gt => ">"
  | .ge => ">="
  | .add => "+"
  | .sub => "-"
  | .concat => "&"
  | .mul => "*"
  | .div => "/"
  | .intDiv => "\\"
  | .mod => "Mod"

inductive UnaryOp where
  | neg | plus | not | preInc | preDec | postInc | postDec | deref
  deriving DecidableEq, Inhabited, Repr

namespace UnaryOp

def text : UnaryOp → String
  | .neg => "-"
  | .plus => "+"
  | .not => "Not"
  | .preInc | .postInc => "++"
  | .preDec | .postDec => "--"
  | .deref => "^"

/-- Whether the operator stands after its operand and gives the value before the change. -/
def isPost : UnaryOp → Bool
  | .postInc | .postDec => true
  | _ => false

end UnaryOp

mutual

inductive Expr (α : Type) where
  | literal (info : α) (value : Literal)
  | name (info : α) (name : String)
  | me (info : α)
  | binary (info : α) (op : BinaryOp) (lhs rhs : Expr α)
  | unary (info : α) (op : UnaryOp) (operand : Expr α)
  | member (info : α) (object : Expr α) (name : String)
  /-- A member of the object of the enclosing `With` block. -/
  | withMember (info : α) (name : String)
  | call (info : α) (callee : Expr α) (typeArgs : List TypeRef) (args : List (Expr α))
  | index (info : α) (array : Expr α) (indices : List (Expr α))
  | new (info : α) (type : TypeRef) (args : List (Expr α))
  | cast (info : α) (operand : Expr α) (target : TypeRef)
  | interpolated (info : α) (parts : List (Part α))
  | collection (info : α) (elements : List (Expr α))
  | addressOf (info : α) (operand : Expr α)

inductive Part (α : Type) where
  | text (s : String)
  | expr (e : Expr α)

end

namespace Expr

variable {α β : Type}

instance [Inhabited α] : Inhabited (Expr α) := ⟨.me default⟩

def info : Expr α → α
  | literal i _ | name i _ | me i | binary i .. | unary i .. | member i .. | withMember i _
  | call i .. | index i .. | new i .. | cast i .. | interpolated i _ | collection i _
  | addressOf i _ => i

mutual

def map (f : α → β) : Expr α → Expr β
  | literal i v => literal (f i) v
  | name i n => name (f i) n
  | me i => me (f i)
  | binary i op l r => binary (f i) op (l.map f) (r.map f)
  | unary i op e => unary (f i) op (e.map f)
  | member i e n => member (f i) (e.map f) n
  | withMember i n => withMember (f i) n
  | call i e ts as => call (f i) (e.map f) ts (mapList f as)
  | index i e is => index (f i) (e.map f) (mapList f is)
  | new i t as => new (f i) t (mapList f as)
  | cast i e t => cast (f i) (e.map f) t
  | interpolated i ps => interpolated (f i) (mapParts f ps)
  | collection i es => collection (f i) (mapList f es)
  | addressOf i e => addressOf (f i) (e.map f)

def mapList (f : α → β) : List (Expr α) → List (Expr β)
  | [] => []
  | e :: es => e.map f :: mapList f es

def mapParts (f : α → β) : List (Part α) → List (Part β)
  | [] => []
  | .text s :: ps => .text s :: mapParts f ps
  | .expr e :: ps => .expr (e.map f) :: mapParts f ps

end

end Expr

end BasicSSA
