import BasicSSA.IL.Value
import BasicSSA.Syntax.Expr
import BasicSSA.Types.Catalog

/-!
# Types and constants in the intermediate language
-/

namespace BasicSSA

/-- How the values of a primitive type are stored. -/
def TypeId.kind? (t : TypeId) : Option IL.Kind :=
  if t = integer then some .i32
  else if t = long then some .i64
  else if t = single then some .f32
  else if t = double then some .f64
  else if t = boolean then some .i1
  else if t = string then some .str
  else if t = char then some .i16
  else none

/-- The type that the values of a type have. An unknown type is `Object`. -/
def Catalog.lowered (c : Catalog) : Option TypeId → IL.Ty
  | none => ⟨.ptr, "Object"⟩
  | some t =>
    match t.kind? with
    | some kind => ⟨kind, c.name t⟩
    | none => if c.isVoid t then {} else ⟨.ptr, c.text t⟩

namespace IL.Ty

/-- The type of counts and indices. -/
def long : Ty := ⟨.i64, "Long"⟩

/-- The value of a variable of a type before it is given one; none for void. -/
def zero? (t : Ty) : Option Value :=
  match t.kind with
  | .void => none
  | .i1 => some (.bool false)
  | .i16 | .i32 | .i64 => some (.int 0 t)
  | .f32 | .f64 => some (.float (.ofInt 0) t)
  | .str => some (.str "")
  | .ptr => some (.null t)

def one (t : Ty) : Value :=
  if t.isFloat then .float (.ofInt 1) t else .int 1 t

end IL.Ty

namespace IL.Value

/-- An integer of 64 bits. -/
abbrev long (n : Int64) : Value :=
  .int n.toInt .long

def isNull : Value → Bool
  | null _ => true
  | _ => false

/-- Whether a value is a number below zero that is known now. -/
def isNegativeConstant : Value → Bool
  | int n _ => n < 0
  | float d _ => d.isBelowZero
  | _ => false

/-- A constant as a value of another type, where that needs no code. -/
def convert? (target : Ty) : Value → Option Value
  | int n _ =>
    if target.isFloat then some (.float (.ofInt n) target)
    else if target.isInteger then some (.int n target)
    else none
  | float d _ => if target.isFloat then some (.float d target) else none
  | null _ => some (.null target)
  | _ => none

end IL.Value

namespace Literal

/-- A literal as a value of the type that it has. -/
def value (type : IL.Ty) : Literal → IL.Value
  | integer n | long n => .int n.val type
  | single x => .float x.toDouble type
  | double x => .float x type
  | string s => .str s
  | boolean b => .bool b
  | nothing => .null type

/-- A number as a constant of a type, if that is a type of numbers. -/
def numeric? (type : IL.Ty) (d : Double) : Option IL.Value :=
  if type.isFloat then some (.float d type)
  else if type.isInteger then some (.int d.truncate type)
  else none

/-- A literal, possibly after a minus sign, as a constant of a type. -/
def constant? (type : IL.Ty) (negate : Bool) (v : Literal) : Option IL.Value :=
  let sign (d : Double) := if negate then d.neg else d
  match v with
  | integer n => numeric? type (sign (.ofInt n.val))
  | long n =>
    if type.isInteger then some (.int (if negate then -n.val else n.val) type)
    else numeric? type (sign (.ofInt n.val))
  | single x => numeric? type (sign x.toDouble)
  | double x => numeric? type (sign x)
  | string s => if negate || type.kind ≠ .str then none else some (.str s)
  | boolean b => if negate || type.kind ≠ .i1 then none else some (.bool b)
  | nothing => if negate then none else some (.null type)

end Literal

/-- The constant of a type that an expression stands for; none if it needs code. -/
def Expr.constant? {α : Type} (type : IL.Ty) : Expr α → Option IL.Value
  | .literal _ v => v.constant? type false
  | .unary _ .neg (.literal _ v) => v.constant? type true
  | _ => none

end BasicSSA
