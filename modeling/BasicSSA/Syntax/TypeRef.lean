import BasicSSA.Loc
import BasicSSA.Text

/-!
# Written types
-/

namespace BasicSSA

/-- A type as it is written: a dotted name with type arguments, possibly nullable, possibly behind
a pointer, and the array dimensions written after the name that it is given to. A dimension is
known only if it is written as an integer literal. -/
inductive TypeRef where
  | mk (name : String) (args : List TypeRef) (isNullable isPointer : Bool)
    (dims : List (Option Nat)) (loc : Loc)
  deriving Inhabited, Repr

namespace TypeRef

def name : TypeRef → String
  | mk name .. => name

def args : TypeRef → List TypeRef
  | mk _ args .. => args

def isPointer : TypeRef → Bool
  | mk _ _ _ isPointer .. => isPointer

def dims : TypeRef → List (Option Nat)
  | mk _ _ _ _ dims _ => dims

def loc : TypeRef → Loc
  | mk _ _ _ _ _ loc => loc

def isArray (t : TypeRef) : Bool :=
  !t.dims.isEmpty

/-- A pointer to the type, written at a position. Pointers do not nest. -/
def toPointer (t : TypeRef) (loc : Loc) : TypeRef :=
  match t with
  | mk name args isNullable _ dims _ => mk name args isNullable true dims loc

def withDims (t : TypeRef) (dims : List (Option Nat)) : TypeRef :=
  match t with
  | mk name args isNullable isPointer _ loc => mk name args isNullable isPointer dims loc

def dimsText : List (Option Nat) → String
  | [] => ""
  | some n :: rest => "[" ++ toString n ++ "]" ++ dimsText rest
  | none :: rest => "[]" ++ dimsText rest

mutual

def text : TypeRef → String
  | mk name args isNullable isPointer dims _ =>
    (if isPointer then "Pointer To " else "") ++ name ++
      (match args with
      | [] => ""
      | first :: rest => "(Of " ++ first.text ++ argsText rest) ++
      (if isNullable then "?" else "") ++ dimsText dims

def argsText : List TypeRef → String
  | [] => ")"
  | t :: rest => ", " ++ t.text ++ argsText rest

end

end TypeRef

end BasicSSA
