import BasicSSA.Number.General
import BasicSSA.Text

/-!
# Values of the intermediate language
-/

namespace BasicSSA.IL

inductive Kind where
  | void | i1 | i16 | i32 | i64 | f32 | f64 | str | ptr
  deriving DecidableEq, Inhabited, Repr

def Kind.text : Kind → String
  | .void => "void"
  | .i1 => "i1"
  | .i16 => "i16"
  | .i32 => "i32"
  | .i64 => "i64"
  | .f32 => "f32"
  | .f64 => "f64"
  | .str => "str"
  | .ptr => "ptr"

/-- A type, with the name it has in the source if it has one. -/
structure Ty where
  kind : Kind := .void
  name : String := ""
  deriving DecidableEq, Inhabited, Repr

namespace Ty

def text (t : Ty) : String :=
  if t.name.isEmpty then t.kind.text else t.name

def isVoid (t : Ty) : Bool :=
  t.kind = .void

def isFloat (t : Ty) : Bool :=
  t.kind = .f32 || t.kind = .f64

def isInteger (t : Ty) : Bool :=
  t.kind = .i16 || t.kind = .i32 || t.kind = .i64

def boolean : Ty := ⟨.i1, "Boolean"⟩

def string : Ty := ⟨.str, "String"⟩

def pointerTo (t : Ty) : Ty := ⟨.ptr, "Pointer To " ++ t.text⟩

end Ty

inductive Value where
  /-- A version of a variable. -/
  | var (name : String) (version : Nat) (type : Ty)
  | temp (id : Nat) (type : Ty)
  | int (n : Int) (type : Ty)
  | float (d : Double) (type : Ty)
  | bool (b : Bool)
  | str (s : String)
  /-- The address of a variable of the module. -/
  | global (name : String) (type : Ty)
  | null (type : Ty)
  deriving DecidableEq, Repr

instance : Inhabited Value := ⟨.null {}⟩

def upperHexDigit (n : Nat) : Char :=
  (Nat.digitChar n).toUpper

def escapeChar (c : Char) : List Char :=
  match c with
  | '\\' => ['\\', '\\']
  | '"' => ['\\', '"']
  | '\n' => ['\\', 'n']
  | '\t' => ['\\', 't']
  | '\r' => ['\\', 'r']
  | c =>
    if c.toNat < 32 || c.toNat = 127 then
      ['\\', 'x', upperHexDigit (c.toNat / 16), upperHexDigit (c.toNat % 16)]
    else [c]

def escapeText (s : String) : String :=
  String.ofList (s.toList.flatMap escapeChar)

/-- Whether a name is spelled like a temporary: `t` and digits. -/
def isTempName (name : String) : Bool :=
  match name.toList with
  | 't' :: d :: ds => (d :: ds).all Char.isDigit
  | _ => false

namespace Value

def type : Value → Ty
  | var _ _ t | temp _ t | int _ t | float _ t | global _ t | null t => t
  | bool _ => .boolean
  | str _ => .string

/-- The name or the text that a value carries, if any. -/
def name : Value → String
  | var x _ _ | global x _ | str x => x
  | _ => ""

def isVar : Value → Bool
  | var .. => true
  | _ => false

def isConstant : Value → Bool
  | int .. | float .. | bool _ | str _ | null _ => true
  | _ => false

/-- Whether two values are the same definition or the same literal, whatever their types. -/
def same : Value → Value → Bool
  | var x m _, var y n _ => x = y && m = n
  | temp m _, temp n _ => m = n
  | int m _, int n _ => m = n
  | float a _, float b _ => a.equals b
  | bool a, bool b => a = b
  | str a, str b => a = b
  | global x _, global y _ => x = y
  | null _, null _ => true
  | _, _ => false

/-- How a value is written. Version 0 of a variable is its bare name, unless that would read as a
temporary. -/
def text : Value → String
  | var name version _ =>
    if version = 0 && !isTempName name then "%" ++ name
    else "%" ++ name ++ "." ++ toString version
  | temp id _ => "%t" ++ toString id
  | int n _ => toString n
  | float d _ => d.literalText
  | bool b => if b then "true" else "false"
  | str s => "\"" ++ escapeText s ++ "\""
  | global name _ => "@" ++ name
  | null _ => "null"

end Value

end BasicSSA.IL
