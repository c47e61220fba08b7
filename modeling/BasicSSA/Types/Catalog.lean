import BasicSSA.Text

/-!
# Types

The types of a program live in a catalog, which only grows. A type is its number in the catalog.
Named types are found without regard to case. Array, pointer and generic types and type parameters
are made once for each spelling.
-/

namespace BasicSSA

/-- A type, as its number in a catalog. -/
structure TypeId where
  index : Nat
  deriving DecidableEq, Inhabited, Repr

/-- A symbol, as its number in a table of symbols. -/
structure SymbolId where
  index : Nat
  deriving DecidableEq, Inhabited, Repr

inductive TypeKind where
  | primitive | cls | interface | struct | record | delegate | parameter | array | pointer | generic
  | null | void
  deriving DecidableEq, Inhabited, Repr

/-- How a type is made: its kind with the types in it. -/
inductive TypeShape where
  | primitive
  | cls
  | interface
  | struct
  | record
  | delegate
  | parameter
  | array (element : TypeId) (rank : Nat)
  | pointer (target : TypeId)
  | generic (args : List TypeId)
  /-- The shape of the type of `Nothing`. -/
  | null
  | void
  deriving DecidableEq, Inhabited, Repr

def TypeShape.kind : TypeShape → TypeKind
  | primitive => .primitive
  | cls => .cls
  | interface => .interface
  | struct => .struct
  | record => .record
  | delegate => .delegate
  | parameter => .parameter
  | array .. => .array
  | pointer _ => .pointer
  | generic _ => .generic
  | null => .null
  | void => .void

/-- The shape of a kind with no types in it. An array or a pointer always has one. -/
def TypeKind.shape? : TypeKind → Option TypeShape
  | primitive => some .primitive
  | cls => some .cls
  | interface => some .interface
  | struct => some .struct
  | record => some .record
  | delegate => some .delegate
  | parameter => some .parameter
  | array => none
  | pointer => none
  | generic => some (.generic [])
  | null => some .null
  | void => some .void

/-- How a generic type is shown, from its name and the texts of its arguments. -/
def genericText (name : String) (args : List String) : String :=
  name ++ "(Of " ++ joinWith ", " args ++ ")"

structure TypeInfo where
  name : String
  shape : TypeShape
  text : String
  /-- The base of a class; the definition of a generic type. -/
  base : Option TypeId := none
  interfaces : List TypeId := []
  /-- Fields and methods under their folded names. -/
  members : List (String × SymbolId) := []
  deriving Inhabited, Repr

structure Catalog where
  types : Array TypeInfo
  /-- The types under their folded names. -/
  named : List (String × TypeId)
  aliases : List (String × TypeId) := []
  /-- The types made from other types, under their spellings. -/
  made : List (String × TypeId) := []
  deriving Repr

namespace TypeId

def integer : TypeId := ⟨0⟩

def long : TypeId := ⟨1⟩

def single : TypeId := ⟨2⟩

def double : TypeId := ⟨3⟩

def string : TypeId := ⟨4⟩

def boolean : TypeId := ⟨5⟩

def char : TypeId := ⟨6⟩

def void : TypeId := ⟨7⟩

def object : TypeId := ⟨8⟩

/-- The type of `Nothing`. It has no name that a program can write. -/
def nothing : TypeId := ⟨9⟩

def isIntegral (t : TypeId) : Bool :=
  t = integer || t = long

def isFloating (t : TypeId) : Bool :=
  t = single || t = double

def isNumeric (t : TypeId) : Bool :=
  t.isIntegral || t.isFloating

end TypeId

namespace Catalog

def initial : Catalog :=
  let builtin (name : String) (shape : TypeShape) : TypeInfo := { name, shape, text := name }
  { types :=
      #[builtin "Integer" .primitive, builtin "Long" .primitive, builtin "Single" .primitive,
        builtin "Double" .primitive, builtin "String" .primitive, builtin "Boolean" .primitive,
        builtin "Char" .primitive, builtin "Void" .void, builtin "Object" .cls,
        builtin "Nothing" .null]
    named :=
      [("INTEGER", .integer), ("LONG", .long), ("SINGLE", .single), ("DOUBLE", .double),
       ("STRING", .string), ("BOOLEAN", .boolean), ("CHAR", .char), ("VOID", .void),
       ("OBJECT", .object)] }

instance : Inhabited Catalog := ⟨initial⟩

def info (c : Catalog) (t : TypeId) : TypeInfo :=
  c.types.getD t.index default

def name (c : Catalog) (t : TypeId) : String :=
  (c.info t).name

def shape (c : Catalog) (t : TypeId) : TypeShape :=
  (c.info t).shape

def text (c : Catalog) (t : TypeId) : String :=
  (c.info t).text

def base (c : Catalog) (t : TypeId) : Option TypeId :=
  (c.info t).base

/-- The element type of an array, or the target of a pointer. -/
def element (c : Catalog) (t : TypeId) : Option TypeId :=
  match c.shape t with
  | .array e _ => some e
  | .pointer e => some e
  | _ => none

/-- The number of dimensions of an array; 0 for other types. -/
def rank (c : Catalog) (t : TypeId) : Nat :=
  match c.shape t with
  | .array _ n => n
  | _ => 0

def isVoid (c : Catalog) (t : TypeId) : Bool :=
  c.shape t = .void

def isParameter (c : Catalog) (t : TypeId) : Bool :=
  c.shape t = .parameter

/-- Whether `Nothing` is a value of a type. -/
def isReference (c : Catalog) (t : TypeId) : Bool :=
  match c.shape t with
  | .cls | .interface | .delegate | .array .. | .pointer _ | .generic _ => true
  | _ => t = .string

/-- A named type, its name or alias taken without regard to case. -/
def find? (c : Catalog) (name : String) : Option TypeId :=
  let key := foldCase name
  c.named.lookup key <|> c.aliases.lookup key

/-- A type under its own name; an alias is not followed. -/
def findNamed? (c : Catalog) (name : String) : Option TypeId :=
  c.named.lookup (foldCase name)

def add (c : Catalog) (t : TypeInfo) : Catalog × TypeId :=
  ({ c with types := c.types.push t }, ⟨c.types.size⟩)

/-- Gives a new type a name; none if the name is taken, or if the kind needs the types in it. A
class has `Object` as its base. -/
def define (c : Catalog) (name : String) (kind : TypeKind) : Option (Catalog × TypeId) :=
  if (c.find? name).isSome then none
  else
    kind.shape?.map fun shape =>
      let (c, t) :=
        c.add { name, shape, text := if kind = .generic then genericText name [] else name,
                base := if kind = .cls then some .object else none }
      ({ c with named := (foldCase name, t) :: c.named }, t)

/-- Gives a type another name; none if the name is taken. -/
def defineAlias (c : Catalog) (name : String) (target : TypeId) : Option Catalog :=
  if (c.find? name).isSome then none
  else some { c with aliases := (foldCase name, target) :: c.aliases }

def modify (c : Catalog) (t : TypeId) (f : TypeInfo → TypeInfo) : Catalog :=
  { c with types := c.types.modify t.index f }

def setBase (c : Catalog) (t base : TypeId) : Catalog :=
  c.modify t fun i => { i with base := some base }

def addInterface (c : Catalog) (t interface : TypeId) : Catalog :=
  c.modify t fun i => { i with interfaces := i.interfaces ++ [interface] }

/-- Gives a type a member; a member of the same name is replaced. -/
def setMember (c : Catalog) (t : TypeId) (name : String) (member : SymbolId) : Catalog :=
  c.modify t fun i => { i with members := (foldCase name, member) :: i.members }

/-- The type that was made under a spelling, or a new one. -/
def make (c : Catalog) (spelling : String) (t : TypeInfo) : Catalog × TypeId :=
  match c.made.lookup spelling with
  | some t => (c, t)
  | none =>
    let (c, t) := c.add t
    ({ c with made := (spelling, t) :: c.made }, t)

/-- The array type with an element type and at least one dimension. -/
def arrayOf (c : Catalog) (element : TypeId) (rank : Nat) : Catalog × TypeId :=
  let rank := max rank 1
  c.make ("[" ++ toString rank ++ "]" ++ c.text element)
    { name := c.name element ++ "[]", shape := .array element rank,
      text := c.text element ++ "[" ++ repeatChar ',' (rank - 1) ++ "]",
      base := some .object }

def pointerTo (c : Catalog) (target : TypeId) : Catalog × TypeId :=
  c.make ("^" ++ c.text target)
    { name := c.name target, shape := .pointer target, text := "Pointer To " ++ c.text target }

/-- A generic type with arguments, from the name of its definition. It has the interfaces that the
definition has now. -/
def genericOf (c : Catalog) (name : String) (args : List TypeId) : Option (Catalog × TypeId) := do
  let definition ← c.find? name
  let own := c.name definition
  let texts := args.map c.text
  some <| c.make (own ++ "(Of " ++ String.join (texts.map (· ++ ",")))
    { name := own, shape := .generic args, text := genericText own texts,
      base := some definition, interfaces := (c.info definition).interfaces }

/-- The type of a type parameter. Type parameters of one name are one type. -/
def parameter (c : Catalog) (name : String) : Catalog × TypeId :=
  c.make ("'" ++ foldCase name) { name, shape := .parameter, text := name }

/-- A type, its base, the base of that, and so on, for at most `fuel` types. -/
def basesAux (c : Catalog) : (fuel : Nat) → TypeId → List TypeId
  | 0, _ => []
  | fuel + 1, t => t :: (c.base t).elim [] (basesAux c fuel)

/-- A type and all its bases, nearest first. -/
def bases (c : Catalog) (t : TypeId) : List TypeId :=
  basesAux c c.types.size t

/-- The member of a type or of the nearest base that has it. -/
def findMember? (c : Catalog) (t : TypeId) (name : String) : Option SymbolId :=
  (c.bases t).findSome? fun t => (c.info t).members.lookup (foldCase name)

end Catalog

end BasicSSA
