import BasicSSA.Types.Catalog

/-!
# Conversion between types
-/

namespace BasicSSA.Catalog

def widens (target source : TypeId) : Bool :=
  (target = .double && (source = .single || source.isIntegral)) ||
  (target = .single && source.isIntegral) ||
  (target = .long && source = .integer)

/-- Whether two lists of type arguments fit. A type parameter fits every argument. -/
def argsFit (c : Catalog) : List TypeId → List TypeId → Bool
  | [], [] => true
  | a :: as, b :: bs => (a = b || c.isParameter a || c.isParameter b) && argsFit c as bs
  | _, _ => false

/-- Whether a type is a proper base of another, or an interface of it or of one of its bases. -/
def inherits (c : Catalog) (target source : TypeId) : Bool :=
  (c.bases source).any fun t =>
    c.base t = some target ||
      (c.shape target = .interface && (c.info t).interfaces.contains target)

/-- Whether a value of a type may be stored where another type is wanted; array types may nest at
most `fuel` deep. -/
def isAssignableAux (c : Catalog) : (fuel : Nat) → (target source : TypeId) → Bool
  | 0, _, _ => false
  | fuel + 1, target, source =>
    if target = source then true
    else if c.isParameter target || c.isParameter source then true
    else if target = .object then !c.isVoid source
    else if c.shape source = .null then c.isReference target
    else if target.isNumeric && source.isNumeric then widens target source
    else
      match c.shape target, c.shape source with
      | .array a m, .array b n =>
        m = n && (a = b || (c.isReference a && c.isReference b && isAssignableAux c fuel a b))
      | .pointer a, .pointer b => a = b
      | .generic as, .generic bs => c.base target = c.base source && c.argsFit as bs
      | _, _ => c.inherits target source

/-- Whether a value of a type may be stored where another type is wanted. -/
def isAssignable (c : Catalog) (target source : TypeId) : Bool :=
  isAssignableAux c (c.types.size + 1) target source

def wider (a b : TypeId) : TypeId :=
  if a = .double || b = .double then .double
  else if a = .single || b = .single then .single
  else if a = .long || b = .long then .long
  else .integer

/-- The type of an expression that has two types: the one that takes the other, or else the nearest
base of both. -/
def common (c : Catalog) (a b : TypeId) : TypeId :=
  if a = b then a
  else if a.isNumeric && b.isNumeric then wider a b
  else if c.isAssignable a b then a
  else if c.isAssignable b a then b
  else ((c.bases a).find? (c.bases b).contains).getD .object

def areComparable (c : Catalog) (a b : TypeId) : Bool :=
  (a.isNumeric && b.isNumeric) || c.isAssignable a b || c.isAssignable b a

end BasicSSA.Catalog
