import BasicSSA.Text
import BasicSSA.Types.Catalog

/-!
# Names in a procedure

A procedure gives names to its blocks and to its variables, and versions to the values of a
variable. No two variables have the same name, whatever the case of its letters.
-/

namespace BasicSSA

/-- The names and versions that a procedure has used so far. In each list the first entry of a key
counts. -/
structure Names where
  /-- How many blocks were named after a hint. -/
  labels : List (String × Nat) := []
  varNames : List (SymbolId × String) := []
  /-- The names in use, folded, each with the next number to put behind it. -/
  used : List (String × Nat) := []
  /-- The version that a variable has now. -/
  current : List (String × Nat) := []
  /-- The last version that a variable was given. -/
  latest : List (String × Nat) := []
  deriving Inhabited, Repr

namespace Names

def label (n : Names) (hint : String) : String × Names :=
  let count := (n.labels.lookup hint).getD 0
  (if count = 0 then hint else hint ++ "." ++ toString count,
    { n with labels := (hint, count + 1) :: n.labels })

def isUsed (n : Names) (name : String) : Bool :=
  (n.used.lookup (foldCase name)).isSome

def numbered (base : String) (k : Nat) : String :=
  base ++ "_" ++ toString k

/-- The first number from `k` on whose name is free, among `fuel` many. -/
def freeNumberAux (n : Names) (base : String) : (fuel : Nat) → (k : Nat) → Nat
  | 0, k => k
  | fuel + 1, k => if n.isUsed (numbered base k) then freeNumberAux n base fuel (k + 1) else k

/-- The first number from `k` on whose name is free. -/
def freeNumber (n : Names) (base : String) (k : Nat) : Nat :=
  freeNumberAux n base (n.used.length + 1) k

/-- A free name: the wanted one, or else the wanted one with a number. -/
def fresh (n : Names) (base : String) : String × Names :=
  match n.used.lookup (foldCase base) with
  | none => (base, { n with used := (foldCase base, 1) :: n.used })
  | some next =>
    let k := n.freeNumber base next
    let name := numbered base k
    (name, { n with used := (foldCase name, 1) :: (foldCase base, k + 1) :: n.used })

/-- The name of a variable, which is chosen when it is first asked for. -/
def nameOf (n : Names) (x : SymbolId) (wanted : String) : String × Names :=
  match n.varNames.lookup x with
  | some name => (name, n)
  | none =>
    let (name, n) := n.fresh wanted
    (name, { n with varNames := (x, name) :: n.varNames })

/-- The version of a variable that is read now; 0 before it is written. -/
def version (n : Names) (name : String) : Nat :=
  (n.current.lookup name).getD 0

def newVersion (n : Names) (name : String) : Nat × Names :=
  let version := (n.latest.lookup name).getD 0 + 1
  (version, { n with latest := (name, version) :: n.latest,
                     current := (name, version) :: n.current })

end Names

end BasicSSA
