import BasicSSA.Syntax.Stmt

/-!
# Loops around a statement
-/

namespace BasicSSA

/-- A loop around a statement, with the numbers of the blocks after it and of its next round. -/
structure LoopFrame where
  kind : ExitKind
  leave : Nat
  next : Nat
  deriving DecidableEq, Inhabited, Repr

/-- The loops around a statement, innermost first. -/
abbrev LoopStack := List LoopFrame

def LoopStack.innermost? (s : LoopStack) (kind : ExitKind) : Option LoopFrame :=
  s.find? (·.kind = kind)

end BasicSSA
