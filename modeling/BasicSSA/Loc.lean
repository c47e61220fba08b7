/-!
# Source locations
-/

namespace BasicSSA

/-- A position in a source file. Lines and columns count from one, columns in bytes; zero stands
for an unknown file, line or column. -/
structure Loc where
  file : Nat := 0
  line : Nat := 0
  column : Nat := 0
  deriving DecidableEq, Inhabited, Repr

namespace Loc

def hasFile (l : Loc) : Bool :=
  l.file != 0

def hasLine (l : Loc) : Bool :=
  l.line != 0

def hasColumn (l : Loc) : Bool :=
  l.column != 0

/-- The order of positions by line and then by column, whatever the files. -/
def precedes (a b : Loc) : Bool :=
  a.line < b.line || (a.line == b.line && a.column < b.column)

def advance (l : Loc) (c : Char) : Loc :=
  if c = '\n' then { l with line := l.line + 1, column := 1 }
  else { l with column := l.column + 1 }

def skip (l : Loc) (cs : List Char) : Loc :=
  cs.foldl advance l

def start (file : Nat) : Loc :=
  { file, line := 1, column := 1 }

end Loc

end BasicSSA
