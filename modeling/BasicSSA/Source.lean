import BasicSSA.Loc
import BasicSSA.Path

/-!
# Source files

Files are numbered from one in the order in which their paths first appear.
-/

namespace BasicSSA

/-- The files of a compilation: their paths in normal form and the texts known for them. -/
structure Sources where
  paths : List String := []
  texts : List (Nat × String) := []
  deriving Inhabited, Repr

namespace Sources

/-- The number of the file of a path, which is new unless the normal form is known. -/
def addFile (s : Sources) (path : String) : Sources × Nat :=
  let normal := Path.normalize path
  match s.paths.findIdx? (· == normal) with
  | some i => (s, i + 1)
  | none => ({ s with paths := s.paths ++ [normal] }, s.paths.length + 1)

def path (s : Sources) (file : Nat) : String :=
  if file = 0 then "" else s.paths.getD (file - 1) ""

def addText (s : Sources) (file : Nat) (text : String) : Sources :=
  { s with texts := (file, text) :: s.texts }

end Sources

/-- The text after the first `n` line ends, if there are so many. -/
def dropLines : Nat → List Char → Option (List Char)
  | 0, cs => some cs
  | n + 1, cs =>
    match cs.dropWhile (· != '\n') with
    | [] => none
    | _ :: rest => dropLines n rest

def dropReturn (line : List Char) : List Char :=
  if line.getLast? = some '\r' then line.dropLast else line

/-- The text of a line, counted from one and without its end; empty if there is no such line. -/
def lineText (text : List Char) (line : Nat) : List Char :=
  if line = 0 then []
  else
    match dropLines (line - 1) text with
    | none => []
    | some rest => dropReturn (rest.takeWhile (· != '\n'))

namespace Sources

def line (s : Sources) (file line : Nat) : String :=
  match s.texts.lookup file with
  | none => ""
  | some text => String.ofList (lineText text.toList line)

end Sources

end BasicSSA
