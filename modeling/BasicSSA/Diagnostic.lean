import BasicSSA.Source

/-!
# Diagnostics

A log lists what was reported, in order. It prints in two forms: plainly, one line for each
diagnostic, and with the source line and a mark under the place for those that carry a code.
-/

namespace BasicSSA

inductive Severity where
  | note
  | warning
  | error
  deriving DecidableEq, Inhabited, Repr

def Severity.text : Severity → String
  | .note => "note"
  | .warning => "warning"
  | .error => "error"

/-- A message about a place in the source. The length is the number of characters to mark. -/
structure Diagnostic where
  severity : Severity
  code : Option String := none
  message : String
  loc : Loc := {}
  length : Nat := 0
  deriving DecidableEq, Inhabited, Repr

namespace Diagnostic

/-- The line for a diagnostic, with its path if the files are given. -/
def plain (d : Diagnostic) (sources : Option Sources) : String :=
  let path :=
    match sources with
    | some s => if d.loc.file = 0 then "" else s.path d.loc.file
    | none => ""
  let line := if d.loc.line = 0 then "" else ":" ++ toString d.loc.line
  let column :=
    if d.loc.line = 0 || d.loc.column = 0 then "" else ":" ++ toString d.loc.column
  let place :=
    if path == "" && d.loc.line = 0 then ""
    else (if path == "" then "<input>" else path) ++ line ++ column ++ ": "
  place ++ d.severity.text ++ ": " ++ d.message ++ "\n"

def marks (d : Diagnostic) : String :=
  repeatChar ' ' (d.loc.column - 1) ++ repeatChar '^' (if d.length = 0 then 1 else d.length)

/-- The lines for a diagnostic with a code: the message, then the source line with its marks unless
that line is empty or unknown. -/
def annotated (d : Diagnostic) (code : String) (sources : Sources) : String :=
  let path := if d.loc.file = 0 then "" else sources.path d.loc.file
  let file := if path == "" then "" else path ++ ":"
  let place :=
    if d.loc.line = 0 then (if path == "" then "" else " ")
    else toString d.loc.line ++
      (if d.loc.column = 0 then "" else ":" ++ toString d.loc.column) ++ ": "
  let line := sources.line d.loc.file d.loc.line
  let snippet := if line == "" then "" else line ++ "\n" ++ d.marks ++ "\n"
  file ++ place ++ d.severity.text ++ "[" ++ code ++ "]: " ++ d.message ++ "\n" ++ snippet

end Diagnostic

/-- The diagnostics of a run, in the order in which they were reported. -/
structure Log where
  entries : Array Diagnostic := #[]
  deriving Inhabited, Repr

namespace Log

def add (log : Log) (d : Diagnostic) : Log :=
  ⟨log.entries.push d⟩

def count (log : Log) (severity : Severity) : Nat :=
  log.entries.countP (·.severity == severity)

def errorCount (log : Log) : Nat :=
  log.count .error

def warningCount (log : Log) : Nat :=
  log.count .warning

def plain (log : Log) (sources : Option Sources) : String :=
  String.join (log.entries.toList.map (·.plain sources))

def annotated (log : Log) (sources : Sources) : String :=
  String.join <| log.entries.toList.map fun d =>
    match d.code with
    | some code => d.annotated code sources
    | none => ""

end Log

end BasicSSA
