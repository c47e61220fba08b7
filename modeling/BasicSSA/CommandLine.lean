import BasicSSA.Compile
import BasicSSA.Syntax.Printer

/-!
# The command line

A run of the command reads at most one file, so what it prints is a function of its arguments and of
the text of that file.
-/

namespace BasicSSA.CommandLine

inductive Command where
  | lex | ast | check | il
  deriving DecidableEq, Inhabited, Repr

def Command.ofText? : String → Option Command
  | "lex" => some .lex
  | "ast" => some .ast
  | "check" => some .check
  | "il" => some .il
  | _ => none

structure Options extends CompileOptions where
  command : Command
  path : String := ""
  trace : Bool := false
  deriving Inhabited, Repr

inductive ArgError where
  | tooFew
  | unknownCommand (command : String)
  | moduleWithoutName
  | unknownOption (option : String)
  | unexpected (arg : String)
  | missingFile
  deriving DecidableEq, Repr

def usage : String :=
  "Usage: basalt <lex|ast|check|il> <file.bas> [--no-phi] [--no-verify] [--trace]" ++
  " [--module NAME]\n" ++
  "  lex    print the token stream\n" ++
  "  ast    print the syntax tree\n" ++
  "  check  analyze and report diagnostics\n" ++
  "  il     compile and print the IL module\n"

def ArgError.message : ArgError → String
  | .tooFew => usage
  | .unknownCommand command => "unknown command '" ++ command ++ "'\n" ++ usage
  | .moduleWithoutName => "--module requires a name\n"
  | .unknownOption option => "unknown option '" ++ option ++ "'\n"
  | .unexpected arg => "unexpected argument '" ++ arg ++ "'\n"
  | .missingFile => "missing input file\n" ++ usage

def readOptions (o : Options) : List String → Except ArgError Options
  | [] => if o.path.isEmpty then .error .missingFile else .ok o
  | "--no-phi" :: rest => readOptions { o with placePhis := false } rest
  | "--no-verify" :: rest => readOptions { o with verify := false } rest
  | "--trace" :: rest => readOptions { o with trace := true } rest
  | ["--module"] => .error .moduleWithoutName
  | "--module" :: name :: rest => readOptions { o with moduleName := name } rest
  | arg :: rest =>
    if arg.toList.head? = some '-' then .error (.unknownOption arg)
    else if o.path.isEmpty then readOptions { o with path := arg } rest
    else .error (.unexpected arg)

def readArgs : List String → Except ArgError Options
  | command :: arg :: rest =>
    match Command.ofText? command with
    | none => .error (.unknownCommand command)
    | some command => readOptions { command } (arg :: rest)
  | _ => .error .tooFew

structure Outcome where
  succeeded : Bool
  out : String := ""
  err : String := ""
  deriving DecidableEq, Inhabited, Repr

def failed (err : String) : Outcome :=
  { succeeded := false, err }

/-- The largest source file that is read, in bytes. -/
def sizeLimit : Nat :=
  64 * 1024 * 1024

def failedPlainly (message : String) : Outcome :=
  failed (Diagnostic.plain { severity := .error, message } none)

def failedWith (sources : Sources) (f : Fatal) : Outcome :=
  failed (({} : Log).add f.diagnostic |>.annotated sources)

def tokenLine (t : Token) : String :=
  let lexeme := if t.lexeme.isEmpty || t.kind = .newline then "" else " " ++ t.lexeme
  toString t.loc.line ++ ":" ++ toString t.loc.column ++ " " ++ t.kind.name ++ lexeme ++ "\n"

def listTokens (sources : Sources) (file : Nat) (text : String) : Outcome :=
  match tokenize text file with
  | .error e => failedWith sources (.lexical e)
  | .ok tokens => { succeeded := true, out := String.join (tokens.map tokenLine) }

def printTree (sources : Sources) (file : Nat) (text : String) : Outcome :=
  match tokenize text file with
  | .error e => failedWith sources (.lexical e)
  | .ok tokens =>
    match parse tokens with
    | .error e => failedWith sources (.syntactic e)
    | .ok program => { succeeded := true, out := program.text }

def traceText (notes : List Progress) : String :=
  String.join (notes.map fun note => "[basalt] " ++ note.text ++ "\n")

def report (o : Options) (sources : Sources) (file : Nat) (text : String) : Outcome :=
  let c := compileFile o.toCompileOptions sources file text
  let err := (if o.trace then traceText c.progress else "") ++ c.log.annotated c.sources
  if !c.succeeded then failed err
  else if o.command = .il then { succeeded := true, out := c.module.text?.getD "", err }
  else
    { succeeded := true, err,
      out := o.path ++ ": ok (" ++ toString c.log.warningCount ++ " warning(s))\n" }

/-- Runs a command on the text of its file; there is no text if the file cannot be opened. -/
def execute (o : Options) : Option String → Outcome
  | none => failedPlainly ("unable to open " ++ o.path)
  | some text =>
    if sizeLimit < text.length then
      failedPlainly ("source file too large: " ++ o.path ++ " (limit: 64 MB)")
    else
      let (sources, file) := Sources.addFile {} o.path
      let sources := sources.addText file text
      match o.command with
      | .lex => listTokens sources file text
      | .ast => printTree sources file text
      | .check | .il => report o sources file text

/-- Runs the command, where a function tells the texts of files. -/
def run (text? : String → Option String) (args : List String) : Outcome :=
  match readArgs args with
  | .error e => failed e.message
  | .ok o => execute o (text? o.path)

end BasicSSA.CommandLine
