import BasicSSA.IL.Phi
import BasicSSA.IL.Printer
import BasicSSA.IL.Verifier
import BasicSSA.Lower.Program
import BasicSSA.Parser.Decl
import BasicSSA.Token.Lexer

/-!
# Compilation

A source is lexed, parsed, analysed, lowered, given phis and verified. The first of these that finds
an error ends the compilation.
-/

namespace BasicSSA

inductive Progress where
  | lex
  | tokens (count : Nat)
  | parse
  | analyze
  | rejected (errors : Nat)
  | lower
  | phis (stats : IL.PhiStats)
  | verify
  deriving DecidableEq, Repr

def Progress.text : Progress → String
  | .lex => "lex"
  | .tokens count => toString count ++ " tokens"
  | .parse => "parse"
  | .analyze => "analyze"
  | .rejected errors => toString errors ++ " semantic error(s)"
  | .lower => "lower"
  | .phis stats =>
    "phi: " ++ toString stats.inserted ++ " inserted, " ++ toString stats.renamed ++ " renamed"
  | .verify => "verify"

/-- What ends a compilation, apart from what analysis finds. -/
inductive Fatal where
  | lexical (e : LexError)
  | syntactic (e : SyntaxError)
  /-- A lowered program is not as it should be. -/
  | lowering (e : LowerError)
  | verification (e : IL.VerifyError)
  deriving DecidableEq, Repr

def Fatal.diagnostic (f : Fatal) : Diagnostic :=
  let internal (message : String) : Diagnostic :=
    { severity := .error, code := some "B9000", message := "Internal error: " ++ message }
  match f with
  | .lexical e =>
    { severity := .error, code := some "B1001", message := e.problem.message, loc := e.loc }
  | .syntactic e => { severity := .error, code := some "B0001", message := e.message, loc := e.loc }
  | .lowering e => internal e.message
  | .verification e => internal e.message

structure CompileOptions where
  moduleName : String := "main"
  placePhis : Bool := true
  verify : Bool := true
  deriving Inhabited, Repr

structure Compilation where
  sources : Sources
  progress : List Progress := []
  log : Log := {}
  module : IL.Module := {}
  deriving Inhabited, Repr

namespace Compilation

def succeeded (c : Compilation) : Bool :=
  c.log.errorCount = 0

def noting (c : Compilation) (notes : List Progress) : Compilation :=
  { c with progress := c.progress ++ notes }

def failing (c : Compilation) (f : Fatal) : Compilation :=
  { c with log := c.log.add f.diagnostic }

/-- Gives a lowered module phis and verifies it, as the options ask. -/
def finish (c : Compilation) (options : CompileOptions) (m : IL.Module) : Compilation :=
  let (m, stats) := if options.placePhis then m.placePhis else (m, {})
  let c := if options.placePhis then c.noting [.phis stats] else c
  let c := if options.verify then c.noting [.verify] else c
  match if options.verify then IL.verify m else .ok () with
  | .error e => c.failing (.verification e)
  | .ok _ => { c with module := m }

end Compilation

def compileFile (options : CompileOptions) (sources : Sources) (file : Nat) (text : String) :
    Compilation :=
  let c : Compilation := { sources := sources.addText file text, progress := [.lex] }
  match tokenize text file with
  | .error e => c.failing (.lexical e)
  | .ok tokens =>
    let c := c.noting [.tokens tokens.length, .parse]
    match parse tokens with
    | .error e => c.failing (.syntactic e)
    | .ok program =>
      let a := analyze program
      let c := { c.noting [.analyze] with log := a.log }
      if !a.isAccepted then c.noting [.rejected a.log.errorCount]
      else
        let c := c.noting [.lower]
        match lower a options.moduleName with
        | .error e => c.failing (.lowering e)
        | .ok m => c.finish options m

/-- Compiles a text. A path names it in diagnostics. -/
def compile (options : CompileOptions) (path text : String) : Compilation :=
  let (sources, file) := Sources.addFile {} (if path.isEmpty then "<input>" else path)
  compileFile options sources file text

end BasicSSA
