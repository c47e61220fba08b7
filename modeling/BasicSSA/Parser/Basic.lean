import BasicSSA.Syntax.Decl
import BasicSSA.Token.Lexer

/-!
# Parsers over tokens

A parser reads from a token stream, a list of tokens whose last one marks the end of the input. It
stops at the first error. Repetition is bounded by the number of tokens left, since each round
takes at least one of them.
-/

namespace BasicSSA

/-- What a parser meets in place of what it expects. -/
inductive Found where
  | endOfInput
  | endOfLine
  | lexeme (s : String)
  deriving DecidableEq, Repr

namespace Found

def ofToken (t : Token) : Found :=
  match t.kind with
  | .endOfFile => endOfInput
  | .newline => endOfLine
  | _ => lexeme t.lexeme

def text : Found → String
  | endOfInput => "end of input"
  | endOfLine => "end of line"
  | lexeme s => "'" ++ s ++ "'"

end Found

inductive SyntaxProblem where
  | expected (what : String) (found : Found)
  | invalidTarget
  /-- The expression in an interpolated string has no tokens. -/
  | lexical (problem : LexProblem)
  /-- A bound on nesting or repetition was too small. -/
  | outOfFuel
  deriving DecidableEq, Repr

def SyntaxProblem.message : SyntaxProblem → String
  | .expected what found => "Expected " ++ what ++ " but found " ++ found.text
  | .invalidTarget => "Invalid assignment target"
  | .lexical problem => problem.message
  | .outOfFuel => "Expression or statement nested too deeply"

structure SyntaxError where
  problem : SyntaxProblem
  loc : Loc
  deriving DecidableEq, Repr

def SyntaxError.message (e : SyntaxError) : String :=
  e.problem.message

/-- A parser reads from a token stream and gives what it read, or an error. -/
abbrev Parser := StateT (List Token) (Except SyntaxError)

namespace Parser

variable {α β : Type}

def endToken : Token :=
  .endAt {}

/-- The stream of a token list: without comments and directives, and with an end token. -/
def stream (tokens : List Token) : List Token :=
  let tokens := tokens.filter fun t => !t.kind.isTrivia
  match tokens.getLast? with
  | none => [endToken]
  | some last =>
    if last.kind = .endOfFile then tokens else tokens ++ [.endAt last.loc]

def peek : Parser Token :=
  fun ts => .ok (ts.headD endToken, ts)

def peekSecond : Parser Token :=
  fun ts =>
    match ts with
    | _ :: t :: _ => .ok (t, ts)
    | _ => .ok (ts.headD endToken, ts)

/-- Takes the next token. The last token of a stream stays. -/
def consume : Parser Token :=
  fun ts =>
    match ts with
    | t :: u :: rest => .ok (t, u :: rest)
    | _ => .ok (ts.headD endToken, ts)

def failAt (loc : Loc) (problem : SyntaxProblem) : Parser α :=
  fun _ => .error ⟨problem, loc⟩

def unexpected (what : String) : Parser α := do
  let t ← peek
  failAt t.loc (.expected what (Found.ofToken t))

def outOfFuel : Parser α := do
  let t ← peek
  failAt t.loc .outOfFuel

def isAt (kind : TokenKind) : Parser Bool := do
  return (← peek).kind = kind

/-- Takes the next token if it has a kind, and tells whether it did. -/
def accept (kind : TokenKind) : Parser Bool := do
  if ← isAt kind then
    let _ ← consume
    return true
  else return false

def expect (kind : TokenKind) (what : String) : Parser Unit := do
  if ← accept kind then return () else unexpected what

def identifier (what : String) : Parser String := do
  if ← isAt .identifier then return (← consume).lexeme else unexpected what

def skipNewlines : Parser Unit :=
  modify fun ts => ts.dropWhile (·.kind = .newline)

def atStatementEnd : Parser Bool := do
  let kind := (← peek).kind
  return kind = .newline || kind = .endOfFile || kind = .keyword .else_

/-- Reads items as long as the next token asks for one. -/
def whileAux (more : TokenKind → Bool) (item : Parser α) : (fuel : Nat) → Parser (List α)
  | 0 => outOfFuel
  | fuel + 1 => do
    if more (← peek).kind then
      let x ← item
      let xs ← whileAux more item fuel
      return x :: xs
    else return []

@[inherit_doc whileAux]
def whileNext (more : TokenKind → Bool) (item : Parser α) : Parser (List α) := do
  whileAux more item ((← get).length + 1)

/-- Reads items with commas between them. -/
def commaAux (item : Parser α) : (fuel : Nat) → Parser (List α)
  | 0 => outOfFuel
  | fuel + 1 => do
    let x ← item
    if ← accept (.mark .comma) then
      let xs ← commaAux item fuel
      return x :: xs
    else return [x]

@[inherit_doc commaAux]
def commaSeparated (item : Parser α) : Parser (List α) := do
  commaAux item ((← get).length + 1)

/-- Reads items, possibly none, with commas between them up to a closing token. -/
def itemsUpTo (close : TokenKind) (what : String) (item : Parser α) : Parser (List α) := do
  let items ← if ← isAt close then pure [] else commaSeparated item
  expect close what
  return items

/-- Reads an item if the next token has a kind, which it takes. -/
def optionalAfter (kind : TokenKind) (item : Parser α) : Parser (Option α) := do
  if ← accept kind then return some (← item) else return none

/-- Identifiers with dots between them, as one text. A dot that no identifier follows stays. -/
def dottedName (what : String) : Parser String := do
  let first ← identifier what
  let segment : Parser String := do
    let _ ← consume
    return "." ++ (← consume).lexeme
  let rec segments : (fuel : Nat) → Parser (List String)
    | 0 => outOfFuel
    | fuel + 1 => do
      if (← isAt (.mark .dot)) && (← peekSecond).kind = .identifier then
        let s ← segment
        let more ← segments fuel
        return s :: more
      else return []
  return first ++ String.join (← segments ((← get).length + 1))

end Parser

end BasicSSA
