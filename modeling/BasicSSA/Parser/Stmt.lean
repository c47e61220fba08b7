import BasicSSA.Parser.Expr

/-!
# Parsing statements

Each compound statement is a parser over the parsers of the statements in it. They are tied
together at the end, by a bound on how deep statements nest.
-/

namespace BasicSSA.Parser

/-- Statements, each on a line of its own, up to a closing token or the end of the input. -/
def blockAux (statement : Parser (Stmt Loc)) (close : TokenKind → Bool) :
    (fuel : Nat) → Parser (List (Stmt Loc))
  | 0 => outOfFuel
  | fuel + 1 => do
    skipNewlines
    let kind := (← peek).kind
    if kind = .endOfFile || close kind then return []
    else
      let s ← statement
      if (← atStatementEnd) || close (← peek).kind then
        let ss ← blockAux statement close fuel
        return s :: ss
      else unexpected "end of statement"

@[inherit_doc blockAux]
def blockOf (statement : Parser (Stmt Loc)) (close : TokenKind → Bool) :
    Parser (List (Stmt Loc)) := do
  blockAux statement close ((← get).length + 1)

def arrayDims (inWith : Bool) : Parser (List (Option Nat)) :=
  whileNext (· = .mark .leftBracket) do
    let _ ← consume
    let size ←
      if ← isAt (.mark .rightBracket) then pure none
      else
        match ← expression inWith with
        | .literal _ (.integer n) => pure (some n.val)
        | _ => pure none
    expect (.mark .rightBracket) "']'"
    return size

/-- A variable or a field after its modifiers and `Dim`: `name[dims] As T = init`. -/
def field (inWith : Bool) (modifiers : Modifiers) : Parser (VarDecl Loc) := do
  let loc := (← peek).loc
  let name ← identifier "variable name"
  let dims ← arrayDims inWith
  expect (.keyword .as_) "'As'"
  let type ← typeRef
  let init ← optionalAfter (.mark .equal) (expression inWith)
  return { info := loc, name, type := some (type.withDims dims), init, modifiers }

/-- A variable with the type of its value: `Auto name = init`. -/
def autoVar (inWith : Bool) : Parser (VarDecl Loc) := do
  let loc := (← consume).loc
  let name ← identifier "variable name"
  let init ← optionalAfter (.mark .equal) (expression inWith)
  return { info := loc, name, init, isAuto := true }

/-- A constant: `Const NAME As T = value`. -/
def constant (inWith : Bool) : Parser (ConstDecl Loc) := do
  let loc := (← consume).loc
  let name ← identifier "constant name"
  expect (.keyword .as_) "'As'"
  let type ← typeRef
  let value ← optionalAfter (.mark .equal) (expression inWith)
  return { info := loc, name, type, value }

/-! ### Conditionals -/

def closesArm (kind : TokenKind) : Bool :=
  kind = .keyword .elseIf || kind = .keyword .else_ || kind = .blockEnd .if_

def elseArmsAux (inWith : Bool) (statement : Parser (Stmt Loc)) : (fuel : Nat) → Parser (Else Loc)
  | 0 => outOfFuel
  | fuel + 1 => do
    let t ← peek
    if t.kind = .keyword .elseIf then
      let _ ← consume
      let cond ← expression inWith
      expect (.keyword .then_) "'Then' after ElseIf condition"
      let body ← blockOf statement closesArm
      return .elseIf t.loc cond body (← elseArmsAux inWith statement fuel)
    else if ← accept (.keyword .else_) then
      return .block (← blockOf statement (· = .blockEnd .if_))
    else return .nothing

/-- An `If`. With a newline after `Then` it is a block up to `End If`; otherwise one statement
follows, and one more after an `Else`. -/
def ifThen (inWith : Bool) (statement : Parser (Stmt Loc)) : Parser (Stmt Loc) := do
  let loc := (← consume).loc
  let cond ← expression inWith
  expect (.keyword .then_) "'Then'"
  if ← isAt .newline then
    let body ← blockOf statement closesArm
    let orElse ← elseArmsAux inWith statement ((← get).length + 1)
    expect (.blockEnd .if_) "'End If'"
    return .ifThen loc cond body orElse
  else
    let first ← statement
    let second ← optionalAfter (.keyword .else_) statement
    return .ifThen loc cond [first] (second.elim .nothing fun s => .block [s])

def caseArm (inWith : Bool) (statement : Parser (Stmt Loc)) : Parser (Case Loc) := do
  let loc := (← consume).loc
  let body := blockOf statement fun kind => kind = .keyword .case || kind = .blockEnd .select
  if ← accept (.keyword .else_) then return .otherwise loc (← body)
  else
    let values ← commaSeparated (expression inWith)
    return .values loc values (← body)

def select (inWith : Bool) (statement : Parser (Stmt Loc)) : Parser (Stmt Loc) := do
  let loc := (← consume).loc
  expect (.keyword .case) "'Case' after 'Select'"
  let subject ← expression inWith
  skipNewlines
  let cases ← whileNext (· = .keyword .case) (caseArm inWith statement)
  expect (.blockEnd .select) "'End Select'"
  return .select loc subject cases

/-! ### Loops -/

/-- The body of a `For` loop, with the `Next` after it and the variable that it may repeat. -/
def forBody (statement : Parser (Stmt Loc)) : Parser (List (Stmt Loc)) := do
  let body ← blockOf statement (· = .keyword .next)
  expect (.keyword .next) "'Next'"
  let _ ← accept .identifier
  return body

/-- A `For` loop over numbers, or over the elements of a collection with `For Each`. -/
def forLoop (inWith : Bool) (statement : Parser (Stmt Loc)) : Parser (Stmt Loc) := do
  let loc := (← consume).loc
  if ← accept (.keyword .each) then
    let var ← identifier "loop variable"
    let varType ← optionalAfter (.keyword .as_) typeRef
    expect (.keyword .in_) "'In'"
    let collection ← expression inWith
    return .forEach loc var varType collection (← forBody statement)
  else
    let var ← identifier "loop variable"
    expect (.mark .equal) "'=' after loop variable"
    let start ← expression inWith
    expect (.keyword .to_) "'To'"
    let stop ← expression inWith
    let step ← optionalAfter (.keyword .step) (expression inWith)
    return .forLoop loc var start stop step (← forBody statement)

/-- A `While` loop, closed by `Wend` or `End While`. -/
def whileLoop (inWith : Bool) (statement : Parser (Stmt Loc)) : Parser (Stmt Loc) := do
  let loc := (← consume).loc
  let cond ← expression inWith
  let body ← blockOf statement fun kind => kind = .keyword .wend || kind = .keyword .end_
  if (← isAt (.keyword .end_)) && (← peekSecond).kind = .keyword .while_ then
    let _ ← consume
    let _ ← consume
  else expect (.keyword .wend) "'Wend'"
  return .whileLoop loc cond body

/-- The test of a `Do` loop, if it is written here. -/
def loopTest (inWith atTop : Bool) : Parser (Option (LoopTest Loc)) := do
  if ← accept (.keyword .while_) then
    return some { atTop, isWhile := true, cond := ← expression inWith }
  else if ← accept (.keyword .until_) then
    return some { atTop, isWhile := false, cond := ← expression inWith }
  else return none

/-- A `Do` loop. Its test stands after `Do` or after `Loop`. -/
def doLoop (inWith : Bool) (statement : Parser (Stmt Loc)) : Parser (Stmt Loc) := do
  let loc := (← consume).loc
  let top ← loopTest inWith true
  let body ← blockOf statement (· = .keyword .loop)
  expect (.keyword .loop) "'Loop'"
  let test ← if top.isSome then pure top else loopTest inWith false
  return .doLoop loc test body

def exitKind? : TokenKind → Option ExitKind
  | .keyword .for_ => some .forLoop
  | .keyword .do_ => some .doLoop
  | .keyword .while_ => some .whileLoop
  | .keyword .sub => some .sub
  | .keyword .function => some .function
  | _ => none

def exit : Parser (Stmt Loc) := do
  let loc := (← consume).loc
  match exitKind? (← peek).kind with
  | some kind =>
    let _ ← consume
    return .exit loc kind
  | none => unexpected "'For', 'Do', 'While', 'Sub' or 'Function' after 'Exit'"

/-! ### Other statements -/

def closesTryArm (kind : TokenKind) : Bool :=
  kind = .keyword .catch_ || kind = .keyword .finally_ || kind = .blockEnd .try_

def catchArm (statement : Parser (Stmt Loc)) : Parser (Catch Loc) := do
  let loc := (← consume).loc
  if ← isAt .identifier then
    let var := (← consume).lexeme
    let type ← optionalAfter (.keyword .as_) typeRef
    return .mk loc (some var) type (← blockOf statement closesTryArm)
  else return .mk loc none none (← blockOf statement closesTryArm)

def tryCatch (statement : Parser (Stmt Loc)) : Parser (Stmt Loc) := do
  let loc := (← consume).loc
  let body ← blockOf statement closesTryArm
  let catches ← whileNext (· = .keyword .catch_) (catchArm statement)
  let last ← optionalAfter (.keyword .finally_) (blockOf statement (· = .blockEnd .try_))
  expect (.blockEnd .try_) "'End Try'"
  return .tryCatch loc body catches last

def withBlock (inWith : Bool) (inside : Parser (Stmt Loc)) : Parser (Stmt Loc) := do
  let loc := (← consume).loc
  let target ← expression inWith
  let body ← blockOf inside (· = .blockEnd .with_)
  expect (.blockEnd .with_) "'End With'"
  return .withBlock loc target body

def optionalValue (inWith : Bool) : Parser (Option (Expr Loc)) := do
  if ← atStatementEnd then return none else return some (← expression inWith)

def assignOp? : TokenKind → Option AssignOp
  | .mark .equal => some .assign
  | .mark .plusAssign => some .add
  | .mark .minusAssign => some .sub
  | .mark .starAssign => some .mul
  | .mark .slashAssign => some .div
  | _ => none

def isTarget : Expr Loc → Bool
  | .name .. | .member .. | .withMember .. | .index .. => true
  | _ => false

/-- The first operand of a statement: what it assigns to, or the start of its expression. -/
def target (inWith : Bool) : Parser (Expr Loc) := do
  let t ← peek
  match t.kind with
  | .mark .plusPlus =>
    let _ ← consume
    return .unary t.loc .preInc (← suffixed inWith)
  | .mark .minusMinus =>
    let _ ← consume
    return .unary t.loc .preDec (← suffixed inWith)
  | _ => suffixed inWith

/-- An assignment, or an expression as a statement. -/
def assignment (inWith : Bool) : Parser (Stmt Loc) := do
  let loc := (← peek).loc
  let lhs ← target inWith
  match assignOp? (← peek).kind with
  | some op =>
    if isTarget lhs then
      let _ ← consume
      return .assign loc lhs op (← expression inWith)
    else failAt lhs.info .invalidTarget
  | none => return .expr loc (← climb (operand inWith) lhs)

/-- A statement with at most `fuel` statements nested in one another. -/
def statementAux : (fuel : Nat) → (inWith : Bool) → Parser (Stmt Loc)
  | 0, _ => outOfFuel
  | fuel + 1, inWith => do
    let t ← peek
    match t.kind with
    | .keyword .if_ => ifThen inWith (statementAux fuel inWith)
    | .keyword .select => select inWith (statementAux fuel inWith)
    | .keyword .for_ => forLoop inWith (statementAux fuel inWith)
    | .keyword .while_ => whileLoop inWith (statementAux fuel inWith)
    | .keyword .do_ => doLoop inWith (statementAux fuel inWith)
    | .keyword .try_ => tryCatch (statementAux fuel inWith)
    | .keyword .with_ => withBlock inWith (statementAux fuel true)
    | .keyword .throw =>
      let _ ← consume
      return .throw t.loc (← optionalValue inWith)
    | .keyword .return_ =>
      let _ ← consume
      return .return_ t.loc (← optionalValue inWith)
    | .keyword .exit => exit
    | .keyword .dim =>
      let _ ← consume
      return .var (← field inWith {})
    | .keyword .auto => return .var (← autoVar inWith)
    | .keyword .const => return .const (← constant inWith)
    | _ => assignment inWith

def block (close : TokenKind → Bool) : Parser (List (Stmt Loc)) := do
  blockOf (statementAux ((← get).length + 1) false) close

end BasicSSA.Parser
