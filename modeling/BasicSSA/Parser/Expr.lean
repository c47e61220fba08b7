import BasicSSA.Parser.TypeRef
import BasicSSA.Token.Interpolation

/-!
# Parsing expressions

Binary operators are read by precedence climbing over operands. An operand is a prefix operator
with its operand, or a primary expression with its suffixes. The expressions in an interpolated
string are read from their own tokens, all of which stand at the position of the string.
-/

namespace BasicSSA.Parser

/-- The binary operator that a token writes and its precedence, from 1 for the loosest. -/
def binaryOp? : TokenKind → Option (BinaryOp × Nat)
  | .keyword .or | .mark .pipePipe => some (.or, 1)
  | .keyword .and | .mark .ampAmp => some (.and, 2)
  | .mark .equal | .mark .equalEqual => some (.eq, 3)
  | .mark .notEqual | .mark .bangEqual => some (.ne, 3)
  | .mark .less => some (.lt, 4)
  | .mark .lessEqual => some (.le, 4)
  | .mark .greater => some (.gt, 4)
  | .mark .greaterEqual => some (.ge, 4)
  | .mark .plus => some (.add, 5)
  | .mark .minus => some (.sub, 5)
  | .mark .amp => some (.concat, 5)
  | .mark .star => some (.mul, 6)
  | .mark .slash => some (.div, 6)
  | .mark .backslash => some (.intDiv, 6)
  | .mark .percent | .keyword .mod => some (.mod, 6)
  | _ => none

def leadingOp? : TokenKind → Option UnaryOp
  | .keyword .not | .mark .bang => some .not
  | .mark .minus => some .neg
  | .mark .plus => some .plus
  | .mark .plusPlus => some .preInc
  | .mark .minusMinus => some .preDec
  | _ => none

def trailingOp? : TokenKind → Option UnaryOp
  | .mark .plusPlus => some .postInc
  | .mark .minusMinus => some .postDec
  | .mark .caret => some .deref
  | _ => none

def literal? (t : Token) : Option Literal :=
  match t.kind, t.value with
  | .integer, some (.integer n) => some (.integer (Fin.ofNat _ n))
  | .integer, _ => some (.integer 0)
  | .long, some (.long n) => some (.long (Fin.ofNat _ n))
  | .long, _ => some (.long 0)
  | .single, some (.single x) => some (.single x)
  | .single, _ => some (.single default)
  | .double, some (.double x) => some (.double x)
  | .double, _ => some (.double default)
  | .string, some (.text s) => some (.string s)
  | .string, _ => some (.string "")
  | .boolean, some (.boolean b) => some (.boolean b)
  | .boolean, _ => some (.boolean false)
  | .nothing, _ => some .nothing
  | _, _ => none

/-- Adds binary operators of at least some precedence, and their right operands, to a left
operand. A right operand takes the operators after it that bind tighter first. -/
def climbAux (operand : Parser (Expr Loc)) :
    (fuel : Nat) → Expr Loc → (least : Nat) → Parser (Expr Loc)
  | 0, _, _ => outOfFuel
  | fuel + 1, lhs, least => do
    let t ← peek
    match binaryOp? t.kind with
    | none => return lhs
    | some (op, precedence) =>
      if precedence < least then return lhs
      else
        let _ ← consume
        let rhs ← operand
        let rhs ←
          match binaryOp? (← peek).kind with
          | none => pure rhs
          | some (_, next) =>
            if precedence < next then climbAux operand fuel rhs (precedence + 1) else pure rhs
        climbAux operand fuel (.binary t.loc op lhs rhs) least

/-- Adds all binary operators that follow to a left operand. -/
def climb (operand : Parser (Expr Loc)) (lhs : Expr Loc) : Parser (Expr Loc) := do
  climbAux operand ((← get).length + 1) lhs 1

def expressionOf (operand : Parser (Expr Loc)) : Parser (Expr Loc) := do
  climb operand (← operand)

/-- An expression that is all there is, with newlines around it. -/
def standaloneOf (expression : Parser (Expr Loc)) : Parser (Expr Loc) := do
  skipNewlines
  let e ← expression
  skipNewlines
  if ← isAt .endOfFile then return e else unexpected "end of expression"

/-- The name of a member after a dot; it may be a reserved word. -/
def memberName : Parser String := do
  if (← peek).kind.isWord then return (← consume).lexeme
  else unexpected "member name after '.'"

def arguments (expression : Parser (Expr Loc)) : Parser (List (Expr Loc)) :=
  itemsUpTo (.mark .rightParen) "')' after arguments" expression

def indices (expression : Parser (Expr Loc)) : Parser (List (Expr Loc)) := do
  let groups ← whileNext (· = .mark .leftBracket) do
    let _ ← consume
    let group ← commaSeparated expression
    expect (.mark .rightBracket) "']' after index"
    return group
  return groups.flatten

/-- Adds the suffixes that follow to an expression. -/
def suffixesAux (expression : Parser (Expr Loc)) : (fuel : Nat) → Expr Loc → Parser (Expr Loc)
  | 0, _ => outOfFuel
  | fuel + 1, base => do
    let kind := (← peek).kind
    if kind = .mark .leftParen then
      let _ ← consume
      let typeArgs ←
        if ← accept (.keyword .of) then
          let types ← commaSeparated typeRef
          expect (.mark .rightParen) "')' after type arguments"
          expect (.mark .leftParen) "'(' before arguments"
          pure types
        else pure []
      let args ← arguments expression
      suffixesAux expression fuel (.call base.info base typeArgs args)
    else if kind = .mark .leftBracket then
      let is ← indices expression
      suffixesAux expression fuel (.index base.info base is)
    else if kind = .mark .dot then
      let _ ← consume
      let name ← memberName
      suffixesAux expression fuel (.member base.info base name)
    else
      match trailingOp? kind with
      | some op =>
        let _ ← consume
        suffixesAux expression fuel (.unary base.info op base)
      | none => return base

@[inherit_doc suffixesAux]
def suffixes (expression : Parser (Expr Loc)) (base : Expr Loc) : Parser (Expr Loc) := do
  suffixesAux expression ((← get).length + 1) base

def part (expression : Parser (Expr Loc)) (loc : Loc) :
    Interpolation.Piece → Except SyntaxError (Part Loc)
  | .text s => .ok (.text s)
  | .expr source =>
    match tokenize source loc.file with
    | .error e => .error ⟨.lexical e.problem, loc⟩
    | .ok tokens =>
      match standaloneOf expression (stream (tokens.map ({ · with loc }))) with
      | .error e => .error ⟨e.problem, loc⟩
      | .ok (e, _) => .ok (.expr e)

def interpolated (expression : Parser (Expr Loc)) (t : Token) : Parser (Expr Loc) :=
  match t.value with
  | some (.text body) => do
    let parts ← ((Interpolation.split body).mapM (part expression t.loc) : Except _ _)
    return .interpolated t.loc parts
  | _ => return .interpolated t.loc []

/-- A primary expression. A member of the object of a `With` block is one only inside the block;
`embedded` reads the expressions of an interpolated string, which stand outside of it. -/
def primary (inWith : Bool) (expression embedded : Parser (Expr Loc)) : Parser (Expr Loc) := do
  let t ← peek
  match t.kind with
  | .interpolated =>
    let _ ← consume
    interpolated embedded t
  | .identifier =>
    let _ ← consume
    return .name t.loc t.lexeme
  | .keyword .me =>
    let _ ← consume
    return .me t.loc
  | .mark .leftParen =>
    let _ ← consume
    let e ← expression
    expect (.mark .rightParen) "')'"
    return e
  | .keyword .new =>
    let _ ← consume
    let type ← typeRef
    let args ← if ← accept (.mark .leftParen) then arguments expression else pure []
    return .new t.loc type args
  | .keyword .ctype =>
    let _ ← consume
    expect (.mark .leftParen) "'(' after 'CType'"
    let operand ← expression
    expect (.mark .comma) "',' in CType"
    let target ← typeRef
    expect (.mark .rightParen) "')' after CType"
    return .cast t.loc operand target
  | .mark .leftBrace =>
    let _ ← consume
    let elements ← itemsUpTo (.mark .rightBrace) "'\x7d'" expression
    return .collection t.loc elements
  | .mark .dot =>
    if inWith then
      let _ ← consume
      return .withMember t.loc (← memberName)
    else unexpected "an expression"
  | _ =>
    match literal? t with
    | some value =>
      let _ ← consume
      return .literal t.loc value
    | none => unexpected "an expression"

/-- An operand with at most `fuel` operands nested in one another. -/
def operandAux : (fuel : Nat) → (inWith : Bool) → Parser (Expr Loc)
  | 0, _ => outOfFuel
  | fuel + 1, inWith => do
    let t ← peek
    match leadingOp? t.kind with
    | some op =>
      let _ ← consume
      return .unary t.loc op (← operandAux fuel inWith)
    | none =>
      if t.kind = .keyword .addressOf then
        let _ ← consume
        return .addressOf t.loc (← operandAux fuel inWith)
      else
        let expression := expressionOf (operandAux fuel inWith)
        let base ← primary inWith expression (expressionOf (operandAux fuel false))
        suffixes expression base

/-- How deep expressions may nest in a token: an interpolated string holds tokens of its own. -/
def weight (t : Token) : Nat :=
  match t.value with
  | some (.text body) => 1 + body.length
  | _ => 1

def depthBound (ts : List Token) : Nat :=
  (ts.map weight).foldr (· + ·) 0 + 1

def operand (inWith : Bool) : Parser (Expr Loc) := do
  operandAux (depthBound (← get)) inWith

def expression (inWith : Bool) : Parser (Expr Loc) :=
  expressionOf (operand inWith)

def suffixed (inWith : Bool) : Parser (Expr Loc) := do
  let base ← primary inWith (expression inWith) (expression false)
  suffixes (expression inWith) base

def standaloneExpression (tokens : List Token) : Except SyntaxError (Expr Loc) :=
  (·.1) <$> standaloneOf (expression false) (stream tokens)

end BasicSSA.Parser
