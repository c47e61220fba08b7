import BasicSSA.Number.Decimal
import BasicSSA.Text
import BasicSSA.Token

/-!
# Tokens of a source text

Blanks separate tokens: spaces, tabs, and carriage returns that no newline follows. Every other
character belongs to the token that starts at or before it. Only a string without its closing
quote is an error; a character that starts no token is a token of its own.
-/

namespace BasicSSA

inductive LexProblem where
  | unterminatedString
  | unterminatedInterpolation
  deriving DecidableEq, Repr

def LexProblem.message : LexProblem → String
  | .unterminatedString => "Unterminated string literal"
  | .unterminatedInterpolation => "Unterminated interpolated string"

/-- A problem and the position where the bad token starts. -/
structure LexError where
  problem : LexProblem
  loc : Loc
  deriving DecidableEq, Repr

namespace Lexer

/-- A token at the head of a text, before its position is known, and the text after it. -/
structure Scanned where
  kind : TokenKind
  lexeme : List Char
  value : Option TokenValue := none
  rest : List Char
  /-- An identifier has a character. -/
  spelled : kind = .identifier → lexeme ≠ [] := by simp

def Scanned.token (s : Scanned) (loc : Loc) : Token where
  kind := s.kind
  lexeme := String.ofList s.lexeme
  value := s.value
  loc := loc
  spelled h := by simpa using s.spelled h

def decodeEscape : Char → Char
  | 'n' => '\n'
  | 'r' => '\r'
  | 't' => '\t'
  | '0' => '\x00'
  | c => c

/-- The blanks at the head of a text and the text after them. -/
def spanBlanks : List Char → List Char × List Char
  | [] => ([], [])
  | c :: rest =>
    if c == ' ' || c == '\t' || (c == '\r' && rest.head? != some '\n') then
      let (blanks, after) := spanBlanks rest
      (c :: blanks, after)
    else ([], c :: rest)

/-! ## Words -/

/-- The kind of a word from its upper-case spelling. -/
def wordKind (upper : String) : TokenKind :=
  if upper == "TRUE" || upper == "FALSE" then .boolean
  else if upper == "NOTHING" then .nothing
  else
    match Keyword.ofText? upper with
    | some word => .keyword word
    | none => .identifier

/-- After `END`: the gap and the word of a compound, the block they end and the text after them. -/
def compoundEnd (cs : List Char) : Option (List Char × BlockWord × List Char) :=
  let gap := cs.takeWhile fun c => c == ' ' || c == '\t'
  let word := (cs.drop gap.length).takeWhile isWordChar
  if gap.isEmpty then none
  else
    match BlockWord.ofText? (foldCase (String.ofList word)) with
    | some block => some (gap ++ word, block, (cs.drop gap.length).drop word.length)
    | none => none

/-- A word from its first character: an identifier, a reserved word or a compound of `END`. -/
def scanWord (first : Char) (cs : List Char) : Scanned :=
  let word := first :: cs.takeWhile isWordChar
  let rest := cs.dropWhile isWordChar
  let text := String.ofList word
  match wordKind (foldCase text) with
  | .identifier => { kind := .identifier, lexeme := word, value := some (.text text), rest }
  | .boolean =>
    { kind := .boolean, lexeme := word, value := some (.boolean (foldCase text == "TRUE")), rest }
  | .keyword .end_ =>
    match compoundEnd rest with
    | some (more, block, after) =>
      { kind := .blockEnd block, lexeme := word ++ more, rest := after }
    | none => { kind := .keyword .end_, lexeme := word, rest }
  | kind => { kind, lexeme := word, rest }

/-! ## Numbers -/

/-- A point and at least one digit, or nothing. -/
def spanFraction : List Char → List Char × List Char
  | '.' :: d :: rest =>
    if d.isDigit then
      ('.' :: (d :: rest).takeWhile Char.isDigit, (d :: rest).dropWhile Char.isDigit)
    else ([], '.' :: d :: rest)
  | cs => ([], cs)

/-- An exponent mark, an optional sign and at least one digit, or nothing. -/
def spanExponent (cs : List Char) : List Char × List Char :=
  match cs with
  | mark :: d :: rest =>
    if mark == 'e' || mark == 'E' then
      if d.isDigit then
        (mark :: (d :: rest).takeWhile Char.isDigit, (d :: rest).dropWhile Char.isDigit)
      else if (d == '+' || d == '-') && (rest.head?.any Char.isDigit) then
        (mark :: d :: rest.takeWhile Char.isDigit, rest.dropWhile Char.isDigit)
      else ([], cs)
    else ([], cs)
  | _ => ([], cs)

inductive Suffix where
  | single
  | long
  deriving DecidableEq, Repr

/-- A type letter that no letter, digit or underscore follows. Only whole numbers take `L`. -/
def spanSuffix (isFloat : Bool) : List Char → Option (Char × Suffix × List Char)
  | c :: rest =>
    if rest.head?.any isWordChar then none
    else if c.toUpper == 'F' then some (c, .single, rest)
    else if c.toUpper == 'L' && !isFloat then some (c, .long, rest)
    else none
  | [] => none

/-- The kind and the value of a number from its digits and its type letter. -/
def numberValue (digits : List Char) (isFloat : Bool) (suffix : Option Suffix) :
    TokenKind × TokenValue :=
  let n := digitsValue digits
  if suffix = some .single then
    let x := if isFloat || n > maxLong then readDouble digits else Double.ofInt n
    (.single, .single (Single.ofDouble x))
  else if isFloat || n > maxLong then (.double, .double (readDouble digits))
  else if suffix = some .long || n > maxInteger then (.long, .long n)
  else (.integer, .integer n)

/-- A number from its first digit: digits, a fraction, an exponent and a type letter. -/
def scanNumber (first : Char) (cs : List Char) : Scanned :=
  let whole := first :: cs.takeWhile Char.isDigit
  let (fraction, afterFraction) := spanFraction (cs.dropWhile Char.isDigit)
  let (exponent, rest) := spanExponent afterFraction
  let digits := whole ++ fraction ++ exponent
  let isFloat := !(fraction.isEmpty && exponent.isEmpty)
  match spanSuffix isFloat rest with
  | some (letter, suffix, after) =>
    let (kind, value) := numberValue digits isFloat (some suffix)
    { kind, lexeme := digits ++ [letter], value := some value, rest := after }
  | none =>
    let (kind, value) := numberValue digits isFloat none
    { kind, lexeme := digits, value := some value, rest, spelled := by simp [digits, whole] }

/-! ## Strings -/

/-- After an opening quote: the text up to the closing quote and with it, what it stands for, and
the text after it. -/
def spanString : List Char → Option (List Char × List Char × List Char)
  | [] => none
  | '\\' :: c :: rest =>
    (spanString rest).map fun (lexeme, value, after) =>
      ('\\' :: c :: lexeme, decodeEscape c :: value, after)
  | c :: rest =>
    if c == '"' then some ([c], [], rest)
    else (spanString rest).map fun (lexeme, value, after) => (c :: lexeme, c :: value, after)

/-- After the opening of an interpolated string: its body and the text after its closing quote.
Inside braces a quoted text is skipped whole. -/
def spanInterpolated (depth : Nat) (quoted : Bool) : List Char → Option (List Char × List Char)
  | [] => none
  | '\\' :: c :: rest =>
    (spanInterpolated depth quoted rest).map fun (body, after) => ('\\' :: c :: body, after)
  | c :: rest =>
    if c == '"' && depth == 0 then some ([], rest)
    else
      let quoted' := if c == '"' then !quoted else quoted
      let depth' :=
        if quoted then depth
        else if c == '{' then depth + 1
        else if c == '}' then depth - 1
        else depth
      (spanInterpolated depth' quoted' rest).map fun (body, after) => (c :: body, after)

/-! ## Marks -/

def pairMark : Char → Char → Option Mark
  | '+', '+' => some .plusPlus
  | '+', '=' => some .plusAssign
  | '-', '-' => some .minusMinus
  | '-', '=' => some .minusAssign
  | '*', '=' => some .starAssign
  | '/', '=' => some .slashAssign
  | '=', '=' => some .equalEqual
  | '<', '=' => some .lessEqual
  | '<', '<' => some .shiftLeft
  | '<', '>' => some .notEqual
  | '>', '=' => some .greaterEqual
  | '>', '>' => some .shiftRight
  | '!', '=' => some .bangEqual
  | '&', '&' => some .ampAmp
  | '|', '|' => some .pipePipe
  | _, _ => none

def singleMark : Char → Option Mark
  | '+' => some .plus
  | '-' => some .minus
  | '*' => some .star
  | '/' => some .slash
  | '\\' => some .backslash
  | '%' => some .percent
  | '=' => some .equal
  | '<' => some .less
  | '>' => some .greater
  | '!' => some .bang
  | '&' => some .amp
  | '|' => some .pipe
  | '~' => some .tilde
  | '^' => some .caret
  | '?' => some .question
  | '(' => some .leftParen
  | ')' => some .rightParen
  | '[' => some .leftBracket
  | ']' => some .rightBracket
  | '{' => some .leftBrace
  | '}' => some .rightBrace
  | ',' => some .comma
  | '.' => some .dot
  | ':' => some .colon
  | ';' => some .semicolon
  | _ => none

/-- The longest mark at the head of a text and the text after it. -/
def spanMark : List Char → Option (Mark × List Char)
  | [] => none
  | c :: rest =>
    match rest.head?.bind (pairMark c) with
    | some mark => some (mark, rest.tail)
    | none => (singleMark c).map (·, rest)

/-! ## The token at the head of a text -/

/-- A character and what follows it up to the end of its line. -/
def spanLine (kind : TokenKind) (first : Char) (cs : List Char) : Scanned :=
  let inLine (c : Char) : Bool := c != '\n' && c != '\r'
  { kind, lexeme := first :: cs.takeWhile inLine, rest := cs.dropWhile inLine }

/-- The token that a character starts, unless it starts a newline or an interpolated string. -/
def scanFrom (c : Char) (rest : List Char) : Except LexProblem Scanned :=
  if c == '\'' then .ok (spanLine .comment c rest)
  else if c == '#' then .ok (spanLine .directive c rest)
  else if c.isDigit then .ok (scanNumber c rest)
  else if isWordStart c then .ok (scanWord c rest)
  else if c == '"' then
    match spanString rest with
    | some (lexeme, value, after) =>
      .ok { kind := .string, lexeme := '"' :: lexeme,
            value := some (.text (String.ofList value)), rest := after }
    | none => .error .unterminatedString
  else
    match spanMark (c :: rest) with
    | some (mark, after) =>
      .ok { kind := .mark mark, lexeme := mark.text.toList, rest := after }
    | none => .ok { kind := .unknown, lexeme := [c], rest }

/-- The token at the head of a text that starts with no blank. -/
def scan (cs : List Char) : Except LexProblem Scanned :=
  match cs with
  | [] => .ok { kind := .endOfFile, lexeme := [], rest := [] }
  | '\n' :: rest => .ok { kind := .newline, lexeme := ['\n'], rest }
  | '\r' :: '\n' :: rest => .ok { kind := .newline, lexeme := ['\r', '\n'], rest }
  | '$' :: '"' :: rest =>
    match spanInterpolated 0 false rest with
    | some (body, after) =>
      .ok { kind := .interpolated, lexeme := '$' :: '"' :: body ++ ['"'],
            value := some (.text (String.ofList body)), rest := after }
    | none => .error .unterminatedInterpolation
  | c :: rest => scanFrom c rest

/-- The tokens of a text that starts at a position, up to and with the end of the text. There are
no more tokens than characters, so `fuel` may be the length of the text. -/
def tokens : (fuel : Nat) → Loc → List Char → Except LexError (List Token)
  | fuel, loc, cs =>
    let (blanks, cs) := spanBlanks cs
    let loc := loc.skip blanks
    match scan cs with
    | .error problem => .error ⟨problem, loc⟩
    | .ok scanned =>
      let token := scanned.token loc
      match fuel with
      | 0 => .ok [token]
      | fuel + 1 =>
        if scanned.kind = .endOfFile then .ok [token]
        else
          match tokens fuel (loc.skip scanned.lexeme) scanned.rest with
          | .error e => .error e
          | .ok more => .ok (token :: more)

end Lexer

/-- The tokens of a source text; the last one marks its end. -/
def tokenize (source : String) (file : Nat) : Except LexError (List Token) :=
  Lexer.tokens source.toList.length (Loc.start file) source.toList

end BasicSSA
