import BasicSSA.Token.Lexer

/-!
# Parts of an interpolated string

The body of an interpolated string alternates text, where a backslash escapes the next character,
and expressions between braces, where a quoted text is passed over whole. Empty parts are left out
and texts that then meet are joined.
-/

namespace BasicSSA.Interpolation

inductive Piece where
  | text (s : String)
  | expr (source : String)
  deriving DecidableEq, Inhabited, Repr

/-- Where in the body a character stands: in text, or in an expression at some depth of braces and
inside or outside quotes. The characters of the open part come last first. -/
inductive Mode where
  | text (open_ : List Char)
  | expr (depth : Nat) (quoted : Bool) (open_ : List Char)
  deriving Repr

/-- The parts, last first, with one more text. -/
def addText (open_ : List Char) (done : List Piece) : List Piece :=
  if open_.isEmpty then done
  else
    match done with
    | .text s :: more => .text (s ++ String.ofList open_.reverse) :: more
    | _ => .text (String.ofList open_.reverse) :: done

/-- The parts, last first, with one more expression. -/
def addExpr (open_ : List Char) (done : List Piece) : List Piece :=
  if open_.isEmpty then done else .expr (String.ofList open_.reverse) :: done

/-- The parts of the rest of a body, after the parts already done. -/
def pieces : Mode → List Piece → List Char → List Piece
  | .text open_, done, [] => (addText open_ done).reverse
  | .expr _ _ open_, done, [] => (addExpr open_ done).reverse
  | .text open_, done, '\\' :: c :: rest => pieces (.text (Lexer.decodeEscape c :: open_)) done rest
  | .text open_, done, c :: rest =>
    if c == '{' then pieces (.expr 0 false []) (addText open_ done) rest
    else pieces (.text (c :: open_)) done rest
  | .expr depth true open_, done, '\\' :: c :: rest =>
    pieces (.expr depth true (c :: '\\' :: open_)) done rest
  | .expr depth quoted open_, done, c :: rest =>
    if c == '"' then pieces (.expr depth (!quoted) (c :: open_)) done rest
    else if quoted then pieces (.expr depth quoted (c :: open_)) done rest
    else if c == '{' then pieces (.expr (depth + 1) quoted (c :: open_)) done rest
    else if c == '}' then
      match depth with
      | 0 => pieces (.text []) (addExpr open_ done) rest
      | depth + 1 => pieces (.expr depth quoted (c :: open_)) done rest
    else pieces (.expr depth quoted (c :: open_)) done rest

def split (body : String) : List Piece :=
  pieces (.text []) [] body.toList

end BasicSSA.Interpolation
