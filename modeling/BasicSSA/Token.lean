import BasicSSA.Loc
import BasicSSA.Number.Binary

/-!
# Tokens
-/

namespace BasicSSA

inductive Keyword where
  | addressOf | and | as_ | auto | case | catch_ | class_ | const | ctype | delegate | dim | do_
  | each | else_ | elseIf | end_ | exit | extension | finally_ | for_ | function | if_
  | implements | import_ | in_ | inherits | interface | loop | me | mod | module_ | mustOverride
  | namespace_ | new | next | not | notOverridable | of | optional | or | overridable | overrides
  | pointer | private_ | protected_ | public_ | return_ | select | shared | step | structure_
  | sub | template | then_ | throw | to_ | try_ | type | typeDefine | until_ | using_ | wend
  | while_ | with_
  deriving DecidableEq, Inhabited, Repr

namespace Keyword

def text : Keyword → String
  | .addressOf => "ADDRESSOF"
  | .and => "AND"
  | .as_ => "AS"
  | .auto => "AUTO"
  | .case => "CASE"
  | .catch_ => "CATCH"
  | .class_ => "CLASS"
  | .const => "CONST"
  | .ctype => "CTYPE"
  | .delegate => "DELEGATE"
  | .dim => "DIM"
  | .do_ => "DO"
  | .each => "EACH"
  | .else_ => "ELSE"
  | .elseIf => "ELSEIF"
  | .end_ => "END"
  | .exit => "EXIT"
  | .extension => "EXTENSION"
  | .finally_ => "FINALLY"
  | .for_ => "FOR"
  | .function => "FUNCTION"
  | .if_ => "IF"
  | .implements => "IMPLEMENTS"
  | .import_ => "IMPORT"
  | .in_ => "IN"
  | .inherits => "INHERITS"
  | .interface => "INTERFACE"
  | .loop => "LOOP"
  | .me => "ME"
  | .mod => "MOD"
  | .module_ => "MODULE"
  | .mustOverride => "MUSTOVERRIDE"
  | .namespace_ => "NAMESPACE"
  | .new => "NEW"
  | .next => "NEXT"
  | .not => "NOT"
  | .notOverridable => "NOTOVERRIDABLE"
  | .of => "OF"
  | .optional => "OPTIONAL"
  | .or => "OR"
  | .overridable => "OVERRIDABLE"
  | .overrides => "OVERRIDES"
  | .pointer => "POINTER"
  | .private_ => "PRIVATE"
  | .protected_ => "PROTECTED"
  | .public_ => "PUBLIC"
  | .return_ => "RETURN"
  | .select => "SELECT"
  | .shared => "SHARED"
  | .step => "STEP"
  | .structure_ => "STRUCTURE"
  | .sub => "SUB"
  | .template => "TEMPLATE"
  | .then_ => "THEN"
  | .throw => "THROW"
  | .to_ => "TO"
  | .try_ => "TRY"
  | .type => "TYPE"
  | .typeDefine => "TYPEDEFINE"
  | .until_ => "UNTIL"
  | .using_ => "USING"
  | .wend => "WEND"
  | .while_ => "WHILE"
  | .with_ => "WITH"

def all : List Keyword :=
  [.addressOf, .and, .as_, .auto, .case, .catch_, .class_, .const, .ctype, .delegate, .dim, .do_,
   .each, .else_, .elseIf, .end_, .exit, .extension, .finally_, .for_, .function, .if_,
   .implements, .import_, .in_, .inherits, .interface, .loop, .me, .mod, .module_, .mustOverride,
   .namespace_, .new, .next, .not, .notOverridable, .of, .optional, .or, .overridable,
   .overrides, .pointer, .private_, .protected_, .public_, .return_, .select, .shared, .step,
   .structure_, .sub, .template, .then_, .throw, .to_, .try_, .type, .typeDefine, .until_, .using_,
   .wend, .while_, .with_]

/-- The reserved word with an upper-case spelling. -/
def ofText? (text : String) : Option Keyword :=
  all.find? (·.text == text)

end Keyword

/-- A block that ends with a compound of `END` and its word. -/
inductive BlockWord where
  | if_ | select | function | sub | class_ | interface | type | structure_ | namespace_ | module_
  | try_ | with_ | template
  deriving DecidableEq, Inhabited, Repr

namespace BlockWord

/-- The spelling of the word after `END` in upper case. -/
def text : BlockWord → String
  | .if_ => "IF"
  | .select => "SELECT"
  | .function => "FUNCTION"
  | .sub => "SUB"
  | .class_ => "CLASS"
  | .interface => "INTERFACE"
  | .type => "TYPE"
  | .structure_ => "STRUCTURE"
  | .namespace_ => "NAMESPACE"
  | .module_ => "MODULE"
  | .try_ => "TRY"
  | .with_ => "WITH"
  | .template => "TEMPLATE"

def all : List BlockWord :=
  [.if_, .select, .function, .sub, .class_, .interface, .type, .structure_, .namespace_,
   .module_, .try_, .with_, .template]

/-- The block whose word has an upper-case spelling. -/
def ofText? (text : String) : Option BlockWord :=
  all.find? (·.text == text)

end BlockWord

inductive Mark where
  | plus | plusPlus | plusAssign | minus | minusMinus | minusAssign | star | starAssign | slash
  | slashAssign | backslash | percent | equal | equalEqual | notEqual | bangEqual | less
  | lessEqual | shiftLeft | greater | greaterEqual | shiftRight | bang | ampAmp | amp | pipePipe
  | pipe | tilde | caret | question | leftParen | rightParen | leftBracket | rightBracket
  | leftBrace | rightBrace | comma | dot | colon | semicolon
  deriving DecidableEq, Inhabited, Repr

namespace Mark

def text : Mark → String
  | .plus => "+"
  | .plusPlus => "++"
  | .plusAssign => "+="
  | .minus => "-"
  | .minusMinus => "--"
  | .minusAssign => "-="
  | .star => "*"
  | .starAssign => "*="
  | .slash => "/"
  | .slashAssign => "/="
  | .backslash => "\\"
  | .percent => "%"
  | .equal => "="
  | .equalEqual => "=="
  | .notEqual => "<>"
  | .bangEqual => "!="
  | .less => "<"
  | .lessEqual => "<="
  | .shiftLeft => "<<"
  | .greater => ">"
  | .greaterEqual => ">="
  | .shiftRight => ">>"
  | .bang => "!"
  | .ampAmp => "&&"
  | .amp => "&"
  | .pipePipe => "||"
  | .pipe => "|"
  | .tilde => "~"
  | .caret => "^"
  | .question => "?"
  | .leftParen => "("
  | .rightParen => ")"
  | .leftBracket => "["
  | .rightBracket => "]"
  | .leftBrace => "\x7b"
  | .rightBrace => "\x7d"
  | .comma => ","
  | .dot => "."
  | .colon => ":"
  | .semicolon => ";"

/-- All marks, operators first. -/
def all : List Mark :=
  [.plus, .plusPlus, .plusAssign, .minus, .minusMinus, .minusAssign, .star, .starAssign, .slash,
   .slashAssign, .backslash, .percent, .equal, .equalEqual, .notEqual, .bangEqual, .less,
   .lessEqual, .shiftLeft, .greater, .greaterEqual, .shiftRight, .bang, .ampAmp, .amp, .pipePipe,
   .pipe, .tilde, .caret, .question, .leftParen, .rightParen, .leftBracket, .rightBracket,
   .leftBrace, .rightBrace, .comma, .dot, .colon, .semicolon]

end Mark

inductive TokenKind where
  | endOfFile
  | newline
  | comment
  | directive
  | unknown
  | identifier
  | integer
  | long
  | single
  | double
  | string
  | interpolated
  | boolean
  | nothing
  | keyword (word : Keyword)
  | blockEnd (block : BlockWord)
  | mark (m : Mark)
  deriving DecidableEq, Inhabited, Repr

namespace TokenKind

def name : TokenKind → String
  | .endOfFile => "EOF"
  | .newline => "NEWLINE"
  | .comment => "COMMENT"
  | .directive => "DIRECTIVE"
  | .unknown => "UNKNOWN"
  | .identifier => "IDENT"
  | .integer => "INTEGER"
  | .long => "LONG"
  | .single => "SINGLE"
  | .double => "DOUBLE"
  | .string => "STRING"
  | .interpolated => "INTERPOLATED"
  | .boolean => "BOOLEAN"
  | .nothing => "NOTHING"
  | .keyword word => word.text
  | .blockEnd block => "END " ++ block.text
  | .mark m => m.text

def all : List TokenKind :=
  [.endOfFile, .newline, .comment, .directive, .unknown, .identifier, .integer, .long, .single,
    .double, .string, .interpolated, .boolean, .nothing] ++
  Keyword.all.map .keyword ++ BlockWord.all.map .blockEnd ++ Mark.all.map .mark

def isLiteral : TokenKind → Bool
  | .integer | .long | .single | .double | .string | .interpolated | .boolean | .nothing => true
  | _ => false

/-- Whether tokens of the kind mean nothing to the grammar. -/
def isTrivia : TokenKind → Bool
  | .comment | .directive => true
  | _ => false

/-- Whether tokens of the kind are spelled as words. -/
def isWord : TokenKind → Bool
  | .identifier | .boolean | .nothing | .keyword _ => true
  | _ => false

end TokenKind

/-- What a token stands for, beyond its kind. -/
inductive TokenValue where
  | integer (n : Nat)
  | long (n : Nat)
  | single (x : Single)
  | double (x : Double)
  | boolean (b : Bool)
  | text (s : String)
  deriving DecidableEq, Inhabited, Repr

/-- A token with its exact spelling and the position of its first character. -/
structure Token where
  kind : TokenKind
  lexeme : String
  value : Option TokenValue := none
  loc : Loc
  /-- An identifier has a character. -/
  spelled : kind = .identifier → lexeme ≠ "" := by simp
  deriving DecidableEq, Repr

/-- The token at the end of a text. -/
def Token.endAt (loc : Loc) : Token :=
  { kind := .endOfFile, lexeme := "", loc }

instance : Inhabited Token := ⟨.endAt default⟩

end BasicSSA
