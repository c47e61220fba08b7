import BasicSSA.Number.General
import BasicSSA.Syntax.Decl

/-!
# The printed syntax tree

An expression prints on one line, operator first. Statements and declarations print as an outline:
the children of a node stand on the lines below its head, two blanks deeper, and its closing
parenthesis ends its last line.
-/

namespace BasicSSA

def escapeChar : Char → List Char
  | '\n' => ['\\', 'n']
  | '\r' => ['\\', 'r']
  | '\t' => ['\\', 't']
  | '"' => ['\\', '"']
  | '\\' => ['\\', '\\']
  | c => [c]

/-- A string literal as source text: its quotes and the escapes of the characters that need one. -/
def quoteText (s : String) : String :=
  String.ofList ('"' :: s.toList.flatMap escapeChar ++ ['"'])

/-- Floating literals print with 15 significant digits. -/
def Literal.text : Literal → String
  | .integer n => toString n
  | .long n => toString n ++ "L"
  | .single x => x.toDouble.general 15 ++ "F"
  | .double x => x.general 15
  | .string s => quoteText s
  | .boolean b => if b then "True" else "False"
  | .nothing => "Nothing"

def spaced (texts : List String) : String :=
  String.join (texts.map (" " ++ ·))

namespace Expr

variable {α : Type}

mutual

def text : Expr α → String
  | literal _ v => v.text
  | name _ n => n
  | me _ => "Me"
  | binary _ op l r => "(" ++ op.text ++ " " ++ l.text ++ " " ++ r.text ++ ")"
  | unary _ op e => "(" ++ (if op.isPost then "post" else "") ++ op.text ++ " " ++ e.text ++ ")"
  | member _ e n => "(. " ++ e.text ++ " " ++ n ++ ")"
  | withMember _ n => "(. <with> " ++ n ++ ")"
  | call _ e ts as =>
    "(call " ++ e.text ++
      (if ts.isEmpty then "" else " (Of" ++ spaced (ts.map TypeRef.text) ++ ")") ++
      textList as ++ ")"
  | index _ e is => "(index " ++ e.text ++ textList is ++ ")"
  | new _ t as => "(new " ++ t.text ++ textList as ++ ")"
  | cast _ e t => "(ctype " ++ e.text ++ " " ++ t.text ++ ")"
  | interpolated _ ps => "(interp" ++ textParts ps ++ ")"
  | collection _ es => "(init" ++ textList es ++ ")"
  | addressOf _ e => "(AddressOf " ++ e.text ++ ")"

def textList : List (Expr α) → String
  | [] => ""
  | e :: es => " " ++ e.text ++ textList es

def textParts : List (Part α) → String
  | [] => ""
  | .text s :: ps => " " ++ quoteText s ++ textParts ps
  | .expr e :: ps => " " ++ e.text ++ textParts ps

end

end Expr

namespace Outline

/-- The lines with a closing parenthesis after the last one. -/
def closeLast : List String → List String
  | [] => []
  | [line] => [line ++ ")"]
  | line :: lines => line :: closeLast lines

def node (head : String) (children : List String) : List String :=
  closeLast (("(" ++ head) :: children.map ("  " ++ ·))

def text (lines : List String) : String :=
  String.join (lines.map (· ++ "\n"))

end Outline

open Outline

variable {α : Type}

/-- A modifier list in brackets before a name; a public member shows no access. -/
def Modifiers.text (m : Modifiers) : String :=
  let words :=
    (match m.access with
      | .public_ => []
      | .private_ => ["Private"]
      | .protected_ => ["Protected"]) ++
    (if m.isShared then ["Shared"] else []) ++
    (if m.isOverridable then ["Overridable"] else []) ++
    (if m.isOverrides then ["Overrides"] else []) ++
    (if m.isMustOverride then ["MustOverride"] else []) ++
    (if m.isNotOverridable then ["NotOverridable"] else [])
  if words.isEmpty then "" else "[" ++ joinWith " " words ++ "] "

def optionText (text : Option String) : String :=
  match text with
  | some s => " " ++ s
  | none => ""

def VarDecl.text (d : VarDecl α) : String :=
  (if d.isAuto then "(auto " else "(dim ") ++ d.modifiers.text ++ d.name ++
    optionText (d.type.map TypeRef.text) ++ optionText (d.init.map Expr.text) ++ ")"

def ConstDecl.text (d : ConstDecl α) : String :=
  "(const " ++ d.name ++ " " ++ d.type.text ++ optionText (d.value.map Expr.text) ++ ")"

namespace Stmt

mutual

def lines : Stmt α → List String
  | ifThen _ c b e => node ("if " ++ c.text) (node "then" (linesBody b) ++ linesElse e)
  | select _ s cs => node ("select " ++ s.text) (linesCases cs)
  | forLoop _ v a z s b =>
    let step :=
      match s with
      | some e => " (step " ++ e.text ++ ")"
      | none => ""
    node ("for " ++ v ++ " " ++ a.text ++ " " ++ z.text ++ step) (node "body" (linesBody b))
  | forEach _ v t c b =>
    node ("foreach " ++ v ++ optionText (t.map TypeRef.text) ++ " " ++ c.text)
      (node "body" (linesBody b))
  | whileLoop _ c b => node ("while " ++ c.text) (node "body" (linesBody b))
  | doLoop _ t b =>
    let test :=
      match t with
      | some t => (if t.atTop then " top " else " bottom ") ++
          (if t.isWhile then "while " else "until ") ++ t.cond.text
      | none => ""
    node ("do" ++ test) (node "body" (linesBody b))
  | tryCatch _ b cs none => node "try" (node "body" (linesBody b) ++ linesCatches cs)
  | tryCatch _ b cs (some l) =>
    node "try" (node "body" (linesBody b) ++ linesCatches cs ++ node "finally" (linesBody l))
  | withBlock _ t b => node ("with " ++ t.text) (node "body" (linesBody b))
  | throw _ v => ["(throw" ++ optionText (v.map Expr.text) ++ ")"]
  | return_ _ v => ["(return" ++ optionText (v.map Expr.text) ++ ")"]
  | exit _ k => ["(exit " ++ k.text ++ ")"]
  | assign _ t op v => ["(" ++ op.text ++ " " ++ t.text ++ " " ++ v.text ++ ")"]
  | expr _ e => ["(expr " ++ e.text ++ ")"]
  | var d => [d.text]
  | const d => [d.text]

def linesBody : List (Stmt α) → List String
  | [] => []
  | s :: ss => s.lines ++ linesBody ss

def linesElse : Else α → List String
  | .nothing => []
  | .block b => node "else" (linesBody b)
  | .elseIf _ c b e => node ("elseif " ++ c.text) (linesBody b) ++ linesElse e

def linesCases : List (Case α) → List String
  | [] => []
  | .values _ vs b :: cs =>
    node ("case" ++ spaced (vs.map Expr.text)) (linesBody b) ++ linesCases cs
  | .otherwise _ b :: cs => node "case else" (linesBody b) ++ linesCases cs

def linesCatches : List (Catch α) → List String
  | [] => []
  | .mk _ v t b :: cs =>
    node ("catch" ++ optionText v ++ optionText (t.map TypeRef.text)) (linesBody b) ++
      linesCatches cs

end

def text (s : Stmt α) : String :=
  Outline.text s.lines

end Stmt

def Param.text (p : Param α) : String :=
  let value :=
    match p.default with
    | some e => " = " ++ e.text
    | none => ""
  "(" ++ (if p.isOptional then "Optional " else "") ++ p.name ++ " " ++ p.type.text ++ value ++ ")"

def paramsText (ps : List (Param α)) : String :=
  "(" ++ joinWith " " (ps.map Param.text) ++ ")"

def typeParamsText (names : List String) : String :=
  if names.isEmpty then "" else " (Of" ++ spaced names ++ ")"

def Procedure.lines (p : Procedure α) : List String :=
  let kind :=
    match p.kind with
    | .function => "function "
    | .sub => "sub "
    | .constructor => "constructor "
  let result :=
    match p.kind with
    | .function => " " ++ ((p.returnType.map TypeRef.text).getD "Object")
    | _ => ""
  let head := kind ++ p.modifiers.text ++ p.name ++ typeParamsText p.typeParams ++ " " ++
    paramsText p.params ++ result ++
    (if p.implements == "" then "" else " (implements " ++ p.implements ++ ")")
  node head (Stmt.linesBody (p.body.getD []))

def ClassHead.text (h : ClassHead) : String :=
  "class " ++ h.name ++ typeParamsText h.typeParams ++
    (if h.base == "" then "" else " (inherits " ++ h.base ++ ")") ++
    (if h.interfaces.isEmpty then "" else " (implements" ++ spaced h.interfaces ++ ")")

namespace Decl

mutual

def lines : Decl α → List String
  | nspace _ n ds => node ("namespace " ++ n) (linesList ds)
  | module _ n ds => node ("module " ++ n) (linesList ds)
  | uses _ n => ["(using " ++ n ++ ")"]
  | imports _ n => ["(import " ++ n ++ ")"]
  | cls _ h ds => node h.text (linesList ds)
  | interface _ n ps => node ("interface " ++ n) (ps.flatMap Procedure.lines)
  | record _ k n vs =>
    node ((match k with | .type => "type " | .struct => "structure ") ++ n) (vs.map VarDecl.text)
  | proc p => p.lines
  | var d => [d.text]
  | const d => [d.text]
  | typeDefine _ a t => ["(typedefine " ++ a ++ " " ++ t.text ++ ")"]
  | template _ d => node ("template " ++ d.name ++ typeParamsText d.typeParams) d.lines
  | delegate d =>
    [(if d.isFunction then "(delegate-function " else "(delegate-sub ") ++ d.name ++ " " ++
      paramsText d.params ++ optionText (d.returnType.map TypeRef.text) ++ ")"]
  | extension _ t p => node ("extension " ++ t) p.lines

def linesList : List (Decl α) → List String
  | [] => []
  | d :: ds => d.lines ++ linesList ds

end

end Decl

def Program.text (p : Program α) : String :=
  Outline.text (node "program" (Decl.linesList p))

end BasicSSA
