import BasicSSA.Parser.Stmt

/-!
# Parsing declarations
-/

namespace BasicSSA

namespace Parser

/-! ### Modifiers and parameters -/

def modifier? (m : Modifiers) : TokenKind → Option Modifiers
  | .keyword .public_ => some { m with access := .public_ }
  | .keyword .private_ => some { m with access := .private_ }
  | .keyword .protected_ => some { m with access := .protected_ }
  | .keyword .shared => some { m with isShared := true }
  | .keyword .overridable => some { m with isOverridable := true }
  | .keyword .overrides => some { m with isOverrides := true }
  | .keyword .mustOverride => some { m with isMustOverride := true }
  | .keyword .notOverridable => some { m with isNotOverridable := true }
  | _ => none

/-- The modifiers before a member. Of several access levels the last one counts. -/
def modifiers : Parser Modifiers := do
  let kinds ← whileNext (fun kind => (modifier? {} kind).isSome) do
    return (← consume).kind
  return kinds.foldl (fun m kind => (modifier? m kind).getD m) {}

/-- A parameter: `Optional name[dims] As T = default`. -/
def param : Parser (Param Loc) := do
  let loc := (← peek).loc
  let isOptional ← accept (.keyword .optional)
  let name ← identifier "parameter name"
  let dims ← arrayDims false
  expect (.keyword .as_) "'As'"
  let type ← typeRef
  let default ← optionalAfter (.mark .equal) (expression false)
  return { loc, name, type := type.withDims dims, default, isOptional }

def params : Parser (List (Param Loc)) := do
  if ← accept (.mark .leftParen) then
    itemsUpTo (.mark .rightParen) "')' after parameters" param
  else return []

def returnType : Parser (Option TypeRef) :=
  optionalAfter (.keyword .as_) typeRef

def implementsClause : Parser String := do
  if ← accept (.keyword .implements) then
    let interface ← identifier "interface name"
    expect (.mark .dot) "'.'"
    let method ← identifier "method name"
    return interface ++ "." ++ method
  else return ""

/-! ### Procedures -/

def procedureBody (close : BlockWord) (what : String) : Parser (List (Stmt Loc)) := do
  let body ← block (· = .blockEnd close)
  expect (.blockEnd close) what
  return body

def functionBody : Parser (List (Stmt Loc)) :=
  procedureBody .function "'End Function'"

def subBody : Parser (List (Stmt Loc)) :=
  procedureBody .sub "'End Sub'"

def procedure (kind : ProcKind) (what : String) (returnType : Parser (Option TypeRef))
    (body : Parser (List (Stmt Loc))) (modifiers : Modifiers) (hasBody : Bool) :
    Parser (Procedure Loc) := do
  let loc := (← consume).loc
  let name ← identifier what
  let typeParams ← typeParams
  let params ← params
  let returnType ← returnType
  let implements ← implementsClause
  let body ← if hasBody then some <$> body else pure none
  return { info := loc, kind, name, modifiers, typeParams, params, returnType, implements, body }

def function : (modifiers : Modifiers) → (hasBody : Bool) → Parser (Procedure Loc) :=
  procedure .function "function name" returnType functionBody

def subroutine : (modifiers : Modifiers) → (hasBody : Bool) → Parser (Procedure Loc) :=
  procedure .sub "subroutine name" (pure none) subBody

/-- A constructor: `Sub New(params)`. -/
def constructor (modifiers : Modifiers) : Parser (Procedure Loc) := do
  let loc := (← consume).loc
  let _ ← consume
  let params ← params
  return { info := loc, kind := .constructor, name := "New", modifiers, params,
           body := some (← subBody) }

/-! ### Types -/

def interfaceMethod : Parser (Procedure Loc) := do
  let modifiers ← modifiers
  let method ←
    if ← isAt (.keyword .function) then function modifiers false
    else if ← isAt (.keyword .sub) then subroutine modifiers false
    else unexpected "'Function' or 'Sub' in interface"
  skipNewlines
  return method

/-- Whether the members of a block go on. -/
def notClosed (close : BlockWord) (kind : TokenKind) : Bool :=
  kind ≠ .blockEnd close && kind ≠ .endOfFile

def interface : Parser (Decl Loc) := do
  let loc := (← consume).loc
  let name ← identifier "interface name"
  skipNewlines
  let methods ← whileNext (notClosed .interface) interfaceMethod
  expect (.blockEnd .interface) "'End Interface'"
  return .interface loc name methods

def recordField : Parser (VarDecl Loc) := do
  let modifiers ← modifiers
  if (← accept (.keyword .dim)) || (← isAt .identifier) then
    let d ← field false modifiers
    skipNewlines
    return d
  else unexpected "member name"

def record (kind : RecordKind) (close : BlockWord) (what closeText : String) :
    Parser (Decl Loc) := do
  let loc := (← consume).loc
  let name ← identifier what
  skipNewlines
  let fields ← whileNext (notClosed close) recordField
  expect (.blockEnd close) closeText
  return .record loc kind name fields

def typeDefine : Parser (Decl Loc) := do
  let loc := (← consume).loc
  let name ← identifier "alias name"
  expect (.keyword .as_) "'As'"
  return .typeDefine loc name (← typeRef)

def delegate : Parser (Decl Loc) := do
  let loc := (← consume).loc
  let isSub ← accept (.keyword .sub)
  if !isSub then expect (.keyword .function) "'Function' or 'Sub' after 'Delegate'"
  let name ← identifier "delegate name"
  let params ← params
  let returnType ← if isSub then pure none else returnType
  return .delegate { info := loc, name, params, returnType, isFunction := !isSub }

/-- An extension function. Without a type before its name it extends the type of its first
parameter. -/
def extension : Parser (Decl Loc) := do
  let loc := (← consume).loc
  expect (.keyword .function) "'Function' after 'Extension'"
  let first ← identifier "method name or type"
  let second ← optionalAfter (.mark .dot) (identifier "method name")
  let params ← params
  let type :=
    match second, params with
    | some _, _ => first
    | none, [] => "Object"
    | none, p :: _ => p.type.name
  let returnType ← returnType
  let body ← functionBody
  return .extension loc type
    { info := loc, kind := .function, name := second.getD first, params, returnType,
      body := some body }

/-! ### Containers -/

def members (declaration : Parser (Decl Loc)) (close : BlockWord) (what : String) :
    Parser (List (Decl Loc)) := do
  skipNewlines
  let members ← whileNext (notClosed close) do
    let d ← declaration
    skipNewlines
    return d
  expect (.blockEnd close) what
  return members

def classDecl (member : Parser (Decl Loc)) : Parser (Decl Loc) := do
  let loc := (← consume).loc
  let name ← identifier "class name"
  let typeParams ← typeParams
  skipNewlines
  let base ← optionalAfter (.keyword .inherits) (dottedName "base class name")
  if base.isSome then skipNewlines
  let interfaces ←
    optionalAfter (.keyword .implements) (commaSeparated (dottedName "interface name"))
  let members ← members member .class_ "'End Class'"
  let head : ClassHead :=
    { name, typeParams, base := base.getD "", interfaces := interfaces.getD [] }
  return .cls loc head members

/-- The tokens after `End Template` and the newlines before it, if they come next. -/
def afterTemplate (ts : List Token) : List Token :=
  match ts.dropWhile (·.kind = .newline) with
  | t :: u :: rest => if t.kind = .blockEnd .template then u :: rest else ts
  | _ => ts

/-- A template: a function or a class, and `End Template` if it follows. -/
def template (member : Parser (Decl Loc)) : Parser (Decl Loc) := do
  let loc := (← consume).loc
  let decl ←
    if ← isAt (.keyword .function) then Decl.proc <$> function {} true
    else if ← isAt (.keyword .class_) then classDecl member
    else unexpected "'Function' or 'Class' after 'Template'"
  modify afterTemplate
  return .template loc decl

/-- A member with modifiers, or a bare field of a class. -/
def member (inClass : Bool) : Parser (Decl Loc) := do
  let m ← modifiers
  let next := (← peekSecond).kind
  match (← peek).kind with
  | .keyword .function => .proc <$> function m !m.isMustOverride
  | .keyword .sub =>
    if inClass && next = .keyword .new then .proc <$> constructor m
    else .proc <$> subroutine m !m.isMustOverride
  | .keyword .dim =>
    let _ ← consume
    .var <$> field false m
  | .keyword .const => .const <$> constant false
  | kind =>
    if inClass && kind = .identifier && (next = .keyword .as_ || next = .mark .leftBracket) then
      .var <$> field false m
    else unexpected (if inClass then "a class member" else "a declaration")

/-- A declaration with at most `fuel` declarations nested in one another. -/
def declarationAux : (fuel : Nat) → (inClass : Bool) → Parser (Decl Loc)
  | 0, _ => outOfFuel
  | fuel + 1, inClass => do
    skipNewlines
    let t ← peek
    match t.kind with
    | .keyword .namespace_ =>
      let _ ← consume
      let name ← dottedName "namespace name"
      return .nspace t.loc name
        (← members (declarationAux fuel false) .namespace_ "'End Namespace'")
    | .keyword .module_ =>
      let _ ← consume
      let name ← identifier "module name"
      return .module t.loc name (← members (declarationAux fuel false) .module_ "'End Module'")
    | .keyword .using_ =>
      let _ ← consume
      return .uses t.loc (← dottedName "namespace name")
    | .keyword .import_ =>
      let _ ← consume
      return .imports t.loc (← dottedName "module name")
    | .keyword .class_ => classDecl (declarationAux fuel true)
    | .keyword .interface => interface
    | .keyword .type => record .type .type "type name" "'End Type'"
    | .keyword .structure_ => record .struct .structure_ "structure name" "'End Structure'"
    | .keyword .typeDefine => typeDefine
    | .keyword .template => template (declarationAux fuel true)
    | .keyword .delegate => delegate
    | .keyword .extension => extension
    | .keyword .auto => .var <$> autoVar false
    | _ => member inClass

def program : Parser (Program Loc) := do
  skipNewlines
  let depth := (← get).length + 1
  whileNext (· ≠ .endOfFile) do
    let d ← declarationAux depth false
    skipNewlines
    return d

end Parser

def parse (tokens : List Token) : Except SyntaxError (Program Loc) :=
  (·.1) <$> Parser.program (Parser.stream tokens)

end BasicSSA
