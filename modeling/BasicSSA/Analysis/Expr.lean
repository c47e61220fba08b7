import BasicSSA.Analysis.State

/-!
# Analysis of expressions

Every expression gets a type. An expression with an error in it gets a type that lets the check of
the rest go on, mostly `Object`.
-/

namespace BasicSSA

def Expr.typeId (e : Expr Note) : TypeId :=
  e.info.type.getD .object

/-- Where an expression stands: its scope, and the types of the objects of the `With` blocks around
it, innermost first. -/
structure Context where
  scope : ScopeId
  withTypes : List TypeId := []

/-! ### Rules -/

def Symbol.valueType (x : Symbol) : TypeId :=
  if x.isCallable then x.returnType.getD .object
  else if x.kind = .nspace || x.kind = .module then .object
  else x.type.getD .object

def Literal.typeId : Literal → TypeId
  | .integer _ => .integer
  | .long _ => .long
  | .single _ => .single
  | .double _ => .double
  | .string _ => .string
  | .boolean _ => .boolean
  | .nothing => .nothing

namespace Catalog

def demand (ok : Bool) (problem : Problem) : List Problem :=
  if ok then [] else [problem]

/-- The type of a binary operation on two types, and what is wrong with it. An operand with the type
of a type parameter is always accepted. -/
def binaryRule (c : Catalog) (op : BinaryOp) (l r : TypeId) : TypeId × List Problem :=
  let generic := c.isParameter l || c.isParameter r
  match op with
  | .add | .sub | .mul | .div | .mod =>
    if generic then (if c.isParameter l then l else r, [])
    else if l.isNumeric && r.isNumeric then (c.common l r, [])
    else (.integer, [.arithmeticOperands op.text])
  | .intDiv => (.integer, demand (generic || (l.isIntegral && r.isIntegral)) .integerDivision)
  | .concat => (.string, demand (generic || l = .string || r = .string) .concatOperands)
  | .lt | .le | .gt | .ge =>
    (.boolean, demand (generic || (l.isNumeric && r.isNumeric)) (.orderOperands op.text))
  | .eq | .ne =>
    (.boolean, demand (c.areComparable l r) (.incomparable (c.text l) (c.text r)))
  | .and | .or =>
    (.boolean, demand (generic || (l = .boolean && r = .boolean)) (.logicalOperands op.text))

/-- The type of a unary operation on a type, and what is wrong with it. The symbol of the operand
tells whether it can change. -/
def unaryRule (c : Catalog) (op : UnaryOp) (t : TypeId) (x : Option Symbol) :
    TypeId × List Problem :=
  if c.isParameter t then (if op = .not then .boolean else t, [])
  else
    match op with
    | .neg | .plus => (t, demand t.isNumeric (.unaryOperand op.text))
    | .not => (.boolean, demand (t = .boolean) .notOperand)
    | .preInc | .preDec | .postInc | .postDec =>
      let constant :=
        match x with
        | some x => demand (x.kind ≠ .constant) (.assignToConstant x.name)
        | none => []
      (t, demand t.isNumeric (.stepOperand op.text) ++ constant)
    | .deref =>
      match c.shape t with
      | .pointer target => (target, [])
      | _ => (.object, [.derefOperand (c.text t)])

/-- What is wrong with indices of some types into an array of some rank, apart from their number. -/
def indexProblems (c : Catalog) (types : List (TypeId × Loc)) : List (Problem × Loc) :=
  types.filterMap fun (t, loc) =>
    if t.isIntegral || c.isParameter t then none else some (.indexType (c.text t), loc)

/-- The common type of the elements of a collection; `Object` if they tell none. -/
def elementType (c : Catalog) (types : List TypeId) : TypeId :=
  match types with
  | [] => .object
  | t :: ts =>
    let t := ts.foldl c.common t
    if c.shape t = .null then .object else t

mutual

/-- Whether an expression may be stored where a type is wanted. A collection fits an array type if
each of its elements fits the element type. -/
def fits (c : Catalog) (target : TypeId) : Expr Note → Bool
  | .collection i es =>
    match c.shape target with
    | .array element _ => fitsAll c element es
    | _ => c.isAssignable target (i.type.getD .object)
  | e => c.isAssignable target e.typeId

def fitsAll (c : Catalog) (target : TypeId) : List (Expr Note) → Bool
  | [] => true
  | e :: es => c.fits target e && fitsAll c target es

end

/-- The element of a list that stands where a name is in another list. -/
def boundTo {α : Type} (name : String) : List String → List α → Option α
  | p :: ps, a :: as => if sameName p name then some a else boundTo name ps as
  | _, _ => none

/-- The type of a member of a generic type: a type parameter of the class is replaced by its
argument. -/
def memberType (c : Catalog) (object result : TypeId) (params : List String) : TypeId :=
  match c.shape object with
  | .generic args => if c.isParameter result then (boundTo (c.name result) params args).getD result
    else result
  | _ => result

end Catalog

namespace Analyze

/-! ### Names and members -/

/-- The symbol of a bare name: that of the scopes around it, or else an inherited member of the
class around it. -/
def resolve (cx : Context) (name : String) : Analyze (Option SymbolId) := do
  let s ← get
  let inherited := do
    let scope ← s.tree.class? cx.scope
    let t ← (s.tree.scope scope).classType
    s.types.findMember? t name
  return s.tree.find? cx.scope name <|> inherited

def classType? (cx : Context) : Analyze (Option TypeId) := do
  let t ← tree
  return (t.class? cx.scope).bind fun s => (t.scope s).classType

def memberOf (object : TypeId) (i : Note) (name : String) : Analyze Note := do
  let s ← get
  if s.types.isParameter object then return { i with type := some .object }
  else
    match s.types.findMember? object name with
    | none =>
      report (.noMember (s.types.text object) name) i.loc
      return { i with type := some .object }
    | some x =>
      let definition := (s.types.base object).bind (s.typeSymbols.lookup ·)
      let params := definition.elim [] fun d => (s.tree.symbol d).typeParams
      let t := s.types.memberType object (s.tree.symbol x).valueType params
      return { i with type := some t, symbol := some x }

def memberIn (owner : Symbol) (i : Note) (name : String) : Analyze Note := do
  let t ← tree
  match owner.inner.bind (t.findLocal? · name) with
  | none =>
    report (.noMemberIn owner.name name) i.loc
    return { i with type := some .object }
  | some x => return { i with type := some (t.symbol x).valueType, symbol := some x }

/-! ### Calls -/

def constructor? (t : TypeId) : Analyze (Option SymbolId) := do
  let s ← get
  return (s.types.findMember? t "New").filter fun x => (s.tree.symbol x).isCallable

def checkEach : (number : Nat) → List ParamInfo → List (Expr Note) → Analyze Unit
  | n, p :: ps, e :: es => do
    let c ← types
    let target := p.type.getD .object
    if !c.fits target e then
      report (.argumentType n (c.text e.typeId) (c.text target)) e.info.loc
    checkEach (n + 1) ps es
  | _, _, _ => return ()

/-- The type that a call gives. A type parameter is bound by the type arguments, or else by the
first argument for a parameter of its type. -/
def resultType (cx : Context) (loc : Loc) (callee : Symbol) (typeArgs : List TypeRef)
    (args : List (Expr Note)) : Analyze TypeId := do
  let c ← types
  let result := callee.returnType.getD .void
  if !c.isParameter result then return result
  let wanted := c.name result
  match Catalog.boundTo wanted callee.typeParams typeArgs with
  | some r => typeOf cx.scope r loc
  | none =>
    let bound := (callee.params.zip args).find? fun (p, _) =>
      p.type.any fun t => c.isParameter t && sameName (c.name t) wanted
    return bound.elim .object fun (_, e) => e.typeId

def checkCall (cx : Context) (loc : Loc) (callee : Symbol) (typeArgs : List TypeRef)
    (args : List (Expr Note)) : Analyze TypeId := do
  if args.length ≠ callee.params.length then
    report (.argumentCount callee.name callee.params.length args.length) loc
  else checkEach 1 callee.params args
  resultType cx loc callee typeArgs args

/-! ### Expressions -/

mutual

def expr (cx : Context) : Expr Note → Analyze (Expr Note)
  | .literal i v => return .literal { i with type := some v.typeId } v
  | .name i n => do
    match ← resolve cx n with
    | none =>
      report (.undefinedName n) i.loc n.length
      return .name { i with type := some .object } n
    | some x =>
      refer i.loc n.length x
      return .name { i with type := some (← symbol x).valueType, symbol := some x } n
  | .me i => do
    match ← classType? cx with
    | none =>
      report .meOutsideClass i.loc 2
      return .me { i with type := some .object }
    | some t => return .me { i with type := some t }
  | .binary i op l r => do
    let l ← expr cx l
    let r ← expr cx r
    let (t, problems) := (← types).binaryRule op l.typeId r.typeId
    reportAll problems i.loc
    return .binary { i with type := some t } op l r
  | .unary i op e => do
    let e ← expr cx e
    let (t, problems) := (← types).unaryRule op e.typeId (← symbol? e.info.symbol)
    reportAll problems i.loc
    return .unary { i with type := some t } op e
  | .member i e n => do
    let e ← expr cx e
    match ← symbol? e.info.symbol with
    | some owner =>
      if owner.kind = .nspace || owner.kind = .module then return .member (← memberIn owner i n) e n
      else return .member (← memberOf e.typeId i n) e n
    | none => return .member (← memberOf e.typeId i n) e n
  | .withMember i n => do
    match cx.withTypes with
    | [] =>
      report (.withRequired n) i.loc
      return .withMember { i with type := some .object } n
    | t :: _ => return .withMember (← memberOf t i n) n
  | .call i e ts as => do
    let e ← expr cx e
    let as ← exprs cx as
    match e.info.symbol with
    | none => return .call { i with type := some .object } e ts as
    | some x =>
      match ← signature? x with
      | none =>
        report (.notCallable (← symbol x).name) i.loc
        return .call { i with type := some .object } e ts as
      | some callee =>
        let t ← checkCall cx i.loc (← symbol callee) ts as
        return .call { i with type := some t, symbol := some x } e ts as
  | .index i e is => do
    let e ← expr cx e
    let is ← exprs cx is
    let c ← types
    match c.shape e.typeId with
    | .array element rank =>
      for (problem, loc) in c.indexProblems (is.map fun e => (e.typeId, e.info.loc)) do
        report problem loc
      if is.length ≠ rank then report (.indexCount rank is.length) i.loc
      return .index { i with type := some element } e is
    | _ =>
      report (.notArray (c.text e.typeId)) i.loc
      return .index { i with type := some .object } e is
  | .new i r as => do
    let t ← typeOf cx.scope r i.loc
    let c ← types
    if c.shape t = .interface then
      report (.newInterface (c.text t)) i.loc
      let as ← exprs cx as
      return .new { i with type := some t } r as
    else
      match ← constructor? t with
      | some x =>
        let as ← exprs cx as
        let _ ← checkCall cx i.loc (← symbol x) [] as
        return .new { i with type := some t, symbol := some x } r as
      | none =>
        let as ← exprs cx as
        return .new { i with type := some t } r as
  | .cast i e r => do
    let e ← expr cx e
    let t ← typeOf cx.scope r i.loc
    return .cast { i with type := some t } e r
  | .interpolated i ps => do
    let ps ← parts cx ps
    return .interpolated { i with type := some .string } ps
  | .collection i es => do
    let es ← exprs cx es
    let t ← withTypes fun c => c.arrayOf (c.elementType (es.map Expr.typeId)) 1
    return .collection { i with type := some t } es
  | .addressOf i e => do
    let e ← expr cx e
    let t ← withTypes (·.pointerTo e.typeId)
    return .addressOf { i with type := some t, symbol := e.info.symbol } e

def exprs (cx : Context) : List (Expr Note) → Analyze (List (Expr Note))
  | [] => return []
  | e :: es => do
    let e ← expr cx e
    let es ← exprs cx es
    return e :: es

def parts (cx : Context) : List (Part Note) → Analyze (List (Part Note))
  | [] => return []
  | .text s :: ps => do
    let ps ← parts cx ps
    return .text s :: ps
  | .expr e :: ps => do
    let e ← expr cx e
    let ps ← parts cx ps
    return .expr e :: ps

end

end Analyze

end BasicSSA
