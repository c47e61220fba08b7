import BasicSSA.Lower.State

/-!
# Lowering of expressions
-/

namespace BasicSSA

/-- The operation that does the work of an operator. -/
def BinaryOp.opcode : BinaryOp → IL.Opcode
  | .or => .or
  | .and => .and
  | .eq => .cmpEq
  | .ne => .cmpNe
  | .lt => .cmpLt
  | .le => .cmpLe
  | .gt => .cmpGt
  | .ge => .cmpGe
  | .add => .add
  | .sub => .sub
  | .concat => .concat
  | .mul => .mul
  | .div => .div
  | .intDiv => .idiv
  | .mod => .mod

/-- The order of the kinds, narrow before wide. -/
def IL.Kind.rank : IL.Kind → Nat
  | .void => 0
  | .i1 => 1
  | .i16 => 2
  | .i32 => 3
  | .i64 => 4
  | .f32 => 5
  | .f64 => 6
  | .str => 7
  | .ptr => 8

/-- How two values that are stored differently are compared. -/
def IL.Kind.forComparison (a b : IL.Kind) : IL.Kind :=
  if a = .f64 || b = .f64 then .f64
  else if a = .f32 || b = .f32 then .f32
  else if b.rank < a.rank then a else b

namespace Lower

open IL (Value Ty Opcode Build)

/-! ### Operators -/

/-- An arithmetic or logical operation of a type, or the concatenation of two texts. -/
def arith (op : BinaryOp) (l r : Value) (type : Ty) (loc : Loc) : Lower Value := do
  if op = .concat then
    let l ← toText l loc
    let r ← toText r loc
    emit (Build.binary .concat .string l r loc)
  else
    let l ← coerce l type loc
    let r ← coerce r type loc
    emit (Build.binary op.opcode type l r loc)

def unify (p : Place) (li ri : Note) (l r : Value) : Lower (Value × Value) := do
  if l.type.kind = r.type.kind then return (l, r)
  else if l.isNull then return (.null r.type, r)
  else if r.isNull then return (l, .null l.type)
  else
    let kind := l.type.kind.forComparison r.type.kind
    let common := p.types.common (li.type.getD .object) (ri.type.getD .object)
    let common := p.types.lowered (some common)
    let type := if common.kind = kind then common else { kind }
    let l ← coerce l type li.loc
    let r ← coerce r type ri.loc
    return (l, r)

def binary (p : Place) (i : Note) (op : BinaryOp) (li ri : Note) (l r : Value) : Lower Value := do
  if op.opcode.isCompare then
    let (l, r) ← unify p li ri l r
    emit (Build.compare op.opcode l r i.loc)
  else arith op l r (p.typeOf i) i.loc

def unary (p : Place) (i : Note) (op : UnaryOp) (v : Value) : Lower Value := do
  let type := p.typeOf i
  match op, v with
  | .neg, .int n t => return .int (-n) t
  | .neg, .float d t => return .float d.neg t
  | .neg, v => emit (Build.unary .neg type (← coerce v type i.loc) i.loc)
  | .not, .bool b => return .bool !b
  | .not, v => emit (Build.unary .not type v i.loc)
  | .deref, v => emit (Build.load type v i.loc)
  | _, v => return v

/-- The operator that `++` or `--` applies. -/
def stepOp? : UnaryOp → Option BinaryOp
  | .preInc | .postInc => some .add
  | .preDec | .postDec => some .sub
  | _ => none

/-- A value of an expression as a value of the type that it is cast to. -/
def cast (p : Place) (i : Note) (v : Value) : Lower Value := do
  let target := p.typeOf i
  if target.kind = .ptr && v.type.kind = .ptr && v.type ≠ target && !v.isNull then
    emit (Build.cast v target i.loc)
  else coerce v target i.loc

def joined (before : Option Value) (v : Value) (loc : Loc) : Lower Value :=
  match before with
  | none => return v
  | some before => emit (Build.binary .concat .string before v loc)

/-! ### Variables, procedures and objects -/

/-- The value of a variable, a constant, a parameter or a field of `Me`. A constant of the module
whose value is known needs no code. -/
def readSymbol (p : Place) (i : Note) (x : SymbolId) : Lower Value := do
  let s := p.tree.symbol x
  match p.globals.lookup x with
  | some name =>
    let type := p.typeOfSymbol x
    match ((← get).builder.finished.global? name).bind IL.Global.known? with
    | some v => return v
    | none => emit (Build.load type (.global name type) i.loc)
  | none =>
    match s.kind with
    | .field => emit (Build.fieldLoad (p.typeOf i) (← me p) s.name i.loc)
    | .variable | .parameter | .constant => read p x
    | _ => throw (.notValue s.name)

def storeGlobal (p : Place) (name : String) (x : SymbolId) (v : Value) (loc : Loc) :
    Lower Unit := do
  let type := p.typeOfSymbol x
  emit (Build.store (.global name type) (← coerce v type loc) loc)

def storeField (p : Place) (object : Value) (x : SymbolId) (v : Value) (loc : Loc) :
    Lower Unit := do
  emit (Build.fieldStore object (p.tree.symbol x).name (← coerce v (p.typeOfSymbol x) loc) loc)

/-- Calls a procedure, on an object if it belongs to one. -/
def callProcedure (p : Place) (site : Note) (x : SymbolId) (self : Option Value)
    (args : List Value) : Lower (Option Value) := do
  match p.function? x with
  | none => throw (.noFunctionFor (p.tree.symbol x).name)
  | some function =>
    emit (Build.call function (self.toList ++ args) (p.returnTypeAt site x) site.loc)

/-- The object that a procedure is called on, if it needs one. -/
def onObject (isNeeded : Bool) (object : Lower Value) : Lower (Option Value) := do
  if isNeeded then return some (← object) else return none

/-- A member as a value: what a procedure gives without arguments, a variable of the module, or a
field of the object. -/
def readMember (p : Place) (i : Note) (n : String) (isContainer : Bool) (object : Lower Value) :
    Lower (Option Value) := do
  match i.symbol with
  | none => throw (.notAnalyzed ("member '" ++ n ++ "'"))
  | some x =>
    if p.isCallable x then
      let self ← onObject (p.isInstanceMember x && !isContainer) object
      return some (← needed (.subroutineAsValue n) (← callProcedure p i x self []))
    else if (p.globals.lookup x).isSome then return some (← readSymbol p i x)
    else
      let object ← object
      return some (← emit (Build.fieldLoad (p.typeOf i) object (p.tree.symbol x).name i.loc))

def storeMember (p : Place) (i : Note) (object : Lower Value) (v : Value) (loc : Loc) :
    Lower Unit := do
  match i.symbol with
  | none => throw (.notAnalyzed "assignment target")
  | some x =>
    match p.globals.lookup x with
    | some name => storeGlobal p name x v loc
    | none => storeField p (← object) x v loc

/-- The variable of the procedure that an assignment to an expression gives a new version. -/
def Env.bound? (env : Env) : Expr Note → Option SymbolId
  | .name i _ => i.symbol.filter fun x =>
    (env.globals.lookup x).isNone && (env.tree.symbol x).kind ≠ .field
  | _ => none

/-- What `++` and `--` give: the old value, or the value that the expression has now. -/
def stepped (p : Place) (op : UnaryOp) (e : Expr Note) (old new : Value) :
    Lower (Option Value) := do
  if op.isPost then return some old
  else
    match p.bound? e with
    | some x => return some (← read p x)
    | none => return some new

/-- An argument as a value of the type of its parameter. A parameter that holds an object takes any
value as it is. -/
def argument (p : Place) (param : Option ParamInfo) (v : Value) (loc : Loc) : Lower Value :=
  match param with
  | none => return v
  | some param =>
    let type := p.types.lowered param.type
    if type.kind = .ptr then return v else coerce v type loc

/-- The type that defines the members of a type. -/
def definitionOf (c : Catalog) (t : TypeId) : TypeId :=
  match c.shape t with
  | .generic _ => (c.base t).getD t
  | _ => t

/-! ### Expressions -/

def valued (step : Lower (Option Value)) : Lower Value := do
  needed .callAsValue (← step)

section

/- How the fields of a new object get their values. -/
variable (fields : Place → Value → TypeId → Lower Unit)

mutual

/-- Lowers an expression. Only a call may have no value. -/
def expr? (p : Place) : Expr Note → Lower (Option Value)
  | .literal i v => return some (v.value (p.typeOf i))
  | .me _ => return some (← me p)
  | .name i n => do
    match i.symbol with
    | none => throw (.notAnalyzed ("identifier '" ++ n ++ "'"))
    | some x =>
      if p.isCallable x then
        let self ← onObject (p.isInstanceMember x) (me p)
        return some (← needed (.subroutineAsValue n) (← callProcedure p i x self []))
      else return some (← readSymbol p i x)
  | .binary i op l r => do
    let lv ← valued (expr? p l)
    let rv ← valued (expr? p r)
    return some (← binary p i op l.info r.info lv rv)
  | .unary i op e => do
    match stepOp? op with
    | none => return some (← unary p i op (← valued (expr? p e)))
    | some step =>
      let type := p.typeOf e.info
      let old ← valued (expr? p e)
      let new ← arith step old type.one type i.loc
      store p new i.loc e
      stepped p op e old new
  | .member i o n => readMember p i n (p.isContainer o.info) (valued (expr? p o))
  | .withMember i n => readMember p i n false (withValue p n)
  | .call i callee _ args => do
    match callee.info.symbol with
    | none => throw (.notAnalyzed "call target")
    | some x =>
      if p.isCallable x then
        let self ← receiver p x callee
        let args ← arguments p (p.tree.symbol x).params args
        callProcedure p i x self args
      else
        let f ← valued (expr? p callee)
        let args ← arguments p [] args
        emit (Build.call "__invoke" (f :: args) (p.typeOf i) i.loc)
  | .index i a is => do
    let array ← valued (expr? p a)
    let is ← indices p is
    let address ← emit (Build.gep (p.typeOf i) array is i.loc)
    return some (← emit (Build.load (p.typeOf i) address i.loc))
  | .new i t args => do
    match i.type with
    | none => throw (.notAnalyzed ("'New " ++ t.name ++ "'"))
    | some type =>
      let definition := definitionOf p.types type
      let object ← emit (Build.newObject (p.typeOf i) (p.types.name definition) [] i.loc)
      fields p object definition
      match i.symbol with
      | some x =>
        if p.isCallable x then
          let args ← arguments p (p.tree.symbol x).params args
          let _ ← callProcedure p i x (some object) args
      | none => pure ()
      return some object
  | .cast i e _ => do
    return some (← cast p i (← valued (expr? p e)))
  | .interpolated i ps => do
    let text ← parts p i.loc none ps
    return some (text.getD (.str ""))
  | .collection i es => do
    let array ← runtime "rt_array_new" [.long (.ofNat es.length)] (p.typeOf i) i.loc
    elements p (p.types.lowered (i.type.bind p.types.element)) array 0 es
    return some array
  | .addressOf i e => do
    match e.info.symbol.filter p.isCallable with
    | some x =>
      match p.function? x with
      | none => throw (.noFunctionFor (p.tree.symbol x).name)
      | some function => return some (.global function (p.typeOf i))
    | none =>
      let v ← valued (expr? p e)
      let slot ← emit (Build.alloca v.type i.loc)
      emit (Build.store slot v i.loc)
      return some slot

/-- The object that a procedure is called on: that of a member access, or else `Me`. -/
def receiver (p : Place) (x : SymbolId) : Expr Note → Lower (Option Value)
  | .member _ o _ =>
    onObject (p.isInstanceMember x && !p.isContainer o.info) (valued (expr? p o))
  | .withMember _ n => onObject (p.isInstanceMember x) (withValue p n)
  | _ => onObject (p.isInstanceMember x) (me p)

def arguments (p : Place) : List ParamInfo → List (Expr Note) → Lower (List Value)
  | _, [] => return []
  | params, e :: es => do
    let v ← valued (expr? p e)
    let v ← argument p params.head? v e.info.loc
    let vs ← arguments p params.tail es
    return v :: vs

def indices (p : Place) : List (Expr Note) → Lower (List Value)
  | [] => return []
  | e :: es => do
    let v ← valued (expr? p e)
    let v ← coerce v .long e.info.loc
    let vs ← indices p es
    return v :: vs

def parts (p : Place) (loc : Loc) (before : Option Value) : List (Part Note) → Lower (Option Value)
  | [] => return before
  | .text s :: ps => do
    let v ← joined before (.str s) loc
    parts p loc (some v) ps
  | .expr e :: ps => do
    let v ← valued (expr? p e)
    let v ← toText v loc
    let v ← joined before v loc
    parts p loc (some v) ps

def elements (p : Place) (type : Ty) (array : Value) (k : Nat) : List (Expr Note) → Lower Unit
  | [] => return ()
  | e :: es => do
    let v ← valued (expr? p e)
    let v ← coerce v type e.info.loc
    let address ← emit (Build.gep type array [.long (.ofNat k)] e.info.loc)
    emit (Build.store address v e.info.loc)
    elements p type array (k + 1) es

/-- Gives a value to what an expression stands for. -/
def store (p : Place) (v : Value) (loc : Loc) : Expr Note → Lower Unit
  | .name i _ => do
    match i.symbol with
    | none => throw (.notAnalyzed "assignment target")
    | some x =>
      match p.globals.lookup x with
      | some name => storeGlobal p name x v loc
      | none =>
        if (p.tree.symbol x).kind = .field then storeField p (← me p) x v loc
        else bind p x v loc
  | .member i o _ => storeMember p i (valued (expr? p o)) v loc
  | .withMember i n => storeMember p i (withValue p n) v loc
  | .index i a is => do
    let array ← valued (expr? p a)
    let is ← indices p is
    let address ← emit (Build.gep (p.typeOf i) array is i.loc)
    emit (Build.store address (← coerce v (p.typeOf i) loc) loc)
  | .unary i .deref e => do
    let address ← valued (expr? p e)
    emit (Build.store address (← coerce v (p.typeOf i) loc) loc)
  | _ => throw .notAssignable

end

end

/-- Gives a field of a new object its value, if it has one. -/
def initField (p : Place) (lowered : Expr Note → Lower Value) (object : Value) (d : VarDecl Note) :
    Lower Unit := do
  match d.init with
  | none => return ()
  | some e =>
    let v ← lowered e
    let type := p.types.lowered (d.info.symbol.bind fun x => (p.tree.symbol x).type)
    let v ← coerce v type d.info.loc
    emit (Build.fieldStore object d.name v d.info.loc)

/-- A class and its bases as far as they have fields of their own, the last base first. -/
def ancestry (p : Place) (t : TypeId) : List TypeId :=
  ((p.types.bases t).takeWhile fun t => (p.classes.lookup t).isSome).reverse

/-- Gives the fields of a new object their values, those of the base first. New objects in these
values may nest at most `fuel` deep. -/
def initFieldsAux : (fuel : Nat) → Place → (object : Value) → TypeId → Lower Unit
  | 0, p, _, t => throw (.endlessFields (p.types.name t))
  | fuel + 1, p, object, t =>
    let p := { p with me := some object }
    (ancestry p t).forM fun t =>
      ((p.classes.lookup t).getD []).forM
        (initField p (fun e => valued (expr? (initFieldsAux fuel) p e)) object)

/-- Gives the fields of a new object their values. If these do not nest forever, then along a nest
of new objects every class comes once. -/
def initFields (p : Place) : Value → TypeId → Lower Unit :=
  initFieldsAux (p.classes.length + 2) p

/-- Lowers an expression that must have a value. -/
def expr (p : Place) (e : Expr Note) : Lower Value :=
  valued (expr? initFields p e)

/-- Lowers an expression whose value is not used. The bare name of a procedure calls it. -/
def exprStmt (p : Place) (e : Expr Note) : Lower Unit := do
  match e, e.info.symbol.filter p.isCallable with
  | .call .., _ | _, none => let _ ← expr? initFields p e
  | e, some x =>
    let self ← receiver initFields p x e
    let _ ← callProcedure p e.info x self []

def assign (p : Place) (target : Expr Note) (v : Value) (loc : Loc) : Lower Unit :=
  store initFields p v loc target

end Lower

end BasicSSA
