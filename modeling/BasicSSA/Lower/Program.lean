import BasicSSA.Lower.Stmt

/-!
# Lowering of programs

A program is first flattened into the things that its module holds. Then the layouts of classes and
the variables of the module are made, then one function for each procedure with a body, and last a
function that gives the variables their values, as far as these are not constants.
-/

namespace BasicSSA

inductive Item where
  | global (info : Note) (name : String) (init : Option (Expr Note)) (isConstant : Bool)
  /-- A class with its own fields and the functions of its methods. -/
  | cls (info : Note) (name base : String) (fields : List (VarDecl Note)) (methods : List String)
  | record (info : Note) (name : String) (fields : List (VarDecl Note))
  /-- A procedure with the name of its function. The methods of a class that are not shared name
  the class. -/
  | procedure (proc : Procedure Note) (name : String) (owner : Option SymbolId)

namespace Decl

/-- A procedure of a class that may be marked as a template. -/
def method? : Decl Note → Option (Procedure Note)
  | .proc p | .template _ (.proc p) => some p
  | _ => none

def instanceField? : Decl Note → Option (VarDecl Note)
  | .var d => if d.modifiers.isShared then none else some d
  | _ => none

def memberItems (owner : Option SymbolId) (className : String) : Decl Note → List Item
  | .var d =>
    if d.modifiers.isShared then [.global d.info (className ++ "." ++ d.name) d.init false] else []
  | .const d => [.global d.info (className ++ "." ++ d.name) d.value true]
  | .proc p | .template _ (.proc p) =>
    [.procedure p (className ++ "." ++ p.name) (if p.modifiers.isShared then none else owner)]
  | _ => []

mutual

/-- What a declaration adds to a module, inside namespaces and modules of a dotted path. -/
def items (path : String) : Decl Note → List Item
  | .nspace _ n ds | .module _ n ds => itemsList (path ++ n ++ ".") ds
  | .cls i h ds =>
    let methods := (ds.filterMap method?).filter (·.body.isSome)
    .cls i h.name h.base (ds.filterMap instanceField?) (methods.map (h.name ++ "." ++ ·.name)) ::
      ds.flatMap (memberItems i.symbol h.name)
  | .record i _ n fields => [.record i n fields]
  | .interface _ n ps =>
    ps.map fun p => .procedure { p with body := none } (n ++ "." ++ p.name) none
  | .proc p | .extension _ _ p => [.procedure p (path ++ p.name) none]
  | .var d => [.global d.info (path ++ d.name) d.init false]
  | .const d => [.global d.info (path ++ d.name) d.value true]
  | .template _ d => d.items path
  | _ => []

def itemsList (path : String) : List (Decl Note) → List Item
  | [] => []
  | d :: ds => d.items path ++ itemsList path ds

end

end Decl

namespace Lower

open IL (Value Ty Build)

/-! ### The program as a whole -/

def namedType? (tree : ScopeTree) (i : Note) : Option TypeId :=
  i.symbol.bind fun x => (tree.symbol x).type

/-- What lowering knows about a program from its items. -/
def Env.ofItems (types : Catalog) (tree : ScopeTree) (items : List Item) : Env :=
  { types, tree
    procedures := items.filterMap fun
      | .procedure p name _ => p.info.symbol.map ((·, name))
      | _ => none
    globals := items.filterMap fun
      | .global i name _ _ => i.symbol.map ((·, name))
      | _ => none
    classes := items.filterMap fun
      | .cls i _ _ fields _ => (namedType? tree i).map ((·, fields))
      | _ => none }

def slots (env : Env) (fields : List (VarDecl Note)) : List IL.Slot :=
  fields.map fun d => { name := d.name, type := env.types.lowered (namedType? env.tree d.info) }

/-- Adds what an item is to the module, apart from code. -/
def declareItem (env : Env) : Item → Lower Unit
  | .global i name init isConstant => do
    match i.symbol with
    | none => throw (.notAnalyzed ("global '" ++ name ++ "'"))
    | some x =>
      let type := env.typeOfSymbol x
      let known := init.bind (·.constant? type)
      emit (Build.addGlobal { name, type, init := known, isConstant := isConstant && known.isSome })
  | .cls i name base fields methods => do
    if (namedType? env.tree i).isNone then throw (.notAnalyzed ("class '" ++ name ++ "'"))
    emit (Build.addClass { name, base, fields := slots env fields, methods })
  | .record i name fields => do
    if i.symbol.isNone then throw (.notAnalyzed ("record '" ++ name ++ "'"))
    emit (Build.addClass { name, fields := slots env fields })
  | .procedure .. => return ()

/-! ### Procedures -/

def params (p : Place) (scope : ScopeId) : List (Param Note) → Lower (List IL.Slot)
  | [] => return []
  | q :: qs => do
    match p.tree.findLocal? scope q.name with
    | none => throw (.notAnalyzed ("parameter '" ++ q.name ++ "'"))
    | some x =>
      let name ← nameOf p x
      let rest ← params p scope qs
      return { name, type := p.typeOfSymbol x } :: rest

def startFunction (name : String) (type : Ty) (params : List IL.Slot) : Lower Unit := do
  emit (Build.startFunction name type params)
  continueAt (← emit (Build.addBlock "entry"))

def resultType (env : Env) (x : SymbolId) : Ty :=
  let s := env.tree.symbol x
  if s.kind = .function then env.types.lowered s.returnType else {}

def ownerValue (env : Env) (owner : SymbolId) : Value :=
  .var "Me" 0 (env.typeOfSymbol owner)

def procedure (env : Env) (q : Procedure Note) (name : String) (owner : Option SymbolId) :
    Lower Unit := do
  match q.body, q.info.symbol, q.info.scope with
  | none, _, _ => return ()
  | some body, some x, some scope =>
    let me := owner.map (ownerValue env)
    let p : Place := { env with returnType := resultType env x, me }
    modify fun s => { s with names := { used := if me.isSome then [("ME", 1)] else [] } }
    let own := me.toList.map fun v => { name := "Me", type := v.type : IL.Slot }
    let slots ← params p scope q.params
    startFunction name p.returnType (own ++ slots)
    inScope (stmts p body)
    if !(← isTerminated) then returnDefault p q.info.loc
  | _, _, _ => throw (.notAnalyzed ("procedure '" ++ name ++ "'"))

def deferred (env : Env) (items : List Item) : List (String × Ty × Expr Note) :=
  items.filterMap fun
    | .global i name (some e) _ =>
      let type := env.types.lowered (namedType? env.tree i)
      if (e.constant? type).isSome then none else some (name, type, e)
    | _ => none

def initGlobal (p : Place) (name : String) (type : Ty) (e : Expr Note) : Lower Unit := do
  let v ← coerce (← expr p e) type e.info.loc
  emit (Build.store (.global name type) v e.info.loc)

/-- Makes the function that gives the variables of the module their values, if one is needed. -/
def initFunction (env : Env) (globals : List (String × Ty × Expr Note)) : Lower Unit := do
  if globals.isEmpty then return ()
  modify fun s => { s with names := {} }
  startFunction "__init" {} []
  globals.forM fun (name, type, e) => initGlobal { env with } name type e
  emit (Build.ret none {})

def itemCode (env : Env) : Item → Lower Unit
  | .procedure q name owner => procedure env q name owner
  | _ => return ()

def program (env : Env) (items : List Item) : Lower Unit := do
  items.forM (declareItem env)
  items.forM (itemCode env)
  initFunction env (deferred env items)

end Lower

def lower (a : Analysis) (moduleName : String) : Except LowerError IL.Module := do
  let items := Decl.itemsList "" a.program
  let start : LowerState := { builder := { finished := { name := moduleName } } }
  let (_, final) ← (Lower.program (.ofItems a.types a.tree items) items).run start
  return final.builder.module

end BasicSSA
