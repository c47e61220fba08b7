import BasicSSA.Lower.Program
import BasicSSA.Proofs.Lower.Declarations
import BasicSSA.Proofs.Syntax.Nodes

/-!
# Scoped statements

What a statement asks of the procedure around it: that the variables it names are declared before
it, that it stands in a `With` block if it names a member of one, and in the loops that it leaves.
-/

namespace BasicSSA

namespace Lower

/-- A variable or a constant that belongs to the procedure. -/
def Env.IsLocal (env : Env) (x : SymbolId) : Prop :=
  env.globals.lookup x = none ∧
    ((env.tree.symbol x).kind = .variable ∨ (env.tree.symbol x).kind = .parameter ∨
      (env.tree.symbol x).kind = .constant)

/-- What surrounds a statement. -/
structure Scoping where
  /-- The variables that may be read. -/
  vars : List SymbolId := []
  inWith : Bool := false
  /-- The loops around, innermost first. -/
  loops : List ExitKind := []

namespace Scoping

/-- After declarations. -/
def declare (sc : Scoping) (xs : List SymbolId) : Scoping :=
  { sc with vars := xs ++ sc.vars }

/-- In the body of a loop. -/
def enter (sc : Scoping) (kind : ExitKind) : Scoping :=
  { sc with loops := kind :: sc.loops }

/-- In a `With` block. -/
def inside (sc : Scoping) : Scoping :=
  { sc with inWith := true }

/-- A node of an expression has been analysed and asks only for what surrounds it. -/
def Sees (sc : Scoping) (env : Env) : Node Note → Prop
  | .expr (.name i _) => ∃ x, i.symbol = some x ∧ (env.IsLocal x → x ∈ sc.vars)
  | .expr (.withMember ..) => sc.inWith = true
  | .expr (.new i _ _) => i.type.isSome
  | _ => True

def SeesAll (sc : Scoping) (env : Env) (e : Expr Note) : Prop :=
  ∀ n ∈ e.nodes, sc.Sees env n

end Scoping

end Lower

/-- The variables that a statement declares for those after it. -/
def Stmt.declared : Stmt Note → List SymbolId
  | .var d => d.info.symbol.toList
  | .const d => d.info.symbol.toList
  | _ => []

namespace Lower

mutual

/-- A statement asks only for what surrounds it. -/
def Scoped (env : Env) : Scoping → Stmt Note → Prop
  | sc, .ifThen _ c b e => sc.SeesAll env c ∧ ScopedAll env sc b ∧ ScopedElse env sc e
  | sc, .select _ e cs => sc.SeesAll env e ∧ ScopedCases env sc cs
  | sc, .forLoop i _ a z s b =>
    sc.SeesAll env a ∧ sc.SeesAll env z ∧ (∀ e, s = some e → sc.SeesAll env e) ∧
      ∃ x, i.symbol = some x ∧ ScopedAll env ((sc.declare [x]).enter .forLoop) b
  | sc, .forEach i _ _ e b =>
    sc.SeesAll env e ∧
      ∃ x, i.symbol = some x ∧ ScopedAll env ((sc.declare [x]).enter .forLoop) b
  | sc, .whileLoop _ c b => sc.SeesAll env c ∧ ScopedAll env (sc.enter .whileLoop) b
  | sc, .doLoop _ t b =>
    (∀ l, t = some l → sc.SeesAll env l.cond) ∧ ScopedAll env (sc.enter .doLoop) b
  | sc, .tryCatch _ b cs none => ScopedAll env sc b ∧ ScopedCatches env sc cs
  | sc, .tryCatch _ b cs (some l) =>
    ScopedAll env sc b ∧ ScopedCatches env sc cs ∧ ScopedAll env sc l
  | sc, .withBlock _ e b => sc.SeesAll env e ∧ ScopedAll env sc.inside b
  | sc, .throw _ e => ∀ v, e = some v → sc.SeesAll env v
  | sc, .return_ _ e => ∀ v, e = some v → sc.SeesAll env v
  | sc, .exit _ kind => kind = .sub ∨ kind = .function ∨ kind ∈ sc.loops
  | sc, .assign _ target _ e => sc.SeesAll env target ∧ sc.SeesAll env e
  | sc, .expr _ e => sc.SeesAll env e
  | sc, .var d => d.info.symbol.isSome ∧ ∀ e, d.init = some e → sc.SeesAll env e
  | sc, .const d => d.info.symbol.isSome ∧ ∃ e, d.value = some e ∧ sc.SeesAll env e

def ScopedAll (env : Env) : Scoping → List (Stmt Note) → Prop
  | _, [] => True
  | sc, s :: ss => Scoped env sc s ∧ ScopedAll env (sc.declare s.declared) ss

def ScopedElse (env : Env) : Scoping → Else Note → Prop
  | _, .nothing => True
  | sc, .block b => ScopedAll env sc b
  | sc, .elseIf _ c b e => sc.SeesAll env c ∧ ScopedAll env sc b ∧ ScopedElse env sc e

def ScopedCases (env : Env) : Scoping → List (Case Note) → Prop
  | _, [] => True
  | sc, .values _ vs b :: cs =>
    (∀ v ∈ vs, sc.SeesAll env v) ∧ ScopedAll env sc b ∧ ScopedCases env sc cs
  | sc, .otherwise _ b :: cs => ScopedAll env sc b ∧ ScopedCases env sc cs

def ScopedCatches (env : Env) : Scoping → List (Catch Note) → Prop
  | _, [] => True
  | sc, .mk i _ _ b :: cs =>
    ScopedAll env (sc.declare i.symbol.toList) b ∧ ScopedCatches env sc cs

end

/-! ### Items -/

/-- The values of fields name no variables of procedures and no members of `With` blocks. -/
def Env.FieldsScoped (env : Env) : Prop :=
  ∀ t ds, env.classes.lookup t = some ds → ∀ d ∈ ds, ∀ e, d.init = some e →
    ({} : Scoping).SeesAll env e

/-- A procedure has been analysed. It declares its variables in order, and its body asks only for its
parameters. -/
def ScopedProcedure (env : Env) (q : Procedure Note) (full : String) : Prop :=
  ∀ body, q.body = some body → full.isEmpty = false ∧ q.info.symbol.isSome ∧
    ∃ scope, q.info.scope = some scope ∧
      (∀ a ∈ q.params, (env.tree.findLocal? scope a.name).isSome) ∧
      (∃ hi, Declaration.InOrder 0 hi (q.declarations env.tree)) ∧
      ScopedAll env { vars := q.params.filterMap fun a => env.tree.findLocal? scope a.name } body

/-- An item has been analysed and asks for nothing that is not there. -/
def ScopedItem (env : Env) : Item → Prop
  | .global i _ init _ => i.symbol.isSome ∧ ∀ e, init = some e → ({} : Scoping).SeesAll env e
  | .cls i _ _ fields _ =>
    (namedType? env.tree i).isSome ∧
      ∀ d ∈ fields, ∀ e, d.init = some e → ({} : Scoping).SeesAll env e
  | .record i _ _ => i.symbol.isSome
  | .procedure q full _ => ScopedProcedure env q full

section Tables

variable {types : Catalog} {tree : ScopeTree} {items : List Item}

theorem exists_class (h : (Env.ofItems types tree items).classes.lookup t = some ds) :
    ∃ i name base methods, .cls i name base ds methods ∈ items ∧ namedType? tree i = some t := by
  obtain ⟨_, _, heq, -⟩ := List.lookup_eq_some_iff.mp h
  have hmem : (t, ds) ∈ (Env.ofItems types tree items).classes := by simp [heq]
  obtain ⟨item, hitem, hx⟩ := List.mem_filterMap.mp hmem
  cases item with
  | cls i name base fields methods =>
    obtain ⟨_, ht, he⟩ := Option.map_eq_some_iff.mp hx
    cases he
    exact ⟨_, _, _, _, hitem, ht⟩
  | _ => cases hx

theorem exists_global (h : (Env.ofItems types tree items).globals.lookup x = some name) :
    ∃ i init isConstant, .global i name init isConstant ∈ items ∧ i.symbol = some x := by
  obtain ⟨_, _, heq, -⟩ := List.lookup_eq_some_iff.mp h
  have hmem : (x, name) ∈ (Env.ofItems types tree items).globals := by simp [heq]
  obtain ⟨item, hitem, hx⟩ := List.mem_filterMap.mp hmem
  cases item with
  | global i name init isConstant =>
    obtain ⟨_, hy, he⟩ := Option.map_eq_some_iff.mp hx
    cases he
    exact ⟨_, _, _, hitem, hy⟩
  | _ => cases hx

theorem exists_deferred (h : (name, type, e) ∈ deferred env items) :
    ∃ i isConstant, .global i name (some e) isConstant ∈ items ∧
      ¬(e.constant? (env.types.lowered (namedType? env.tree i))).isSome := by
  obtain ⟨item, hitem, hx⟩ := List.mem_filterMap.mp h
  dsimp only at hx
  split at hx
  · split at hx
    · cases hx
    · cases hx
      exact ⟨_, _, hitem, ‹_›⟩
  · cases hx

theorem fieldsScoped_ofItems
    (h : ∀ item ∈ items, ScopedItem (.ofItems types tree items) item) :
    (Env.ofItems types tree items).FieldsScoped := by
  intro t ds hds d hd e he
  obtain ⟨_, _, _, _, hitem, -⟩ := exists_class hds
  exact (h _ hitem).2 d hd e he

end Tables

end Lower

end BasicSSA
