import BasicSSA.Proofs.Lower.Settled

/-!
# Call sites

Which parts of a program code is made from, and which of them call a procedure: with how many
arguments, whether with an object, and in which order.
-/

namespace BasicSSA

open List (mem_append mem_cons mem_flatMap)

/-- The conditions of an `If` after the first. -/
def Else.conditions {α : Type} : Else α → List (Expr α)
  | .nothing | .block _ => []
  | .elseIf _ c _ e => c :: e.conditions

namespace Lower

/-- How a procedure is called. -/
structure CallSite where
  callee : SymbolId
  /-- Whether there is an object before the arguments. -/
  hasObject : Bool
  args : Nat
  loc : Loc

namespace Env

variable (env : Env)

/-! ### Calls -/

/-- The procedure that an expression names. -/
def callee? (i : Note) : Option SymbolId :=
  i.symbol.filter env.isCallable

/-- Whether a procedure is called on an object where an expression names it. -/
def hasReceiver (x : SymbolId) : Expr Note → Bool
  | .member _ o _ => env.isInstanceMember x && !env.isContainer o.info
  | _ => env.isInstanceMember x

/-- The call of the procedure that an expression names. -/
def callOf? (e : Expr Note) (args : Nat) (loc : Loc) : Option CallSite :=
  (env.callee? e.info).map fun x => { callee := x, hasObject := env.hasReceiver x e, args, loc }

/-- The call that a node makes. A name and a member access call without arguments, and so does a
statement that only names a procedure. -/
def callSite? : Node Note → Option CallSite
  | .expr (.call i e _ as) => env.callOf? e as.length i.loc
  | .expr (.new i _ as) =>
    (env.callee? i).map ({ callee := ·, hasObject := true, args := as.length, loc := i.loc })
  | .expr (.name i n) => env.callOf? (.name i n) 0 i.loc
  | .expr (.member i o n) => env.callOf? (.member i o n) 0 i.loc
  | .expr (.withMember i n) => env.callOf? (.withMember i n) 0 i.loc
  | .stmt (.expr _ (.call ..)) => none
  | .stmt (.expr _ e) => env.callOf? e 0 e.info.loc
  | _ => none

/-! ### Code -/

mutual

/-- The nodes that the code of an expression is made from: not those that only name the procedure of
a call, or the one whose address is taken. -/
def evaluated : Expr Note → List (Node Note)
  | .literal i v => [.expr (.literal i v)]
  | .name i n => [.expr (.name i n)]
  | .me i => [.expr (.me i)]
  | .binary i op l r => .expr (.binary i op l r) :: (evaluated l ++ evaluated r)
  | .unary i op e => .expr (.unary i op e) :: evaluated e
  | .member i o n => .expr (.member i o n) :: evaluated o
  | .withMember i n => [.expr (.withMember i n)]
  | .call i e ts as =>
    .expr (.call i e ts as) ::
      ((if (env.callee? e.info).isSome then receiverNodes e else evaluated e) ++ evaluatedList as)
  | .index i e is => .expr (.index i e is) :: (evaluated e ++ evaluatedList is)
  | .new i t as => .expr (.new i t as) :: evaluatedList as
  | .cast i e t => .expr (.cast i e t) :: evaluated e
  | .interpolated i ps => .expr (.interpolated i ps) :: evaluatedParts ps
  | .collection i es => .expr (.collection i es) :: evaluatedList es
  | .addressOf i e =>
    .expr (.addressOf i e) :: if (env.callee? e.info).isSome then [] else evaluated e

/-- The nodes of the object that a procedure is called on. -/
def receiverNodes : Expr Note → List (Node Note)
  | .member _ o _ => evaluated o
  | _ => []

def evaluatedList : List (Expr Note) → List (Node Note)
  | [] => []
  | e :: es => evaluated e ++ evaluatedList es

def evaluatedParts : List (Part Note) → List (Node Note)
  | [] => []
  | .text _ :: ps => evaluatedParts ps
  | .expr e :: ps => evaluated e ++ evaluatedParts ps

end

/-- The nodes that a store to an expression is made from. -/
def targetNodes : Expr Note → List (Node Note)
  | .member _ o _ => env.evaluated o
  | .index _ e is => env.evaluated e ++ env.evaluatedList is
  | .unary _ .deref e => env.evaluated e
  | _ => []

/-- The nodes that an expression is made from whose value is not used. -/
def effectNodes (e : Expr Note) : List (Node Note) :=
  match e, env.callee? e.info with
  | .call .., _ | _, none => env.evaluated e
  | e, some _ => env.receiverNodes e

/-- The nodes that the code of a statement is made from, apart from the statements in it. -/
def stmtNodes : Stmt Note → List (Node Note)
  | .ifThen _ c _ e => env.evaluatedList (c :: e.conditions)
  | .select _ e cs => env.evaluatedList (e :: cs.flatMap Case.tests)
  | .forLoop _ _ a z s _ => env.evaluatedList (a :: z :: s.toList)
  | .doLoop _ t _ => env.evaluatedList (t.toList.map (·.cond))
  | .forEach _ _ _ e _ | .whileLoop _ e _ | .withBlock _ e _ => env.evaluated e
  | .tryCatch .. | .exit .. => []
  | .throw _ e | .return_ _ e => env.evaluatedList e.toList
  | .assign _ t op e =>
    env.evaluated e ++ env.targetNodes t ++ if op = .assign then [] else env.evaluated t
  | .expr _ e => env.effectNodes e
  | .var d => env.evaluatedList d.init.toList
  | .const d => env.evaluatedList d.value.toList

/-- The nodes that the code of an item is made from. -/
def itemNodes : Item → List (Node Note)
  | .global _ _ init _ => env.evaluatedList init.toList
  | .cls _ _ _ fields _ => env.evaluatedList (fields.filterMap (·.init))
  | .record .. => []
  | .procedure p _ _ => (p.body.elim [] Stmt.nodesList).flatMap fun
    | .stmt s => .stmt s :: env.stmtNodes s
    | .expr _ => []

/-! ### Calls in the order of the code -/

/-- A symbol stands for something that objects have. -/
def isOwned (i : Note) : Bool :=
  i.symbol.all fun x => (env.globals.lookup x).isNone

/-- The value of a member is made from its object. -/
def needsObject (i o : Note) : Bool :=
  match env.callee? i with
  | some x => env.isInstanceMember x && !env.isContainer o
  | none => env.isOwned i

section

/- The calls that give the fields of a new object their values. -/
variable (fields : TypeId → List CallSite)

mutual

/-- The calls that the code of an expression makes, in the order in which it makes them. -/
def calls : Expr Note → List CallSite
  | .literal .. | .me _ => []
  | .name i n => (env.callSite? (.expr (.name i n))).toList
  | .withMember i n => (env.callSite? (.expr (.withMember i n))).toList
  | .binary _ _ l r => calls l ++ calls r
  | .unary _ op e => calls e ++ if (stepOp? op).isSome then storeCalls e else []
  | .member i o n =>
    (if env.needsObject i o.info then calls o else []) ++
      (env.callSite? (.expr (.member i o n))).toList
  | .call i e ts as =>
    (if (env.callee? e.info).isSome then receiverCalls e else calls e) ++ (callsList as ++
      (env.callSite? (.expr (.call i e ts as))).toList)
  | .index _ e is => calls e ++ callsList is
  | .new i t as =>
    i.type.elim [] (fun t => fields (definitionOf env.types t)) ++
      if (env.callee? i).isSome then
        callsList as ++ (env.callSite? (.expr (.new i t as))).toList
      else []
  | .cast _ e _ => calls e
  | .interpolated _ ps => callsParts ps
  | .collection _ es => callsList es
  | .addressOf _ e => if (env.callee? e.info).isSome then [] else calls e

/-- The calls in the object that a procedure is called on. -/
def receiverCalls : Expr Note → List CallSite
  | .member i o _ => if env.needsObject i o.info then calls o else []
  | _ => []

def callsList : List (Expr Note) → List CallSite
  | [] => []
  | e :: es => calls e ++ callsList es

def callsParts : List (Part Note) → List CallSite
  | [] => []
  | .text _ :: ps => callsParts ps
  | .expr e :: ps => calls e ++ callsParts ps

/-- The calls that a store to an expression makes. -/
def storeCalls : Expr Note → List CallSite
  | .member i o _ => if env.isOwned i then calls o else []
  | .index _ e is => calls e ++ callsList is
  | .unary _ .deref e => calls e
  | _ => []

end

/-- The calls that an expression makes whose value is not used. -/
def effectCalls (e : Expr Note) : List CallSite :=
  match e, env.callee? e.info with
  | .call .., _ | _, none => env.calls fields e
  | e, some _ => env.receiverCalls fields e ++ (env.callOf? e 0 e.info.loc).toList

end

/-- The calls that give the fields of a new object their values. -/
def fieldCalls : Nat → TypeId → List CallSite
  | 0, _ => []
  | fuel + 1, t => (ancestry { env with } t).flatMap fun t =>
    ((env.classes.lookup t).getD []).flatMap fun d => d.init.elim [] (env.calls (fieldCalls fuel))

/-- The calls that a new object makes before its constructor is called. -/
def newCalls : TypeId → List CallSite :=
  env.fieldCalls (env.classes.length + 2)

variable {env}

theorem mem_evaluated_self (e : Expr Note) : .expr e ∈ env.evaluated e := by
  cases e <;> simp [evaluated]

theorem mem_evaluatedList :
    n ∈ env.evaluatedList es ↔ ∃ e ∈ es, n ∈ env.evaluated e := by
  induction es with
  | nil => simp [evaluatedList]
  | cons e es ih => simp [evaluatedList, ih]

mutual

theorem mem_nodes_of_evaluated : (e : Expr Note) → n ∈ env.evaluated e → n ∈ e.nodes
  | .literal .., h | .name .., h | .me _, h | .withMember .., h => h
  | .binary _ _ l r, h => by
    simp only [evaluated, Expr.nodes, mem_cons, mem_append] at h ⊢
    exact h.imp_right (·.imp (mem_nodes_of_evaluated l) (mem_nodes_of_evaluated r))
  | .unary _ _ e, h | .member _ e _, h | .cast _ e _, h => by
    simp only [evaluated, Expr.nodes, mem_cons] at h ⊢
    exact h.imp_right (mem_nodes_of_evaluated e)
  | .call _ e _ es, h => by
    simp only [evaluated, Expr.nodes, mem_cons, mem_append] at h ⊢
    refine h.imp_right (·.imp (fun h => ?_) (mem_nodesList_of_evaluated es))
    split at h
    · exact mem_nodes_of_receiver e h
    · exact mem_nodes_of_evaluated e h
  | .index _ e es, h => by
    simp only [evaluated, Expr.nodes, mem_cons, mem_append] at h ⊢
    exact h.imp_right (·.imp (mem_nodes_of_evaluated e) (mem_nodesList_of_evaluated es))
  | .new _ _ es, h | .collection _ es, h => by
    simp only [evaluated, Expr.nodes, mem_cons] at h ⊢
    exact h.imp_right (mem_nodesList_of_evaluated es)
  | .interpolated _ ps, h => by
    simp only [evaluated, Expr.nodes, mem_cons] at h ⊢
    exact h.imp_right (mem_nodesParts_of_evaluated ps)
  | .addressOf _ e, h => by
    simp only [evaluated, Expr.nodes, mem_cons] at h ⊢
    refine h.imp_right fun h => ?_
    split at h
    · cases h
    · exact mem_nodes_of_evaluated e h

theorem mem_nodes_of_receiver : (e : Expr Note) → n ∈ env.receiverNodes e → n ∈ e.nodes
  | .member _ o _, h => by
    simp only [receiverNodes, Expr.nodes, mem_cons] at h ⊢
    exact .inr (mem_nodes_of_evaluated o h)
  | .literal .., h | .name .., h | .me .., h | .binary .., h | .unary .., h | .withMember .., h
  | .call .., h | .index .., h | .new .., h | .cast .., h | .interpolated .., h
  | .collection .., h | .addressOf .., h => by
    simp [receiverNodes] at h

theorem mem_nodesList_of_evaluated : (es : List (Expr Note)) → n ∈ env.evaluatedList es →
    n ∈ Expr.nodesList es
  | [], h => h
  | e :: es, h => by
    simp only [evaluatedList, Expr.nodesList, mem_append] at h ⊢
    exact h.imp (mem_nodes_of_evaluated e) (mem_nodesList_of_evaluated es)

theorem mem_nodesParts_of_evaluated : (ps : List (Part Note)) → n ∈ env.evaluatedParts ps →
    n ∈ Expr.nodesParts ps
  | [], h => h
  | .text _ :: ps, h => by
    simp only [evaluatedParts, Expr.nodesParts] at h ⊢
    exact mem_nodesParts_of_evaluated ps h
  | .expr e :: ps, h => by
    simp only [evaluatedParts, Expr.nodesParts, mem_append] at h ⊢
    exact h.imp (mem_nodes_of_evaluated e) (mem_nodesParts_of_evaluated ps)

end

/-- The value of the target of a store is made from the nodes that the store is made from. -/
theorem mem_evaluated_of_target (h : n ∈ env.targetNodes e) : n ∈ env.evaluated e := by
  unfold targetNodes at h
  split at h
  · simp [evaluated, h]
  · rw [evaluated]
    exact List.mem_cons_of_mem _ h
  · simp [evaluated, h]
  · cases h

theorem mem_nodes_of_target (h : n ∈ env.targetNodes e) : n ∈ e.nodes :=
  mem_nodes_of_evaluated e (mem_evaluated_of_target h)

theorem effectNodes_of_none (h : env.callee? e.info = none) :
    env.effectNodes e = env.evaluated e := by
  unfold effectNodes
  rw [h]
  cases e <;> rfl

theorem mem_nodes_of_effect (h : n ∈ env.effectNodes e) : n ∈ e.nodes := by
  unfold effectNodes at h
  split at h
  · exact mem_nodes_of_evaluated _ h
  · exact mem_nodes_of_evaluated _ h
  · exact mem_nodes_of_receiver _ h

theorem nodes_conditions (h : c ∈ Else.conditions e) (hn : n ∈ c.nodes) : n ∈ Stmt.nodesElse e := by
  fun_induction Else.conditions e with
  | case1 | case2 => cases h
  | case3 i d b e ih =>
    simp only [Stmt.nodesElse, mem_append]
    rcases mem_cons.mp h with rfl | h
    · exact .inl (.inl hn)
    · exact .inr (ih h)

theorem nodes_tests (h : c ∈ cs.flatMap Case.tests) (hn : n ∈ c.nodes) :
    n ∈ Stmt.nodesCases cs := by
  induction cs with
  | nil => cases h
  | cons d cs ih =>
    rw [List.flatMap_cons, mem_append] at h
    cases d with
    | values i vs b =>
      simp only [Stmt.nodesCases, mem_append]
      rcases h with h | h
      · exact .inl (.inl (Expr.mem_nodesList.mpr ⟨c, h, hn⟩))
      · exact .inr (ih h)
    | otherwise i b =>
      simp only [Stmt.nodesCases, mem_append]
      rcases h with h | h
      · cases h
      · exact .inr (ih h)

theorem mem_elim_nodes {o : Option (Expr Note)} (h : n ∈ env.evaluatedList o.toList) :
    n ∈ o.elim [] Expr.nodes := by
  cases o with
  | none => cases h
  | some e => exact mem_nodes_of_evaluated e (by simpa [evaluatedList] using h)

theorem mem_nodes_of_stmtNodes (s : Stmt Note) (h : n ∈ env.stmtNodes s) : n ∈ s.nodes := by
  cases s with
  | ifThen i c b e =>
    simp only [stmtNodes, evaluatedList, mem_append] at h
    simp only [Stmt.nodes, mem_cons, mem_append]
    rcases h with h | h
    · exact .inr (.inl (.inl (mem_nodes_of_evaluated c h)))
    · obtain ⟨d, hd, h⟩ := mem_evaluatedList.mp h
      exact .inr (.inr (nodes_conditions hd (mem_nodes_of_evaluated d h)))
  | select i e cs =>
    simp only [stmtNodes, evaluatedList, mem_append] at h
    simp only [Stmt.nodes, mem_cons, mem_append]
    rcases h with h | h
    · exact .inr (.inl (mem_nodes_of_evaluated e h))
    · obtain ⟨d, hd, h⟩ := mem_evaluatedList.mp h
      exact .inr (.inr (nodes_tests hd (mem_nodes_of_evaluated d h)))
  | forLoop i v a z s b =>
    simp only [stmtNodes, evaluatedList, mem_append] at h
    simp only [Stmt.nodes, mem_cons, mem_append]
    rcases h with h | h | h
    · exact .inr (.inl (.inl (.inl (mem_nodes_of_evaluated a h))))
    · exact .inr (.inl (.inl (.inr (mem_nodes_of_evaluated z h))))
    · exact .inr (.inl (.inr (mem_elim_nodes h)))
  | forEach i v t e b | whileLoop i e b | withBlock i e b =>
    simp only [Stmt.nodes, mem_cons, mem_append]
    exact .inr (.inl (mem_nodes_of_evaluated e h))
  | doLoop i t b =>
    simp only [Stmt.nodes, mem_cons, mem_append]
    cases t with
    | none => cases h
    | some t =>
      exact .inr (.inl (mem_nodes_of_evaluated t.cond (by simpa [stmtNodes, evaluatedList] using h)))
  | tryCatch | exit => cases h
  | throw i e | return_ i e | var d | const d =>
    simp only [Stmt.nodes, mem_cons]
    exact .inr (mem_elim_nodes h)
  | assign i t op e =>
    simp only [stmtNodes, mem_append] at h
    simp only [Stmt.nodes, mem_cons, mem_append]
    rcases h with (h | h) | h
    · exact .inr (.inr (mem_nodes_of_evaluated e h))
    · exact .inr (.inl (mem_nodes_of_target h))
    · split at h
      · cases h
      · exact .inr (.inl (mem_nodes_of_evaluated t h))
  | expr i e =>
    simp only [Stmt.nodes, mem_cons]
    exact .inr (mem_nodes_of_effect h)

theorem mem_nodes_of_itemNodes (item : Item) (h : n ∈ env.itemNodes item) : n ∈ item.nodes := by
  cases item with
  | global i name init isConstant => exact mem_elim_nodes h
  | cls i name base fields methods =>
    obtain ⟨e, he, h⟩ := mem_evaluatedList.mp h
    obtain ⟨d, hd, hinit⟩ := List.mem_filterMap.mp he
    refine mem_flatMap.mpr ⟨d, hd, ?_⟩
    rw [hinit]
    exact mem_nodes_of_evaluated e h
  | record => cases h
  | procedure p name owner =>
    obtain ⟨m, hm, h⟩ := mem_flatMap.mp h
    rw [Item.nodes]
    cases hbody : p.body with
    | none =>
      rw [hbody] at hm
      cases hm
    | some body =>
      rw [hbody] at hm
      cases m with
      | expr e => cases h
      | stmt s =>
        rcases mem_cons.mp h with rfl | h
        · exact hm
        · exact Stmt.nodesList_closed body _ hm (mem_nodes_of_stmtNodes s h)

end Env

end Lower

namespace Analysis

variable {a : Analysis}

/-- The nodes that the code of a program is made from. -/
def evaluated (a : Analysis) : List (Node Note) :=
  a.items.flatMap a.env.itemNodes

theorem mem_nodes_of_evaluated (h : n ∈ a.evaluated) : n ∈ a.nodes := by
  obtain ⟨item, hitem, h⟩ := mem_flatMap.mp h
  exact mem_flatMap.mpr ⟨item, hitem, Lower.Env.mem_nodes_of_itemNodes item h⟩

theorem evaluated_of_field (hds : a.env.classes.lookup t = some ds) (hd : d ∈ ds)
    (he : d.init = some e) : ∀ n ∈ a.env.evaluated e, n ∈ a.evaluated := by
  intro n hn
  obtain ⟨_, _, _, _, hitem, -⟩ := Lower.exists_class hds
  refine mem_flatMap.mpr ⟨_, hitem, ?_⟩
  exact Lower.Env.mem_evaluatedList.mpr ⟨e, List.mem_filterMap.mpr ⟨d, hd, he⟩, hn⟩

/-- What a call is like: it is one of a function of the runtime, or that of a call site. -/
inductive Calls (a : Analysis) (i : IL.Instr) : Prop
  | runtime : i.name ∈ Lower.runtimeCalls → Calls a i
  | site : n ∈ a.evaluated → a.env.callSite? n = some c → a.env.function? c.callee = some i.name →
    i.operands.length = c.hasObject.toNat + c.args → i.loc = c.loc → Calls a i

end Analysis

end BasicSSA
