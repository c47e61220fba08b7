import BasicSSA.Syntax.Decl

/-!
# Nodes of syntax trees

The expressions and the statements inside a syntax tree, itself included, as one list. A property of
all parts of a program is a property of the members of the list.
-/

namespace BasicSSA

variable {β : Type}

/-- An expression or a statement. -/
inductive Node (α : Type) where
  | expr (e : Expr α)
  | stmt (s : Stmt α)

/-- The node with other infos. -/
def Node.map (f : α → β) : Node α → Node β
  | .expr e => .expr (e.map f)
  | .stmt s => .stmt (s.map f)

namespace Expr

mutual

/-- The nodes of an expression. -/
def nodes : Expr α → List (Node α)
  | literal i v => [.expr (.literal i v)]
  | name i n => [.expr (.name i n)]
  | me i => [.expr (.me i)]
  | binary i op l r => .expr (.binary i op l r) :: (l.nodes ++ r.nodes)
  | unary i op e => .expr (.unary i op e) :: e.nodes
  | member i e n => .expr (.member i e n) :: e.nodes
  | withMember i n => [.expr (.withMember i n)]
  | call i e ts as => .expr (.call i e ts as) :: (e.nodes ++ nodesList as)
  | index i e is => .expr (.index i e is) :: (e.nodes ++ nodesList is)
  | new i t as => .expr (.new i t as) :: nodesList as
  | cast i e t => .expr (.cast i e t) :: e.nodes
  | interpolated i ps => .expr (.interpolated i ps) :: nodesParts ps
  | collection i es => .expr (.collection i es) :: nodesList es
  | addressOf i e => .expr (.addressOf i e) :: e.nodes

def nodesList : List (Expr α) → List (Node α)
  | [] => []
  | e :: es => e.nodes ++ nodesList es

def nodesParts : List (Part α) → List (Node α)
  | [] => []
  | .text _ :: ps => nodesParts ps
  | .expr e :: ps => e.nodes ++ nodesParts ps

end

theorem mem_nodes_self (e : Expr α) : .expr e ∈ e.nodes := by
  cases e <;> simp [nodes]

theorem mem_nodesList : n ∈ nodesList es ↔ ∃ e ∈ es, n ∈ e.nodes := by
  induction es with
  | nil => simp [nodesList]
  | cons e es ih => simp [nodesList, ih]

variable {f : α → β}

mutual

theorem nodes_map : (e : Expr α) → (e.map f).nodes = e.nodes.map (Node.map f)
  | literal .. | name .. | me _ | withMember .. => rfl
  | binary _ _ l r => by simp [map, nodes, Node.map, nodes_map l, nodes_map r]
  | unary _ _ e | member _ e _ | cast _ e _ | addressOf _ e => by
    simp [map, nodes, Node.map, nodes_map e]
  | call _ e _ es | index _ e es => by
    simp [map, nodes, Node.map, nodes_map e, nodesList_map es]
  | new _ _ es | collection _ es => by simp [map, nodes, Node.map, nodesList_map es]
  | interpolated _ ps => by simp [map, nodes, Node.map, nodesParts_map ps]

theorem nodesList_map : (es : List (Expr α)) →
    nodesList (mapList f es) = (nodesList es).map (Node.map f)
  | [] => rfl
  | e :: es => by simp [mapList, nodesList, nodes_map e, nodesList_map es]

theorem nodesParts_map : (ps : List (Part α)) →
    nodesParts (mapParts f ps) = (nodesParts ps).map (Node.map f)
  | [] => rfl
  | .text _ :: ps => by simp [mapParts, nodesParts, nodesParts_map ps]
  | .expr e :: ps => by simp [mapParts, nodesParts, nodes_map e, nodesParts_map ps]

end

theorem nodesList_map_map :
    nodesList (es.map (·.map f)) = (nodesList es).map (Node.map f) := by
  induction es with
  | nil => rfl
  | cons e es ih => simp [nodesList, nodes_map, ih]

theorem elim_nodes_map {e : Option (Expr α)} :
    e.elim [] (nodes ∘ (·.map f)) = (e.elim [] nodes).map (Node.map f) := by
  cases e with
  | none => rfl
  | some e => exact nodes_map e

end Expr

namespace Stmt

mutual

/-- The nodes of a statement. -/
def nodes : Stmt α → List (Node α)
  | ifThen i c b e => .stmt (.ifThen i c b e) :: (c.nodes ++ nodesList b ++ nodesElse e)
  | select i e cs => .stmt (.select i e cs) :: (e.nodes ++ nodesCases cs)
  | forLoop i v a z s b =>
    .stmt (.forLoop i v a z s b) :: (a.nodes ++ z.nodes ++ s.elim [] Expr.nodes ++ nodesList b)
  | forEach i v t e b => .stmt (.forEach i v t e b) :: (e.nodes ++ nodesList b)
  | whileLoop i c b => .stmt (.whileLoop i c b) :: (c.nodes ++ nodesList b)
  | doLoop i t b => .stmt (.doLoop i t b) :: (t.elim [] (·.cond.nodes) ++ nodesList b)
  | tryCatch i b cs none => .stmt (.tryCatch i b cs none) :: (nodesList b ++ nodesCatches cs)
  | tryCatch i b cs (some l) =>
    .stmt (.tryCatch i b cs (some l)) :: (nodesList b ++ nodesCatches cs ++ nodesList l)
  | withBlock i e b => .stmt (.withBlock i e b) :: (e.nodes ++ nodesList b)
  | throw i e => .stmt (.throw i e) :: e.elim [] Expr.nodes
  | return_ i e => .stmt (.return_ i e) :: e.elim [] Expr.nodes
  | exit i k => [.stmt (.exit i k)]
  | assign i t op e => .stmt (.assign i t op e) :: (t.nodes ++ e.nodes)
  | expr i e => .stmt (.expr i e) :: e.nodes
  | var d => .stmt (.var d) :: d.init.elim [] Expr.nodes
  | const d => .stmt (.const d) :: d.value.elim [] Expr.nodes

def nodesList : List (Stmt α) → List (Node α)
  | [] => []
  | s :: ss => s.nodes ++ nodesList ss

def nodesElse : Else α → List (Node α)
  | .nothing => []
  | .block b => nodesList b
  | .elseIf _ c b e => c.nodes ++ nodesList b ++ nodesElse e

def nodesCases : List (Case α) → List (Node α)
  | [] => []
  | .values _ vs b :: cs => Expr.nodesList vs ++ nodesList b ++ nodesCases cs
  | .otherwise _ b :: cs => nodesList b ++ nodesCases cs

def nodesCatches : List (Catch α) → List (Node α)
  | [] => []
  | .mk _ _ _ b :: cs => nodesList b ++ nodesCatches cs

end

end Stmt

theorem Node.forall_mem_elim {P : Node α → Prop} {o : Option β} {f : β → List (Node α)} :
    (∀ n ∈ o.elim [] f, P n) ↔ ∀ e, o = some e → ∀ n ∈ f e, P n := by
  cases o <;> simp

/-- The nodes of a node. -/
def Node.nodes : Node α → List (Node α)
  | .expr e => e.nodes
  | .stmt s => s.nodes

/-- The nodes of each of the nodes are among the nodes. -/
def Node.Closed (ns : List (Node α)) : Prop :=
  ∀ m ∈ ns, m.nodes ⊆ ns

namespace Node.Closed

theorem nil : Closed ([] : List (Node α)) :=
  nofun

theorem append (h : Closed ns) (h' : Closed ns') : Closed (ns ++ ns') := fun m hm =>
  (List.mem_append.mp hm).elim (fun hm _ hn => List.mem_append_left _ (h m hm hn))
    fun hm _ hn => List.mem_append_right _ (h' m hm hn)

theorem flatMap (h : ∀ b, Closed (f b)) (bs : List β) :
    Closed (bs.flatMap f) := fun m hm _ hn =>
  have ⟨b, hb, hm⟩ := List.mem_flatMap.mp hm
  List.mem_flatMap.mpr ⟨b, hb, h b m hm hn⟩

theorem cons (h : Closed ns) (hx : x.nodes = x :: ns := by rfl) :
    Closed (x :: ns) := by
  intro m hm
  rcases List.mem_cons.mp hm with rfl | hm
  · exact hx ▸ List.Subset.refl _
  · exact fun n hn => List.mem_cons_of_mem _ (h m hm hn)

end Node.Closed

namespace Expr

open Node.Closed (nil)

mutual

theorem nodes_closed : (e : Expr α) → Node.Closed e.nodes
  | literal .. | name .. | me _ | withMember .. => nil.cons
  | binary _ _ l r => (l.nodes_closed.append r.nodes_closed).cons
  | unary _ _ e | member _ e _ | cast _ e _ | addressOf _ e => e.nodes_closed.cons
  | call _ e _ es | index _ e es => (e.nodes_closed.append (nodesList_closed es)).cons
  | new _ _ es | collection _ es => (nodesList_closed es).cons
  | interpolated _ ps => (nodesParts_closed ps).cons

theorem nodesList_closed : (es : List (Expr α)) → Node.Closed (nodesList es)
  | [] => nil
  | e :: es => e.nodes_closed.append (nodesList_closed es)

theorem nodesParts_closed : (ps : List (Part α)) → Node.Closed (nodesParts ps)
  | [] => nil
  | .text _ :: ps => nodesParts_closed ps
  | .expr e :: ps => e.nodes_closed.append (nodesParts_closed ps)

end

theorem elim_nodes_closed : (e : Option (Expr α)) → Node.Closed (e.elim [] nodes)
  | none => nil
  | some e => e.nodes_closed

end Expr

namespace Stmt

open Node.Closed (nil)
open BasicSSA.Expr (elim_nodes_closed)

mutual

theorem nodes_closed : (s : Stmt α) → Node.Closed s.nodes
  | ifThen _ c b e => ((c.nodes_closed.append (nodesList_closed b)).append (nodesElse_closed e)).cons
  | select _ e cs => (e.nodes_closed.append (nodesCases_closed cs)).cons
  | forLoop _ _ a z s b => (((a.nodes_closed.append z.nodes_closed).append
      (elim_nodes_closed s)).append (nodesList_closed b)).cons
  | forEach _ _ _ e b | whileLoop _ e b | withBlock _ e b =>
    (e.nodes_closed.append (nodesList_closed b)).cons
  | doLoop _ none b => (nodesList_closed b).cons
  | doLoop _ (some t) b => (t.cond.nodes_closed.append (nodesList_closed b)).cons
  | tryCatch _ b cs none => ((nodesList_closed b).append (nodesCatches_closed cs)).cons
  | tryCatch _ b cs (some l) =>
    (((nodesList_closed b).append (nodesCatches_closed cs)).append (nodesList_closed l)).cons
  | throw _ e | return_ _ e => (elim_nodes_closed e).cons
  | exit .. => nil.cons
  | assign _ t _ e => (t.nodes_closed.append e.nodes_closed).cons
  | expr _ e => e.nodes_closed.cons
  | var d => (elim_nodes_closed d.init).cons
  | const d => (elim_nodes_closed d.value).cons

theorem nodesList_closed : (ss : List (Stmt α)) → Node.Closed (nodesList ss)
  | [] => nil
  | s :: ss => s.nodes_closed.append (nodesList_closed ss)

theorem nodesElse_closed : (e : Else α) → Node.Closed (nodesElse e)
  | .nothing => nil
  | .block b => nodesList_closed b
  | .elseIf _ c b e => (c.nodes_closed.append (nodesList_closed b)).append (nodesElse_closed e)

theorem nodesCases_closed : (cs : List (Case α)) → Node.Closed (nodesCases cs)
  | [] => nil
  | .values _ vs b :: cs =>
    ((Expr.nodesList_closed vs).append (nodesList_closed b)).append (nodesCases_closed cs)
  | .otherwise _ b :: cs => (nodesList_closed b).append (nodesCases_closed cs)

theorem nodesCatches_closed : (cs : List (Catch α)) → Node.Closed (nodesCatches cs)
  | [] => nil
  | .mk _ _ _ b :: cs => (nodesList_closed b).append (nodesCatches_closed cs)

end

mutual

theorem nodes_map : (s : Stmt α) → (s.map f).nodes = s.nodes.map (Node.map f)
  | ifThen _ c b e => by
    simp [map, nodes, Node.map, c.nodes_map, nodesList_map b, nodesElse_map e]
  | select _ e cs => by simp [map, nodes, Node.map, e.nodes_map, nodesCases_map cs]
  | forLoop _ _ a z s b => by
    simp [map, nodes, Node.map, a.nodes_map, z.nodes_map, Expr.elim_nodes_map, nodesList_map b]
  | forEach _ _ _ e b | whileLoop _ e b | withBlock _ e b => by
    simp [map, nodes, Node.map, e.nodes_map, nodesList_map b]
  | doLoop _ none b => by simp [map, nodes, Node.map, nodesList_map b]
  | doLoop _ (some t) b => by
    simp [map, nodes, Node.map, LoopTest.map, t.cond.nodes_map, nodesList_map b]
  | tryCatch _ b cs none => by simp [map, nodes, Node.map, nodesList_map b, nodesCatches_map cs]
  | tryCatch _ b cs (some l) => by
    simp [map, nodes, Node.map, nodesList_map b, nodesCatches_map cs, nodesList_map l]
  | throw _ e | return_ _ e => by simp [map, nodes, Node.map, Expr.elim_nodes_map]
  | exit .. => rfl
  | assign _ t _ e => by simp [map, nodes, Node.map, t.nodes_map, e.nodes_map]
  | expr _ e => by simp [map, nodes, Node.map, e.nodes_map]
  | var d => by simp [map, nodes, Node.map, VarDecl.map, Expr.elim_nodes_map]
  | const d => by simp [map, nodes, Node.map, ConstDecl.map, Expr.elim_nodes_map]

theorem nodesList_map : (ss : List (Stmt α)) →
    nodesList (mapList f ss) = (nodesList ss).map (Node.map f)
  | [] => rfl
  | s :: ss => by simp [mapList, nodesList, nodes_map s, nodesList_map ss]

theorem nodesElse_map : (e : Else α) → nodesElse (mapElse f e) = (nodesElse e).map (Node.map f)
  | .nothing => rfl
  | .block b => by simp [mapElse, nodesElse, nodesList_map b]
  | .elseIf _ c b e => by
    simp [mapElse, nodesElse, c.nodes_map, nodesList_map b, nodesElse_map e]

theorem nodesCases_map : (cs : List (Case α)) →
    nodesCases (mapCases f cs) = (nodesCases cs).map (Node.map f)
  | [] => rfl
  | .values _ vs b :: cs => by
    simp [mapCases, nodesCases, Expr.nodesList_map_map, nodesList_map b, nodesCases_map cs]
  | .otherwise _ b :: cs => by simp [mapCases, nodesCases, nodesList_map b, nodesCases_map cs]

theorem nodesCatches_map : (cs : List (Catch α)) →
    nodesCatches (mapCatches f cs) = (nodesCatches cs).map (Node.map f)
  | [] => rfl
  | .mk _ _ _ b :: cs => by simp [mapCatches, nodesCatches, nodesList_map b, nodesCatches_map cs]

end

end Stmt

end BasicSSA
