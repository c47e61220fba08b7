import BasicSSA.Analysis.State
import BasicSSA.Proofs.Parser.Members
import BasicSSA.Proofs.Syntax.Nodes

/-!
# Which places the visits come to

The third visit does not come to the values of the fields of a record, to the default values of the
parameters of procedures without a body and of delegates, and to what stands in a class without being
one of its own members.

## Main definitions

* `Decl.nodes`: the nodes of all expressions and statements in a declaration.
* `Decl.reached`: those that the third visit reaches.
* `Decl.unreached`: those in the places that no visit comes to.
-/

namespace BasicSSA

namespace Procedure

/-- The nodes of the default values of the parameters. -/
def defaults (p : Procedure α) : List (Node α) :=
  p.params.flatMap (·.default.elim [] Expr.nodes)

def nodes (p : Procedure α) : List (Node α) :=
  p.defaults ++ p.body.elim [] Stmt.nodesList

/-- The nodes in the parameters and the body of a procedure that has a scope. -/
def reached (p : Procedure Note) : List (Node Note) :=
  match p.body, p.info.scope with
  | some b, some _ => p.params.flatMap (·.default.elim [] Expr.nodes) ++ Stmt.nodesList b
  | _, _ => []

/-- A procedure without a body is not looked at. -/
def unreached (p : Procedure α) : List (Node α) :=
  if p.body.isSome then [] else p.nodes

end Procedure

namespace Decl

mutual

/-- The nodes of the expressions and statements in a declaration. -/
def nodes : Decl α → List (Node α)
  | .nspace _ _ ds | .module _ _ ds | .cls _ _ ds => nodesList ds
  | .interface _ _ ps => ps.flatMap Procedure.nodes
  | .record _ _ _ vs => vs.flatMap (·.init.elim [] Expr.nodes)
  | .proc p | .extension _ _ p => p.nodes
  | .var d => d.init.elim [] Expr.nodes
  | .const d => d.value.elim [] Expr.nodes
  | .template _ d => d.nodes
  | .delegate d => d.params.flatMap (·.default.elim [] Expr.nodes)
  | .uses .. | .imports .. | .typeDefine .. => []

def nodesList : List (Decl α) → List (Node α)
  | [] => []
  | d :: ds => d.nodes ++ nodesList ds

end

/-- A field of a class that has another member of that name. -/
def isRejectedField : Decl Note → Bool
  | .var d => d.info.symbol.isNone
  | _ => false

mutual

/-- The nodes of the expressions and statements in a declaration that the third visit reaches. What
stands in a class that was rejected is not looked at. -/
def reached : Decl Note → List (Node Note)
  | .nspace i _ ds | .module i _ ds => i.scope.elim [] fun _ => reachedList ds
  | .cls i _ ds => i.scope.elim [] fun _ => reachedMembers ds
  | .proc p | .extension _ _ p => p.reached
  | .var d => d.init.elim [] Expr.nodes
  | .const d => d.value.elim [] Expr.nodes
  | .template _ d => d.reached
  | _ => []

def reachedList : List (Decl Note) → List (Node Note)
  | [] => []
  | d :: ds => d.reached ++ reachedList ds

def reachedMembers : List (Decl Note) → List (Node Note)
  | [] => []
  | d :: ds => (if d.isRejectedField then [] else d.reached) ++ reachedMembers ds

end

/-- Whether a class declares a member as its method. -/
def isMethod : Decl α → Bool
  | .proc _ | .template _ (.proc _) => true
  | _ => false

def isField : Decl α → Bool
  | .var _ => true
  | _ => false

/-- The nodes in a declaration that has no scope and no symbol, apart from the value of a variable or
a constant. -/
def undeclared : Decl α → List (Node α)
  | .var _ | .const _ => []
  | .template _ d => d.undeclared
  | d => d.nodes

mutual

/-- The nodes in the places that no visit comes to. -/
def unreached : Decl α → List (Node α)
  | .nspace _ _ ds | .module _ _ ds => unreachedList ds
  | .cls _ _ ds => unreachedMembers ds
  | .proc p | .extension _ _ p => p.unreached
  | .template _ d => d.unreached
  | .var _ | .const _ => []
  | d => d.nodes

def unreachedList : List (Decl α) → List (Node α)
  | [] => []
  | d :: ds => d.unreached ++ unreachedList ds

def unreachedMembers : List (Decl α) → List (Node α)
  | [] => []
  | d :: ds => (if d.isMethod then d.unreached else d.undeclared) ++ unreachedMembers ds

end

theorem isMethod_eq_of_map {d d' : Decl α} (h : d'.map f = d.map f) :
    d'.isMethod = d.isMethod := by
  have hmap (d : Decl α) : (d.map f).isMethod = d.isMethod := by
    cases d with
    | template i d => cases d <;> rfl
    | _ => rfl
  rw [← hmap d, ← h, hmap]

theorem isField_eq_of_map {d d' : Decl α} (h : d'.map f = d.map f) :
    d'.isField = d.isField := by
  have hmap (d : Decl α) : (d.map f).isField = d.isField := by cases d <;> rfl
  rw [← hmap d, ← h, hmap]

theorem isRejectedField_of_not_isField {d : Decl Note} (h : d.isField = false) :
    d.isRejectedField = false := by
  cases d with
  | var => cases h
  | _ => rfl

theorem reached_or_undeclared : (d : Decl Note) → n ∈ d.nodes →
    n ∈ d.reached ∨ n ∈ d.undeclared
  | .var _, h | .const _, h => by
    rw [reached]
    exact .inl h
  | .template _ d, h => by
    rw [reached, undeclared]
    exact reached_or_undeclared d h
  | .nspace .., h | .module .., h | .cls .., h | .interface .., h | .record .., h | .proc _, h
  | .extension .., h | .delegate _, h | .uses .., h | .imports .., h | .typeDefine .., h => by
    exact .inr (by simpa only [undeclared] using h)

theorem undeclared_subset : (d : Decl α) → d.undeclared ⊆ d.nodes
  | .var _ | .const _ => by simp [undeclared]
  | .template _ d => by
    rw [undeclared, nodes]
    exact undeclared_subset d
  | .nspace .. | .module .. | .cls .. | .interface .. | .record .. | .proc _ | .extension ..
  | .delegate _ | .uses .. | .imports .. | .typeDefine .. => by
    rw [undeclared]
    · exact List.Subset.refl _
    all_goals simp

end Decl

theorem Procedure.unreached_subset (p : Procedure α) : p.unreached ⊆ p.nodes := by
  unfold unreached
  split
  · exact List.nil_subset _
  · exact List.Subset.refl _

namespace Decl

mutual

theorem unreached_subset : (d : Decl α) → d.unreached ⊆ d.nodes
  | .nspace _ _ ds | .module _ _ ds => by
    rw [unreached, nodes]
    exact unreachedList_subset ds
  | .cls _ _ ds => by
    rw [unreached, nodes]
    exact unreachedMembers_subset ds
  | .proc p | .extension _ _ p => by
    rw [unreached, nodes]
    exact p.unreached_subset
  | .template _ d => by
    rw [unreached, nodes]
    exact unreached_subset d
  | .var _ | .const _ => by simp [unreached]
  | .interface .. | .record .. | .delegate _ | .uses .. | .imports .. | .typeDefine .. => by
    rw [unreached]
    · exact List.Subset.refl _
    all_goals simp

theorem unreachedList_subset : (ds : List (Decl α)) → unreachedList ds ⊆ nodesList ds
  | [] => by simp [unreachedList]
  | d :: ds => by
    rw [unreachedList, nodesList]
    exact fun n hn => List.mem_append.mpr <| (List.mem_append.mp hn).imp (unreached_subset d ·)
      (unreachedList_subset ds ·)

theorem unreachedMembers_subset : (ds : List (Decl α)) → unreachedMembers ds ⊆ nodesList ds
  | [] => by simp [unreachedMembers]
  | d :: ds => by
    rw [unreachedMembers, nodesList]
    refine fun n hn => List.mem_append.mpr <| (List.mem_append.mp hn).imp (fun hn => ?_)
      (unreachedMembers_subset ds ·)
    split at hn
    · exact unreached_subset d hn
    · exact undeclared_subset d hn

end

/-! ### What a class does not look into -/

/-- A declaration that has no scope. -/
def Shut : Decl Note → Prop
  | .nspace i _ _ | .module i _ _ | .cls i _ _ => i.scope = none
  | .proc p | .extension _ _ p => p.info.scope = none
  | .template _ d => d.Shut
  | _ => True

mutual

/-- What stands in a class without being a member of it has no scope. -/
def Sealed : Decl Note → Prop
  | .nspace _ _ ds | .module _ _ ds => SealedList ds
  | .cls _ _ ds => ∀ d ∈ ds, d.isField = false → d.isMethod = false → d.Shut
  | .template _ d => d.Sealed
  | .uses .. | .imports .. | .interface .. | .record .. | .proc _ | .var _ | .const _
  | .typeDefine .. | .delegate _ | .extension .. => True

def SealedList : List (Decl Note) → Prop
  | [] => True
  | d :: ds => d.Sealed ∧ SealedList ds

end

theorem shut_map (hf : ∀ loc, (f loc).scope = none) :
    (d : Decl Loc) → (d.map f).Shut
  | .nspace i _ _ | .module i _ _ | .cls i _ _ => by
    rw [map, Shut]
    exact hf i
  | .proc p | .extension _ _ p => by
    rw [map, Shut]
    exact hf p.info
  | .template _ d => by
    rw [map, Shut]
    exact shut_map hf d
  | .uses .. | .imports .. | .interface .. | .record .. | .var _ | .const _ | .typeDefine ..
  | .delegate _ => by simp [map, Shut]

mutual

theorem sealed_map {f : Loc → Note} (hf : ∀ loc, (f loc).scope = none) :
    (d : Decl Loc) → (d.map f).Sealed
  | .nspace _ _ ds | .module _ _ ds => by
    rw [map, Sealed]
    exact sealedList_map hf ds
  | .cls _ _ ds => by
    rw [map, Sealed, mapList_eq, List.forall_mem_map]
    exact fun d _ _ _ => shut_map hf d
  | .template _ d => by
    rw [map, Sealed]
    exact sealed_map hf d
  | .uses .. | .imports .. | .interface .. | .record .. | .proc _ | .var _ | .const _
  | .typeDefine .. | .delegate _ | .extension .. => by simp [map, Sealed]

theorem sealedList_map {f : Loc → Note} (hf : ∀ loc, (f loc).scope = none) :
    (ds : List (Decl Loc)) → SealedList (mapList f ds)
  | [] => by
    rw [mapList, SealedList]
    trivial
  | d :: ds => by
    rw [mapList, SealedList]
    exact ⟨sealed_map hf d, sealedList_map hf ds⟩

end

end Decl

/-! ### What the first two visits leave -/

/-- What the first two visits leave of a declaration. -/
structure Decl.Noted (d d' : Decl Note) : Prop where
  same : d'.map Note.loc = d.map Note.loc
  nodes : d'.nodes = d.nodes
  closed : d.Sealed → d'.Sealed

structure Decl.NotedList (ds ds' : List (Decl Note)) : Prop where
  same : Decl.mapList Note.loc ds' = Decl.mapList Note.loc ds
  nodes : Decl.nodesList ds' = Decl.nodesList ds
  closed : Decl.SealedList ds → Decl.SealedList ds'

theorem Decl.Noted.refl (d : Decl Note) : d.Noted d :=
  ⟨rfl, rfl, fun h => h⟩

theorem Decl.Noted.cons (h : d.Noted d') (hs : NotedList ds ds') :
    NotedList (d :: ds) (d' :: ds') := by
  refine ⟨?_, ?_, ?_⟩
  · rw [mapList, mapList, h.same, hs.same]
  · rw [nodesList, nodesList, h.nodes, hs.nodes]
  · rw [SealedList, SealedList]
    exact fun hc => ⟨h.closed hc.1, hs.closed hc.2⟩

theorem Decl.NotedList.refl (ds : List (Decl Note)) : NotedList ds ds :=
  ⟨rfl, rfl, fun h => h⟩

theorem Decl.NotedList.trans (h : NotedList ds ds') (h' : NotedList ds' ds'') : NotedList ds ds'' :=
  ⟨h'.same.trans h.same, h'.nodes.trans h.nodes, fun hc => h'.closed (h.closed hc)⟩

theorem Decl.Noted.template (h : d.Noted d') (i : Note) :
    (Decl.template i d).Noted (.template i d') := by
  refine ⟨?_, ?_, ?_⟩
  · rw [map, map, h.same]
  · rw [Decl.nodes, Decl.nodes, h.nodes]
  · rw [Sealed, Sealed]
    exact h.closed

/-- A procedure with another note at the same position. -/
structure Procedure.Renoted (p p' : Procedure Note) : Prop where
  loc : p'.info.loc = p.info.loc
  rest : p' = { p with info := p'.info }

theorem Procedure.Renoted.map {p p' : Procedure Note} (h : p.Renoted p') :
    p'.map Note.loc = p.map Note.loc := by
  rw [h.rest]
  simp only [Procedure.map, h.loc]

theorem Procedure.Renoted.nodes {p p' : Procedure Note} (h : p.Renoted p') : p'.nodes = p.nodes := by
  rw [h.rest]
  rfl

theorem Procedure.Renoted.noted {p p' : Procedure Note} (h : p.Renoted p') :
    (Decl.proc p).Noted (.proc p') :=
  ⟨congrArg Decl.proc h.map, h.nodes, fun h => h⟩

structure VarDecl.Renoted (d d' : VarDecl Note) : Prop where
  loc : d'.info.loc = d.info.loc
  rest : d' = { d with info := d'.info }

theorem VarDecl.Renoted.map {d d' : VarDecl Note} (h : d.Renoted d') :
    d'.map Note.loc = d.map Note.loc := by
  rw [h.rest]
  simp only [VarDecl.map, h.loc]

end BasicSSA
