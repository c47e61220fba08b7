import BasicSSA.Proofs.Lower.Shape

/-!
# Declarations of variables

Which variables code declares, and in which order. Symbols are numbered in the order in which they
are defined, so the variables of a procedure are declared in the order of their numbers.
-/

namespace BasicSSA

/-- A variable that code declares. -/
inductive Declaration where
  /-- The object of a method, which is no variable of the source. -/
  | own (name : String)
  | new (x : SymbolId)
  /-- The variable of a `For` loop, which may be there already. -/
  | counter (x : SymbolId)

namespace Declaration

/-- A new variable has a number from `lo` on, after all that are declared before it, and all numbers
are below `hi`. -/
def InOrder : (lo hi : Nat) → List Declaration → Prop
  | lo, hi, [] => lo ≤ hi
  | lo, hi, .own _ :: ds => InOrder lo hi ds
  | lo, hi, .new x :: ds => lo ≤ x.index ∧ InOrder (x.index + 1) hi ds
  | lo, hi, .counter x :: ds => InOrder (max lo (x.index + 1)) hi ds

theorem InOrder.le (h : InOrder lo hi ds) : lo ≤ hi := by
  induction ds generalizing lo with
  | nil => exact h
  | cons d ds ih =>
    cases d with
    | own => exact ih h
    | new x => exact Nat.le_trans (Nat.le_succ_of_le h.1) (ih h.2)
    | counter x => exact Nat.le_trans (Nat.le_max_left ..) (ih h)

theorem InOrder.weaken (h : InOrder lo hi ds) (hle : lo' ≤ lo) : InOrder lo' hi ds := by
  induction ds generalizing lo lo' with
  | nil => exact Nat.le_trans hle h
  | cons d ds ih =>
    cases d with
    | own => exact ih h hle
    | new x => exact ⟨Nat.le_trans hle h.1, h.2⟩
    | counter x => exact ih h (by omega)

theorem inOrder_append :
    InOrder lo hi (ds ++ ds') ↔ ∃ mid, InOrder lo mid ds ∧ InOrder mid hi ds' := by
  induction ds generalizing lo with
  | nil => exact ⟨fun h => ⟨lo, Nat.le_refl lo, h⟩, fun ⟨_, hle, h⟩ => h.weaken hle⟩
  | cons d ds ih =>
    cases d with
    | new x =>
      rw [List.cons_append, InOrder, ih]
      simp only [InOrder, and_assoc, exists_and_left]
    | own | counter =>
      rw [List.cons_append, InOrder, ih]
      rfl

theorem InOrder.append (h : InOrder lo mid ds) (h' : InOrder mid hi ds') :
    InOrder lo hi (ds ++ ds') :=
  inOrder_append.mpr ⟨mid, h, h'⟩

theorem InOrder.widen (h : InOrder lo hi ds) (hle : hi ≤ hi') : InOrder lo hi' ds :=
  List.append_nil ds ▸ h.append (show InOrder hi hi' [] from hle)

end Declaration

/-- What an action declares. -/
def Action.declarations : Action → List Declaration
  | .simple (.var d) => d.info.symbol.toList.map .new
  | .simple (.const d) => d.info.symbol.toList.map .new
  | .start (.forLoop i _ _ _ _ _) => i.symbol.toList.map .counter
  | .start (.forEach i _ _ _ _) | .caught i => i.symbol.toList.map .new
  | _ => []

/-- What a procedure declares: its parameters, and the variables of its body. -/
def Procedure.declarations (q : Procedure Note) (tree : ScopeTree) : List Declaration :=
  (q.params.filterMap fun a => q.info.scope.bind (tree.findLocal? · a.name)).map .new ++
    (Stmt.actionsList (q.body.getD [])).flatMap Action.declarations

end BasicSSA
