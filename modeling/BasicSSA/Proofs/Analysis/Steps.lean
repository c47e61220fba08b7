import BasicSSA.Analysis.Declare
import BasicSSA.Proofs.Analysis.Growth
import BasicSSA.Proofs.Lower.Declarations

/-!
# States of analysis

A later state of analysis has grown: types, scopes, symbols and findings were added to it.
-/

namespace BasicSSA

namespace AnalysisState

variable {s : AnalysisState}

/-- An error was found. -/
def Failed (s : AnalysisState) : Prop :=
  s.findings.any Finding.isError = true

/-- Scopes lie in scopes that exist, and no type that was made is an initial one. -/
structure Ok (s : AnalysisState) : Prop where
  tree : s.tree.Ok
  made : ∀ e ∈ s.types.made, e.2.Added

section

variable (s : AnalysisState) (types : Catalog) (tree : ScopeTree)

@[simp] theorem types_setTypes : (s.setTypes types).types = types :=
  rfl

@[simp] theorem tree_setTypes : (s.setTypes types).tree = s.tree :=
  rfl

@[simp] theorem types_setTree : (s.setTree tree).types = s.types :=
  rfl

@[simp] theorem tree_setTree : (s.setTree tree).tree = tree :=
  rfl

end

/-- What a later state still says. -/
structure Grown (s s' : AnalysisState) : Prop where
  types : s.types.Grown s'.types
  tree : s.tree.Grown s'.tree
  findings : ∀ f ∈ s.findings, f ∈ s'.findings

namespace Grown

theorem refl (s : AnalysisState) : s.Grown s :=
  ⟨.refl, .refl _, fun _ h => h⟩

theorem trans (h : s.Grown s') (h' : s'.Grown s'') : s.Grown s'' :=
  ⟨h.types.trans h'.types, h.tree.trans h'.tree, fun f hf => h'.findings f (h.findings f hf)⟩

theorem failed (h : s.Grown s') (hf : s.Failed) : s'.Failed := by
  obtain ⟨f, hf, he⟩ := List.any_eq_true.mp hf
  exact List.any_eq_true.mpr ⟨f, h.findings f hf, he⟩

theorem keeps (h : s.Grown s') : s.types.Keeps s'.types :=
  h.types.toKeeps

theorem has (h : s.Grown s') (hc : s.types.Has c) : s'.types.Has c :=
  h.keeps.has hc

end Grown

/-- A later state where every name means the same. -/
structure Quiet (s s' : AnalysisState) : Prop where
  tree : s'.tree = s.tree
  members : ∀ {x}, s'.types.HasMember x → s.types.HasMember x

theorem Quiet.refl (s : AnalysisState) : s.Quiet s :=
  ⟨rfl, id⟩

theorem Quiet.trans (h : s.Quiet s') (h' : s'.Quiet s'') : s.Quiet s'' :=
  ⟨h'.tree.trans h.tree, fun hx => h.members (h'.members hx)⟩

end AnalysisState

namespace Analyze

theorem define_run (s : AnalysisState) (scope : ScopeId) (y : Symbol) :
    (s.tree.define scope y = none ∧ define scope y s = (none, s)) ∨
      ∃ tree new, s.tree.define scope y = some (tree, new) ∧
        define scope y s = (some new, s.setTree tree) := by
  cases hd : s.tree.define scope y with
  | none =>
    refine .inl ⟨rfl, ?_⟩
    simp only [define, modifyGet, MonadStateOf.modifyGet, StateT.modifyGet, hd]
    rfl
  | some r =>
    refine .inr ⟨r.1, r.2, rfl, ?_⟩
    simp only [define, modifyGet, MonadStateOf.modifyGet, StateT.modifyGet, hd]
    rfl

/-- Symbols are numbered in the order in which they are defined. -/
theorem define_inOrder (s : AnalysisState) (scope : ScopeId) (y : Symbol) :
    Declaration.InOrder s.tree.symbols.size (define scope y s).2.tree.symbols.size
      ((define scope y s).1.toList.map .new) := by
  rcases define_run s scope y with ⟨-, hrun⟩ | ⟨tree, new, hd, hrun⟩
  · rw [hrun]
    exact Nat.le_refl _
  · rw [hrun]
    unfold ScopeTree.define at hd
    split at hd
    · cases hd
    · cases hd
      simp [Declaration.InOrder, ScopeTree.modifyScope]

end Analyze

end BasicSSA
