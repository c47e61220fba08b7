import BasicSSA.Proofs.Analysis.Course

/-!
# Tables of scopes

Which names the scopes that exist get, and which they keep. Inside a procedure, a statement defines
names only in its own scope, in scopes that it opens, and nowhere else.
-/

namespace BasicSSA

namespace AnalysisState

variable {s : AnalysisState}

/-- The scopes that exist keep their tables, and types get no members. -/
structure Kept (s t : AnalysisState) : Prop where
  tables : ∀ o, s.tree.HasScope o → s.tree.SameTable t.tree o
  members : ∀ x, t.types.HasMember x → s.types.HasMember x

/-- One of the scopes that exist may get some symbols. -/
structure Adds (scope : ScopeId) (xs : List SymbolId) (s t : AnalysisState) : Prop where
  tables : ∀ o, s.tree.HasScope o → o ≠ scope → s.tree.SameTable t.tree o
  name : (t.tree.scope scope).name = (s.tree.scope scope).name
  own : ∃ es, (t.tree.scope scope).symbols = (s.tree.scope scope).symbols ++ es ∧ ∀ e ∈ es, e.2 ∈ xs
  members : ∀ x, t.types.HasMember x → s.types.HasMember x

/-- The symbols that a scope gets may become members of types too. -/
structure Writes (scope : ScopeId) (xs : List SymbolId) (s t : AnalysisState) : Prop where
  tables : ∀ o, s.tree.HasScope o → o ≠ scope → s.tree.SameTable t.tree o
  own : ∀ e ∈ (t.tree.scope scope).symbols, e ∈ (s.tree.scope scope).symbols ∨ e.2 ∈ xs
  members : ∀ x, t.types.HasMember x → s.types.HasMember x ∨ x ∈ xs

theorem Quiet.kept (h : s.Quiet t) : s.Kept t :=
  ⟨fun _ _ => h.tree ▸ .refl _ _, fun _ => h.members⟩

theorem Kept.adds (h : s.Kept t) (hs : s.tree.HasScope scope) : Adds scope xs s t where
  tables o ho _ := h.tables o ho
  name := (h.tables scope hs).name
  own := ⟨[], by rw [(h.tables scope hs).symbols, List.append_nil], by simp⟩
  members := h.members

theorem Adds.mem (h : Adds scope xs s t) (he : e ∈ (t.tree.scope scope).symbols) :
    e ∈ (s.tree.scope scope).symbols ∨ e.2 ∈ xs := by
  obtain ⟨es, hown, hes⟩ := h.own
  rw [hown] at he
  exact (List.mem_append.mp he).imp_right (hes e)

theorem Adds.trans (h : Adds scope xs s t) (hg : s.Grown t) (h' : Adds scope ys t u) :
    Adds scope (ys ++ xs) s u where
  tables o ho hne := (h.tables o ho hne).trans (h'.tables o (hg.tree.hasScope o ho) hne)
  name := h'.name.trans h.name
  own := by
    obtain ⟨es, hown, hes⟩ := h.own
    obtain ⟨es', hown', hes'⟩ := h'.own
    refine ⟨es ++ es', by rw [hown', hown, List.append_assoc], List.forall_mem_append.mpr ⟨?_, ?_⟩⟩
    · exact fun e he => List.mem_append_right _ (hes e he)
    · exact fun e he => List.mem_append_left _ (hes' e he)
  members x hx := h.members x (h'.members x hx)

/-- A scope that gets no symbols keeps its table. -/
theorem Adds.kept (h : Adds scope [] s t) : s.Kept t where
  tables o ho := by
    by_cases hne : o = scope
    · subst hne
      obtain ⟨es, hown, hes⟩ := h.own
      cases es with
      | nil => exact ⟨by rw [hown, List.append_nil], h.name⟩
      | cons e es => cases hes e List.mem_cons_self
    · exact h.tables o ho hne
  members := h.members

theorem Adds.mono (h : Adds scope xs s t) (hsub : xs ⊆ ys) : Adds scope ys s t := by
  obtain ⟨es, hown, hes⟩ := h.own
  exact ⟨h.tables, h.name, ⟨es, hown, fun e he => hsub (hes e he)⟩, h.members⟩

theorem Adds.writes (h : Adds scope xs s t) : Writes scope xs s t :=
  ⟨h.tables, fun _ => h.mem, fun x hx => .inl (h.members x hx)⟩

/-- What is defined in a new scope changes no scope that existed before. -/
theorem Kept.inside (h : s.Kept t) (hg : s.Grown t) (hnew : ¬s.tree.HasScope scope)
    (h' : Adds scope xs t u) : s.Kept u where
  tables o ho := (h.tables o ho).trans
    (h'.tables o (hg.tree.hasScope o ho) fun he => hnew (he ▸ ho))
  members x hx := h.members x (h'.members x hx)

end AnalysisState

theorem Analyze.OpensAt.kept (h : OpensAt outer name k s t new) : s.Kept t :=
  ⟨fun o ho => h.adds.table o (h.adds.ne ho), fun _ => h.types ▸ id⟩

theorem Analyze.define_adds {s : AnalysisState} (hs : s.tree.HasScope scope) :
    s.Adds scope (define scope y s).1.toList (define scope y s).2 ∧
      ((s.tree.scope scope).symbols = [] → (define scope y s).1 ≠ none) := by
  rcases define_run s scope y with ⟨hd, hrun⟩ | ⟨tree, x, hd, hrun⟩
  · rw [hrun]
    refine ⟨⟨fun _ _ _ => .refl _ _, rfl, ⟨[], by simp, by simp⟩, fun _ hx => hx⟩, fun he => ?_⟩
    simpa [hd] using ScopeTree.define_isSome (y := y) he
  · rw [hrun]
    have h := ScopeTree.defines hd
    exact ⟨⟨fun o _ => h.table o, h.name, ⟨_, h.own hs, by simp⟩, fun _ hx => hx⟩, by simp⟩

end BasicSSA
