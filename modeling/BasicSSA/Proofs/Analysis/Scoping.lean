import BasicSSA.Proofs.Analysis.Expr
import BasicSSA.Proofs.Lower.Scoped

/-!
# What can be named

Analysis finds a name in the scopes around it or among the members of a class. So in code without
errors a statement names only variables that are declared before it.
-/

namespace BasicSSA

open Lower (Env Scoping)

variable {sc sc' : Scoping}

/-- A context in a scope that was just opened inside that of another one. -/
structure Context.Opened (cx cx' : Context) (name : String) (kind : ScopeKind)
    (s t : AnalysisState) : Prop where
  onward : s.Onward t
  around : s.tree.HasScope cx.scope
  new : ¬s.tree.HasScope cx'.scope
  has : t.tree.HasScope cx'.scope
  kind : (t.tree.scope cx'.scope).kind = kind
  outer : (t.tree.scope cx'.scope).outer = s.tree.chain cx.scope
  empty : (t.tree.scope cx'.scope).symbols = []
  name : (t.tree.scope cx'.scope).name = name
  kept : s.Kept t
  withTypes : cx'.withTypes = cx.withTypes

namespace Lower.Scoping

/-- What is found from a context surrounds it. -/
structure Covers (sc : Scoping) (env : Env) (s : AnalysisState) (cx : Context) : Prop where
  chain : ∀ o ∈ s.tree.chain cx.scope, s.tree.HasScope o
  names : ∀ o ∈ s.tree.chain cx.scope, ∀ e ∈ (s.tree.scope o).symbols,
    env.IsLocal e.2 → e.2 ∈ sc.vars
  members : ∀ x, s.types.HasMember x → ¬env.IsLocal x
  inWith : cx.withTypes ≠ [] → sc.inWith = true
  loops : ∀ o ∈ s.tree.chain cx.scope, (s.tree.scope o).kind = .loop →
    ∀ k, (s.tree.scope o).name ∈ Analyze.loopNames k → k ∈ sc.loops

namespace Covers

section

variable (h : sc.Covers env s cx)

include h

theorem inside (ty : TypeId) :
    sc.inside.Covers env s { cx with withTypes := ty :: cx.withTypes } :=
  ⟨h.chain, h.names, h.members, fun _ => rfl, h.loops⟩

theorem chain_grown (hg : s.Grown t) :
    t.tree.chain cx.scope = s.tree.chain cx.scope := by
  rw [ScopeTree.chain, (hg.tree.scope _ (h.chain _ List.mem_cons_self)).outer, ScopeTree.chain]

theorem declare (hg : s.Grown t) (ha : s.Adds cx.scope xs t) :
    (sc.declare xs).Covers env t cx := by
  have hchain := h.chain_grown hg
  refine ⟨fun o ho => ?_, fun o ho e he hl => ?_, fun x hx => h.members x (ha.members x hx),
    h.inWith, fun o ho hk k hn => ?_⟩
  all_goals rw [hchain] at ho
  · exact hg.tree.hasScope o (h.chain o ho)
  · by_cases heq : o = cx.scope
    · subst heq
      rcases ha.mem he with he | he
      · exact List.mem_append_right _ (h.names _ ho e he hl)
      · exact List.mem_append_left _ he
    · rw [(ha.tables o (h.chain o ho) heq).symbols] at he
      exact List.mem_append_right _ (h.names o ho e he hl)
  · rw [(hg.tree.scope o (h.chain o ho)).kind] at hk
    refine h.loops o ho hk k ?_
    by_cases heq : o = cx.scope
    · subst heq
      rwa [← ha.name]
    · rwa [← (ha.tables o (h.chain o ho) heq).name]

/-- A node that asks for what is found asks for what surrounds it. -/
theorem sees (hn : s.Finds cx n) (ht : n.Typed c) : sc.Sees env n := by
  unfold Sees
  split
  · obtain ⟨x, hi, hx⟩ := hn
    refine ⟨x, hi, fun hl => ?_⟩
    rcases hx with ⟨o, ho, e, he, rfl⟩ | hx
    · exact h.names o ho e he hl
    · exact absurd hl (h.members x hx)
  · exact h.inWith hn
  · obtain ⟨a, ha, -⟩ := ht
    exact Option.isSome_iff_exists.mpr ⟨a, ha⟩
  · trivial

/-- A new scope is surrounded by the same, and by the loop that it may belong to. -/
theorem opened (ho : cx.Opened cx' name kind s t)
    (hvars : sc'.vars = sc.vars) (hwith : sc'.inWith = sc.inWith) (hloops : sc.loops ⊆ sc'.loops)
    (hown : kind = .loop → ∀ k, name ∈ Analyze.loopNames k → k ∈ sc'.loops) :
    sc'.Covers env t cx' := by
  have hold : sc.Covers env t cx :=
    h.declare ho.onward.toGrown (ho.kept.adds ho.around : s.Adds cx.scope [] t)
  have hchain : t.tree.chain cx'.scope = cx'.scope :: t.tree.chain cx.scope := by
    rw [ScopeTree.chain, ho.outer, h.chain_grown ho.onward.toGrown]
  refine ⟨?_, ?_, hold.members, ?_, ?_⟩
  · rw [hchain]
    exact List.forall_mem_cons.mpr ⟨ho.has, hold.chain⟩
  · rw [hchain, hvars]
    exact List.forall_mem_cons.mpr ⟨by simp [ho.empty], hold.names⟩
  · rw [ho.withTypes, hwith]
    exact h.inWith
  · rw [hchain]
    refine List.forall_mem_cons.mpr ⟨fun hk k hn => ?_, fun o hm hk k hn => ?_⟩
    · exact hown (ho.kind.symm.trans hk) k (ho.name ▸ hn)
    · exact hloops (hold.loops o hm hk k hn)

theorem block (ho : cx.Opened cx' name .block s t) :
    sc.Covers env t cx' :=
  h.opened ho rfl rfl (fun _ h => h) nofun

end

/-- The name of the scope of a loop tells which `Exit` leaves it. -/
theorem loopNames_unique (h : name ∈ Analyze.loopNames k) (h' : name ∈ Analyze.loopNames k') :
    k' = k := by
  cases k <;> cases k' <;> simp_all [Analyze.loopNames]

theorem enter (h : sc.Covers env s cx) (ho : cx.Opened cx' name .loop s t)
    (hname : name ∈ Analyze.loopNames k) : (sc.enter k).Covers env t cx' :=
  h.opened ho rfl rfl (List.subset_cons_self _ _) fun _ _ hn =>
    loopNames_unique hname hn ▸ List.mem_cons_self

/-- An `Exit` leaves a loop around it or the procedure. -/
theorem exit (h : sc.Covers env s cx) (hexit : Analyze.canExit s.tree cx.scope k = true) :
    k = .sub ∨ k = .function ∨ k ∈ sc.loops := by
  have hloop (hin : Analyze.isInLoopNamed s.tree cx.scope (Analyze.loopNames k) = true) : k ∈ sc.loops := by
    unfold Analyze.isInLoopNamed at hin
    cases hf : (s.tree.chain cx.scope).findSome? fun o =>
        if (s.tree.scope o).kind.isProcedure then some false
        else if (s.tree.scope o).kind = .loop && (Analyze.loopNames k).contains (s.tree.scope o).name then
          some true else none with
    | none =>
      simp only [hf] at hin
      cases hin
    | some b =>
      simp only [hf, Option.getD_some] at hin
      subst hin
      obtain ⟨o, ho, hb⟩ := List.exists_of_findSome?_eq_some hf
      split at hb
      · cases hb
      · split at hb
        · rename_i hc
          simp only [Bool.and_eq_true, decide_eq_true_eq, List.contains_iff_mem] at hc
          exact h.loops o ho hc.1 k hc.2
        · cases hb
  cases k with
  | sub => exact .inl rfl
  | function => exact .inr (.inl rfl)
  | forLoop | doLoop | whileLoop => exact .inr (.inr (hloop hexit))

end Covers

end Lower.Scoping

end BasicSSA
