import BasicSSA.Proofs.Flow.Passes

/-!
# The dominator tree

The parent of a node in the dominator tree is its immediate dominator (`parent?_domTree`), and the
way from a node up the tree visits its dominators (`mem_chain_domTree`). A parent stands before its
children in reverse post-order, so inductions over the tree go along the position there.
-/

namespace BasicSSA.IL.Graph

variable {g : Graph}

/-- The closest strict dominator of a reachable node. -/
structure ImmDominates (g : Graph) (d b : Nat) : Prop where
  reachable : g.Reachable b
  ne : d ≠ b
  dominates : g.Dominates d b
  closest : ∀ a, a ≠ b → g.Dominates a b → g.Dominates a d

theorem ImmDominates.unique (h : g.ImmDominates d b) (h' : g.ImmDominates d' b) : d = d' :=
  (h'.closest d h.ne h.dominates).antisymm (h'.dominates.reachable h'.reachable)
    (h.closest d' h'.ne h'.dominates)

theorem ImmDominates.position_lt (hg : g.Closed) (h0 : 0 < g.size) (h : g.ImmDominates d b) :
    g.position d < g.position b :=
  h.dominates.position_lt hg h0 h.ne h.reachable

@[simp] theorem order_domTree (g : Graph) : g.domTree.order = g.reversePostOrder :=
  rfl

section

variable (hg : g.Closed) (h0 : 0 < g.size)

include hg h0

theorem contains_domTree :
    g.domTree.contains b = true ↔ g.Reachable b := by
  simp [DomTree.contains, mem_reversePostOrder hg h0]

theorem settled_domTree : g.Settled g.domTree.parents := by
  obtain ⟨r, hr, -, hall⟩ := settle_start hg h0
  have hparents : g.domTree.parents = r := (hall _ _ (Nat.le_refl _) (Nat.le_refl _)).1
  rwa [hparents]

theorem parent?_domTree :
    g.domTree.parent? b = some d ↔ g.ImmDominates d b := by
  have ht := settled_domTree hg h0
  have himm {d : Nat} (hd : g.domTree.parent? b = some d) : g.ImmDominates d b := by
    have hb := ht.sketch.reachable hd
    have hdr := ht.sketch.reachable_of_placed (ht.sketch.placed hd)
    refine ⟨hb, ?_, (ht.above_iff hb).mp (.up hd .refl), fun a hab ha => ?_⟩
    · rintro rfl
      exact Nat.lt_irrefl _ (ht.sketch.earlier hd)
    · obtain ⟨e, he, hae⟩ := ((ht.above_iff hb).mpr ha).of_ne hab
      cases hd.symm.trans he
      exact (ht.above_iff hdr).mp hae
  constructor
  · exact himm
  · intro h
    obtain ⟨e, he, -⟩ := ((ht.above_iff h.reachable).mpr h.dominates).of_ne h.ne
    rw [h.unique (himm he)]
    exact he

theorem exists_parent (hb : g.Reachable b) (hne : b ≠ 0) :
    ∃ d, g.domTree.parent? b = some d :=
  (Parents.isPlaced_iff.mp ((settled_domTree hg h0).placed b hb)).resolve_left hne

theorem parent?_entry : g.domTree.parent? 0 = none :=
  (settled_domTree hg h0).sketch.entry

theorem mem_children :
    c ∈ g.domTree.children n ↔ g.ImmDominates n c := by
  simp only [DomTree.children, List.mem_filter, decide_eq_true_eq, parent?_domTree hg h0]
  exact ⟨And.right, fun h => ⟨(mem_reversePostOrder hg h0).mpr h.reachable, h⟩⟩

theorem nodup_children : (g.domTree.children n).Nodup :=
  (nodup_reversePostOrder hg h0).filter _

end

/-! ### The way up the tree -/

section

variable (hg : g.Closed) (h0 : 0 < g.size)

include hg h0

/-- The way up does not depend on the bound, if that exceeds the position of the node. -/
theorem chainAux_eq (hm : g.position b < m)
    (hn : g.position b < n) : g.domTree.chainAux m b = g.domTree.chainAux n b := by
  induction m generalizing n b with
  | zero => omega
  | succ m ih =>
    obtain ⟨n, rfl⟩ : ∃ k, n = k + 1 := ⟨n - 1, by omega⟩
    simp only [DomTree.chainAux]
    cases hp : g.domTree.parent? b with
    | none => rfl
    | some d =>
      have := ((parent?_domTree hg h0).mp hp).position_lt hg h0
      exact congrArg _ (ih (by omega) (by omega))

theorem chain_domTree (hb : g.Reachable b) :
    g.domTree.chain b = b :: (g.domTree.parent? b).elim [] g.domTree.chain := by
  have hsize : g.domTree.parents.size = g.size := (settled_domTree hg h0).sketch.size
  have hpos := position_lt_size hg h0 hb
  rw [DomTree.chain, hsize, chainAux_eq hg h0 hpos (Nat.lt_succ_of_lt hpos), DomTree.chainAux]
  cases hp : g.domTree.parent? b with
  | none => rfl
  | some d =>
    simp only [Option.elim_some, DomTree.chain, hsize]

/-- An induction up the tree. -/
theorem parent_induction {P : Nat → Prop} (entry : P 0)
    (child : ∀ b d, g.ImmDominates d b → P d → P b) (b : Nat) (hb : g.Reachable b) : P b := by
  induction hn : g.position b using Nat.strongRecOn generalizing b with
  | _ n ih =>
    subst hn
    by_cases hne : b = 0
    · exact hne ▸ entry
    · obtain ⟨d, hd⟩ := exists_parent hg h0 hb hne
      have hd := (parent?_domTree hg h0).mp hd
      exact child b d hd (ih _ (hd.position_lt hg h0) d (hd.dominates.reachable hb) rfl)

/-- The way up from a node visits its dominators. -/
theorem mem_chain_domTree (hb : g.Reachable b) :
    a ∈ g.domTree.chain b ↔ g.Dominates a b := by
  refine parent_induction (P := fun b => a ∈ g.domTree.chain b ↔ g.Dominates a b) hg h0 ?_ ?_ b hb
  · rw [chain_domTree hg h0 .entry, parent?_entry hg h0]
    simp only [Option.elim_none, List.mem_singleton]
    exact ⟨fun h => h ▸ .refl g 0, Dominates.eq_entry⟩
  · intro b d hd ih
    rw [chain_domTree hg h0 hd.reachable, (parent?_domTree hg h0).mpr hd]
    simp only [Option.elim_some, List.mem_cons, ih]
    constructor
    · rintro (rfl | h)
      · exact .refl g a
      · exact h.trans hd.dominates
    · intro h
      by_cases ha : a = b
      · exact .inl ha
      · exact .inr (hd.closest a ha h)

end

end BasicSSA.IL.Graph
