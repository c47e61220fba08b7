import BasicSSA.Proofs.Flow.Frontier
import BasicSSA.Proofs.IL.Accepted

/-!
# Dominators of blocks

The order of the blocks of a function (`postOrder_correct`), its dominator tree (`domTree_correct`)
and its dominance frontiers (`frontiers_exact`).
-/

namespace BasicSSA.IL

open IL.Graph (Reachable Dominates ImmDominates)

/-- A function with a loop of two entries, a block that leads to itself, a branch to the entry, a
repeated target and a block that is never reached. -/
def tangle : Function where
  name := "tangle"
  blocks :=
    [{ label := "entry", instrs := [{ op := .cbr, labels := ["a", "b"] }] },
     { label := "a", instrs := [{ op := .cbr, labels := ["b", "a"] }] },
     { label := "b", instrs := [{ op := .switch, labels := ["c", "a", "entry", "c"] }] },
     { label := "c", instrs := [{ op := .ret }] },
     { label := "d", instrs := [{ op := .br, labels := ["c"] }] }]

/-! ### Orders -/

/-- Post-order lists the blocks that a run reaches, each once and the entry last. In reverse
post-order a block other than the entry comes after one of its predecessors, and every edge goes
forwards unless some run leads back over it. -/
theorem postOrder_correct (f : Function) :
    f.graph.postOrder.Nodup ∧
    (∀ b, b ∈ f.graph.postOrder ↔ b < f.blocks.length ∧ f.graph.Reachable b) ∧
    (f.blocks ≠ [] → f.graph.postOrder.getLast? = some 0) ∧
    (∀ b, f.graph.Reachable b → b ≠ 0 →
      ∃ p ∈ f.graph.preds b, p ∈ f.graph.postOrder ∧ f.graph.position p < f.graph.position b) ∧
    ∀ a b, f.graph.Reachable a → b ∈ f.graph.succs a → (¬∃ p, f.graph.Run b (a :: p)) →
      f.graph.position a < f.graph.position b := by
  have hg := f.closed_graph
  rcases Nat.eq_zero_or_pos f.graph.size with h0 | h0
  · have hnil : f.blocks = [] := List.length_eq_zero_iff.mp (f.size_graph ▸ h0)
    have horder : f.graph.postOrder = [] := congrArg List.reverse (if_pos h0)
    have hedge {a b : Nat} (he : b ∈ f.graph.succs a) : False := by
      have := hg a b he
      omega
    refine ⟨by simp [horder], by simp [horder, hnil], fun h => absurd hnil h, ?_, ?_⟩
    · intro b hb hne
      obtain ⟨p, -, he, -⟩ := hb.pred hne
      exact (hedge he).elim
    · exact fun a b _ he => (hedge he).elim
  · have hmem (b : Nat) : b ∈ f.graph.postOrder ↔ f.graph.Reachable b :=
      List.mem_reverse.trans (Graph.mem_reversePostOrder hg h0)
    refine ⟨List.nodup_reverse.mpr (Graph.nodup_reversePostOrder hg h0), fun b => ?_, fun _ => ?_,
      fun b hb hne => ?_, fun a b ha he hback => ?_⟩
    · rw [hmem, ← f.size_graph]
      exact ⟨fun h => ⟨h.lt_size hg h0, h⟩, fun h => h.2⟩
    · obtain ⟨rest, hrest⟩ := Graph.reversePostOrder_eq_cons h0
      rw [Graph.postOrder, hrest, List.getLast?_reverse, List.head?_cons]
    · obtain ⟨p, hp, he, hlt⟩ := Graph.exists_earlier_pred hg h0 hb hne
      exact ⟨p, Graph.mem_preds.mpr he, (hmem p).mpr hp, hlt⟩
    · exact Graph.position_lt_of_edge hg h0 ha he fun p hp => hback ⟨p, hp⟩

theorem postOrder_tangle : tangle.graph.postOrder = [3, 2, 1, 0] ∧
    (¬∃ p, tangle.graph.Run 3 (2 :: p)) ∧ tangle.graph.position 2 < tangle.graph.position 3 := by
  obtain ⟨-, hmem, -, -, hedge⟩ := postOrder_correct tangle
  have hstay {p : List Nat} (hp : tangle.graph.Run 3 p) : p = [3] := by
    induction hp with
    | start => rfl
    | step _ he ih =>
      cases ih
      cases he
  have hback : ¬∃ p, tangle.graph.Run 3 (2 :: p) := fun ⟨p, hp⟩ => by cases hstay hp
  have hreach : tangle.graph.Reachable 2 := ((hmem 2).mp (by decide +kernel)).2
  exact ⟨by decide +kernel, hback, hedge 2 3 hreach (by decide +kernel) hback⟩

/-! ### Dominators -/

theorem Graph.settle_nil {g : Graph} {t : Parents} : g.settle [] steps passes t = t := by
  cases passes with
  | zero => rfl
  | succ passes => exact if_pos rfl

/-- The passes over any graph end with one tree for all bounds that are large enough. -/
theorem Graph.exists_settles {g : Graph} (hg : g.Closed) :
    ∃ r, g.Settles g.reversePostOrder (Array.replicate g.size none) r ∧
      ∀ steps passes, 2 * g.size ≤ steps → g.size * g.size + 2 ≤ passes →
        g.settle g.reversePostOrder steps passes (Array.replicate g.size none) = r ∧
          g.pass g.reversePostOrder steps r = r := by
  rcases Nat.eq_zero_or_pos g.size with h0 | h0
  · have horder : g.reversePostOrder = [] := if_pos h0
    rw [horder]
    exact ⟨_, .done .done, fun _ _ _ _ => ⟨settle_nil, rfl⟩⟩
  · obtain ⟨r, -, hr⟩ := settle_start hg h0
    exact ⟨r, hr⟩

theorem Graph.domTreeWithin_eq {g : Graph} (hg : g.Closed) (hsteps : 2 * g.size ≤ steps)
    (hpasses : g.size * g.size + 2 ≤ passes) : g.domTreeWithin steps passes = g.domTree ∧
      g.pass g.reversePostOrder steps g.domTree.parents = g.domTree.parents := by
  obtain ⟨r, -, hall⟩ := exists_settles hg
  have hparents : g.domTree.parents = r := (hall _ _ (Nat.le_refl _) (Nat.le_refl _)).1
  obtain ⟨hr, hfix⟩ := hall steps passes hsteps hpasses
  rw [hparents, domTree, domTreeWithin, domTreeWithin, hr,
    (hall _ _ (Nat.le_refl _) (Nat.le_refl _)).1]
  exact ⟨rfl, hfix⟩

theorem Graph.settles_domTree {g : Graph} (hg : g.Closed) :
    g.Settles g.reversePostOrder (Array.replicate g.size none) g.domTree.parents := by
  obtain ⟨r, hsettles, hall⟩ := exists_settles hg
  rwa [show g.domTree.parents = r from (hall _ _ (Nat.le_refl _) (Nat.le_refl _)).1]

/-- The dominator tree of a function. Its loops come to their ends: in each pass the ways from the
predecessors of a block meet, and the last pass changes nothing. So the bounds of the loops do not
matter. The tree holds the reachable blocks; a block is above another one if it is on every
run from the entry to it, the parent of a block is its closest strict dominator, and the block is
once among the children of its parent. -/
theorem domTree_correct (f : Function) :
    f.graph.Settles f.graph.reversePostOrder (Array.replicate f.graph.size none)
      f.graph.domTree.parents ∧
    (∀ steps passes, 2 * f.graph.size ≤ steps → f.graph.size * f.graph.size + 2 ≤ passes →
      f.graph.domTreeWithin steps passes = f.graph.domTree ∧
        f.graph.pass f.graph.reversePostOrder steps f.graph.domTree.parents =
          f.graph.domTree.parents) ∧
    ∀ b < f.blocks.length,
      (f.graph.domTree.contains b = true ↔ f.graph.Reachable b) ∧
      (f.graph.domTree.parents.isPlaced b = true ↔ f.graph.Reachable b) ∧
      (f.graph.Reachable b →
        (∀ a, f.graph.domTree.dominates a b = true ↔ f.graph.Dominates a b) ∧
        (b ≠ 0 → ∃ d, f.graph.domTree.parent? b = some d ∧ f.graph.ImmDominates d b ∧
          (∀ d', f.graph.ImmDominates d' b → d' = d) ∧
          (f.graph.domTree.children d).count b = 1 ∧
          ∀ d', b ∈ f.graph.domTree.children d' → d' = d)) := by
  have hg := f.closed_graph
  refine ⟨Graph.settles_domTree hg, fun steps passes => Graph.domTreeWithin_eq hg, fun b hb => ?_⟩
  have h0 : 0 < f.graph.size := by
    rw [f.size_graph]
    exact Nat.zero_lt_of_lt hb
  have ht := Graph.settled_domTree hg h0
  refine ⟨Graph.contains_domTree hg h0, ⟨ht.sketch.reachable_of_placed, ht.placed b⟩, fun hr => ?_⟩
  refine ⟨fun a => ?_, fun hne => ?_⟩
  · have hchain := Graph.mem_chain_domTree (a := a) hg h0 hr
    rw [DomTree.dominates, Bool.or_eq_true, decide_eq_true_eq, List.contains_iff_mem, hchain]
    constructor
    · rintro (rfl | h)
      · exact .refl _ _
      · exact h
    · exact .inr
  · obtain ⟨d, hd⟩ := Graph.exists_parent hg h0 hr hne
    have himm := (Graph.parent?_domTree hg h0).mp hd
    refine ⟨d, hd, himm, fun d' h' => h'.unique himm, ?_, fun d' h' => ?_⟩
    · apply List.count_eq_one_of_mem (Graph.nodup_children hg h0)
      exact (Graph.mem_children hg h0).mpr himm
    · exact ((Graph.mem_children hg h0).mp h').unique himm

theorem domTree_tangle : tangle.graph.domTree.parents = #[none, some 0, some 0, some 2, none] ∧
    tangle.graph.Dominates 2 3 ∧ ¬tangle.graph.Dominates 1 3 ∧ ¬tangle.graph.Reachable 4 ∧
    (tangle.graph.domTree.children 0).count 2 = 1 := by
  have hparents : tangle.graph.domTree.parents = #[none, some 0, some 0, some 2, none] := by
    decide +kernel
  have hlt (b : Nat) (hb : b < 5) : b < tangle.blocks.length := hb
  obtain ⟨-, -, hall⟩ := domTree_correct tangle
  have hplaced (b : Nat) : tangle.graph.domTree.parents.isPlaced b =
      Parents.isPlaced #[none, some 0, some 0, some 2, none] b := by rw [hparents]
  obtain ⟨-, hreach, htree⟩ := hall 3 (hlt 3 (by decide))
  obtain ⟨hdom, -⟩ := htree (hreach.mp ((hplaced 3).trans rfl))
  obtain ⟨-, hreach₂, htree₂⟩ := hall 2 (hlt 2 (by decide))
  obtain ⟨-, himm⟩ := htree₂ (hreach₂.mp ((hplaced 2).trans rfl))
  obtain ⟨d, hd, -, -, hcount, -⟩ := himm (by decide)
  refine ⟨hparents, (hdom 2).mp (by decide +kernel), fun h => ?_, fun h => ?_, ?_⟩
  · have h := (hdom 1).mpr h
    exact absurd h (by decide +kernel)
  · have h := (hall 4 (hlt 4 (by decide))).2.1.mpr h
    rw [hplaced] at h
    cases h
  · have hd : Parents.parent? #[none, some 0, some 0, some 2, none] 2 = some d := by
      rw [← hparents]
      exact hd
    cases hd
    exact hcount

/-! ### Frontiers -/

/-- The frontier of a block is a list of blocks, each once. A block is in it if the other one
dominates a predecessor that a run may come from, and does not strictly dominate the block itself.
Only for the entry that is not enough: since nothing counts the start of a run as a way into the
entry, a single branch to it does not make it a join. -/
theorem frontiers_exact (f : Function) (ha : a < f.blocks.length) :
    a < (f.graph.frontiers f.graph.domTree).size ∧
    ((f.graph.frontiers f.graph.domTree).getD a []).Nodup ∧
    ∀ b, b ∈ (f.graph.frontiers f.graph.domTree).getD a [] ↔
      ((∃ p, f.graph.Reachable p ∧ b ∈ f.graph.succs p ∧ f.graph.Dominates a p) ∧
        ¬(a ≠ b ∧ f.graph.Dominates a b)) ∧
      (b = 0 → ∃ p q, p ≠ q ∧ (f.graph.Reachable p ∧ 0 ∈ f.graph.succs p) ∧
        f.graph.Reachable q ∧ 0 ∈ f.graph.succs q) := by
  have hg := f.closed_graph
  have hsize : a < f.graph.size := f.size_graph ▸ ha
  have h0 := Nat.zero_lt_of_lt hsize
  refine ⟨by simpa [Graph.frontiers] using hsize, Graph.nodup_frontiers hg h0 a, fun b => ?_⟩
  have hstrict : ¬(a ≠ b ∧ f.graph.Dominates a b) ↔ (f.graph.Dominates a b → a = b) := by
    rw [not_and, not_imp_not]
  rw [hstrict]
  constructor
  · intro hb
    obtain ⟨hbr, hrun⟩ := (Graph.mem_frontiers hg h0 hsize).mp hb
    obtain ⟨hlength, hdom⟩ := (Graph.mem_runners hg h0 hbr).mp hrun
    refine ⟨hdom, ?_⟩
    rintro rfl
    obtain ⟨p, hp, q, hq, hpq⟩ :=
      (Graph.two_le_length_iff (Graph.nodup_reachablePreds ..)).mp hlength
    exact ⟨p, q, hpq, (Graph.mem_reachablePreds hg h0).mp hp,
      (Graph.mem_reachablePreds hg h0).mp hq⟩
  · rintro ⟨⟨⟨p, hp, he, hap⟩, hab⟩, hentry⟩
    by_cases hb0 : b = 0
    · subst hb0
      obtain ⟨q, q', hne, hq, hq'⟩ := hentry rfl
      refine (Graph.mem_frontiers hg h0 hsize).mpr ⟨.entry, (Graph.mem_runners hg h0 .entry).mpr
        ⟨?_, ⟨p, hp, he, hap⟩, hab⟩⟩
      exact (Graph.two_le_length_iff (Graph.nodup_reachablePreds ..)).mpr
        ⟨q, (Graph.mem_reachablePreds hg h0).mpr hq, q', (Graph.mem_reachablePreds hg h0).mpr hq',
          hne⟩
    · exact Graph.mem_frontiers_of_edge hg h0 hb0 hp he hap hab

theorem frontiers_tangle : (tangle.graph.frontiers tangle.graph.domTree).getD 1 [] = [1, 2] ∧
    (∃ p, tangle.graph.Reachable p ∧ 2 ∈ tangle.graph.succs p ∧ tangle.graph.Dominates 1 p) ∧
    ¬(1 ≠ 2 ∧ tangle.graph.Dominates 1 2) := by
  have hfrontier : (tangle.graph.frontiers tangle.graph.domTree).getD 1 [] = [1, 2] := by
    decide +kernel
  obtain ⟨-, -, hmem⟩ := frontiers_exact tangle (show 1 < 5 by decide)
  exact ⟨hfrontier, ((hmem 2).mp (hfrontier ▸ by decide)).1⟩

/-- A block that leads back to itself or out of the function. -/
def spin : Function where
  name := "spin"
  blocks :=
    [{ label := "entry", instrs := [{ op := .cbr, operands := [.bool true],
                                      labels := ["entry", "exit"] }] },
     { label := "exit", instrs := [{ op := .ret }] }]

/-- The entry dominates its only predecessor and nothing strictly dominates it, but it is in no
frontier. -/
theorem frontiers_spin : spin.graph.Reachable 0 ∧
    ¬(0 ∈ (spin.graph.frontiers spin.graph.domTree).getD 0 [] ↔
      (∃ p, spin.graph.Reachable p ∧ 0 ∈ spin.graph.succs p ∧ spin.graph.Dominates 0 p) ∧
        ¬(0 ≠ 0 ∧ spin.graph.Dominates 0 0)) := by
  have hmissing : 0 ∉ (spin.graph.frontiers spin.graph.domTree).getD 0 [] := by decide +kernel
  refine ⟨.entry, fun h => hmissing (h.mpr ⟨⟨0, .entry, by decide +kernel, .refl _ 0⟩, ?_⟩)⟩
  exact fun h => h.1 rfl

end BasicSSA.IL
