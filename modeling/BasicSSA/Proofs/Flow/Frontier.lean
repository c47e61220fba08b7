import BasicSSA.Flow.Frontier
import BasicSSA.Proofs.Flow.DominatorTree
import Mathlib.Order.Bounds.Defs

/-!
# Dominance frontiers

Where an edge leaves what a node dominates, it enters the frontier of the node
(`mem_frontiers_of_edge`). The iterated frontier of some nodes is the least set that holds their
frontiers and those of its own nodes (`iteratedFrontier_isLeast`).
-/

namespace BasicSSA.IL

namespace Graph

variable {g : Graph}

theorem mem_reachablePreds (hg : g.Closed) (h0 : 0 < g.size) :
    p ∈ g.reachablePreds g.domTree b ↔ g.Reachable p ∧ b ∈ g.succs p := by
  rw [reachablePreds, List.mem_filter, contains_domTree hg h0, mem_preds, and_comm]

theorem nodup_reachablePreds (g : Graph) (t : DomTree) (b : Nat) : (g.reachablePreds t b).Nodup :=
  (List.nodup_range.filter _).filter _

theorem two_le_length_iff {l : List Nat} (hl : l.Nodup) :
    2 ≤ l.length ↔ ∃ p ∈ l, ∃ q ∈ l, p ≠ q := by
  match l with
  | [] => simp
  | [p] => simp
  | p :: q :: l => exact iff_of_true (by simp) ⟨p, by simp, q, by simp, by grind⟩

section

variable (hg : g.Closed) (h0 : 0 < g.size)

include hg h0

/-- A node with one reachable predecessor, other than the entry, has it as its parent. -/
theorem immDominates_of_single (hb : g.Reachable b) (hb0 : b ≠ 0)
    (h : ¬2 ≤ (g.reachablePreds g.domTree b).length) (hp : g.Reachable p) (he : b ∈ g.succs p) :
    g.ImmDominates p b := by
  have honly : ∀ q, g.Reachable q → b ∈ g.succs q → q = p := by
    intro q hq hqe
    refine Decidable.byContradiction fun hne => h ?_
    exact (two_le_length_iff (nodup_reachablePreds ..)).mpr ⟨q, (mem_reachablePreds hg h0).mpr
      ⟨hq, hqe⟩, p, (mem_reachablePreds hg h0).mpr ⟨hp, he⟩, hne⟩
  obtain ⟨q, hq, hqe, hqb⟩ := hb.pred hb0
  refine ⟨hb, honly q hq hqe ▸ hqb, ?_, fun a ha hab => hab.of_succ ha he⟩
  exact .of_preds hb0 fun q hq hqe => honly q hq hqe ▸ .refl g q

/-- The way up from a node to one of its dominators visits what that does not dominate from
above. -/
theorem mem_takeWhile_chain (hp : g.Reachable p)
    (hd : g.Dominates d p) :
    c ∈ (g.domTree.chain p).takeWhile (some · ≠ some d) ↔
      g.Dominates c p ∧ ¬g.Dominates c d := by
  revert hd
  refine parent_induction (P := fun p => g.Dominates d p →
    (c ∈ (g.domTree.chain p).takeWhile (some · ≠ some d) ↔
      g.Dominates c p ∧ ¬g.Dominates c d)) hg h0 ?_ ?_ p hp
  · intro hd
    cases hd.eq_entry
    rw [chain_domTree hg h0 .entry]
    simp
  · intro p q hq ih hd
    rw [chain_domTree hg h0 hq.reachable, (parent?_domTree hg h0).mpr hq, Option.elim_some]
    by_cases hpd : p = d
    · subst hpd
      simp
    · have hdq := hq.closest d (Ne.symm hpd) hd
      rw [List.takeWhile_cons_of_pos (by simpa using hpd), List.mem_cons, ih hdq]
      constructor
      · rintro (rfl | ⟨hc, hcd⟩)
        · exact ⟨.refl g c, fun h => hpd (hd.antisymm hq.reachable h).symm⟩
        · exact ⟨hc.trans hq.dominates, hcd⟩
      · rintro ⟨hc, hcd⟩
        by_cases hcp : c = p
        · exact .inl hcp
        · exact .inr ⟨hq.closest c hcp hc, hcd⟩

theorem mem_frontiers (ha : a < g.size) :
    b ∈ (g.frontiers g.domTree).getD a [] ↔
      g.Reachable b ∧ a ∈ g.runners g.domTree b := by
  simp [frontiers, ha, mem_reversePostOrder hg h0, List.filter_map, Function.comp_def]

theorem nodup_frontiers (a : Nat) :
    ((g.frontiers g.domTree).getD a []).Nodup := by
  by_cases ha : a < g.size
  · simpa [frontiers, ha, List.filter_map, Function.comp_def] using
      (nodup_reversePostOrder hg h0).filter _
  · simp [frontiers, ha]

/-- A join is in the frontiers of what dominates one of its predecessors and not the join itself,
other than from the join. The entry has no parent, so the way up to it has no end before the
entry. -/
theorem mem_runners (hb : g.Reachable b) :
    a ∈ g.runners g.domTree b ↔ 2 ≤ (g.reachablePreds g.domTree b).length ∧
      (∃ p, g.Reachable p ∧ b ∈ g.succs p ∧ g.Dominates a p) ∧ (g.Dominates a b → a = b) := by
  have hway {p : Nat} (hp : g.Reachable p) (he : b ∈ g.succs p) :
      a ∈ (g.domTree.chain p).takeWhile (some · ≠ g.domTree.parent? b) ↔
        g.Dominates a p ∧ (g.Dominates a b → a = b) := by
    by_cases hb0 : b = 0
    · subst hb0
      have hall (l : List Nat) : l.takeWhile (some · ≠ none) = l := by
        induction l <;> simp_all
      rw [parent?_entry hg h0, hall, mem_chain_domTree hg h0 hp]
      exact (and_iff_left Dominates.eq_entry).symm
    · obtain ⟨d, hd⟩ := exists_parent hg h0 hb hb0
      have himm := (parent?_domTree hg h0).mp hd
      rw [hd, mem_takeWhile_chain hg h0 hp (himm.dominates.of_succ himm.ne he)]
      refine and_congr_right fun _ => ⟨fun had hab => ?_, fun hab had => ?_⟩
      · exact Decidable.byContradiction fun hne => had (himm.closest a hne hab)
      · obtain rfl := hab (had.trans himm.dominates)
        exact himm.ne (himm.dominates.antisymm hb had)
  simp only [runners]
  split
  · exact iff_of_false List.not_mem_nil fun h => by omega
  · rw [List.mem_flatMap, and_iff_right (by omega)]
    constructor
    · rintro ⟨p, hp, ha⟩
      obtain ⟨hp, he⟩ := (mem_reachablePreds hg h0).mp hp
      obtain ⟨hap, hab⟩ := (hway hp he).mp ha
      exact ⟨⟨p, hp, he, hap⟩, hab⟩
    · rintro ⟨⟨p, hp, he, hap⟩, hab⟩
      exact ⟨p, (mem_reachablePreds hg h0).mpr ⟨hp, he⟩, (hway hp he).mpr ⟨hap, hab⟩⟩

/-- A node in a frontier is entered by an edge from what the owner of the frontier dominates. -/
theorem edge_of_mem_frontiers (h : b ∈ (g.frontiers g.domTree).getD a []) :
    ∃ p, g.Reachable p ∧ b ∈ g.succs p ∧ g.Dominates a p ∧ (g.Dominates a b → a = b) := by
  have ha : a < g.size := by
    refine Nat.lt_of_not_le fun hle => ?_
    simp [Array.getD, frontiers, Nat.not_lt.mpr hle] at h
  obtain ⟨hr, hrun⟩ := (mem_frontiers hg h0 ha).mp h
  obtain ⟨-, ⟨p, hp, he, hd⟩, hab⟩ := (mem_runners hg h0 hr).mp hrun
  exact ⟨p, hp, he, hd, hab⟩

/-- An edge from what a node dominates to what it does not dominate strictly enters its
frontier. -/
theorem mem_frontiers_of_edge (hb0 : b ≠ 0)
    (hp : g.Reachable p) (he : b ∈ g.succs p) (hc : g.Dominates c p)
    (hcb : g.Dominates c b → c = b) : b ∈ (g.frontiers g.domTree).getD c [] := by
  have hb := hp.step he
  refine (mem_frontiers hg h0 ((hc.reachable hp).lt_size hg h0)).mpr ⟨hb, ?_⟩
  refine (mem_runners hg h0 hb).mpr ⟨?_, ⟨p, hp, he, hc⟩, hcb⟩
  -- a single predecessor would be the parent, and then all that dominates it dominates the node
  refine Decidable.byContradiction fun h => ?_
  have himm := immDominates_of_single hg h0 hb hb0 h hp he
  obtain rfl := hcb (hc.trans himm.dominates)
  exact himm.ne (himm.dominates.antisymm hb hc)

end

end Graph

/-! ### The iterated frontier -/

theorem nodup_eraseDups (l : List Nat) : l.eraseDups.Nodup := by
  induction hn : l.length using Nat.strongRecOn generalizing l with
  | _ n ih =>
    subst hn
    cases l with
    | nil => simp
    | cons a l =>
      rw [List.eraseDups_cons]
      refine List.nodup_cons.mpr ⟨by simp, ih _ ?_ _ rfl⟩
      exact Nat.lt_succ_of_le (List.length_filter_le ..)

theorem mem_flatten_of_mem_getD {df : Frontiers} (h : b ∈ df.getD a []) :
    b ∈ df.toList.flatten := by
  by_cases ha : a < df.size
  · rw [Array.getD, dif_pos ha] at h
    exact List.mem_flatten.mpr ⟨_, Array.getElem_mem_toList ha, h⟩
  · simp [Array.getD, ha] at h

theorem mem_fresh {df : Frontiers} : x ∈ df.fresh placed b ↔ x ∈ df.getD b [] ∧ x ∉ placed := by
  simp [Frontiers.fresh]

theorem nodup_fresh {df : Frontiers} : (df.fresh placed b).Nodup :=
  (nodup_eraseDups _).filter _

/-- Nodes found for the first time leave that many fewer to be found. -/
theorem countP_fresh (df : Frontiers) (placed : List Nat) (b : Nat) :
    df.toList.flatten.countP (!(placed ++ df.fresh placed b).contains ·) +
      (df.fresh placed b).length ≤ df.toList.flatten.countP (!placed.contains ·) := by
  have hsplit := List.countP_eq_countP_filter_add df.toList.flatten (!placed.contains ·)
    (!(df.fresh placed b).contains ·)
  have hrest : (df.toList.flatten.filter (!(df.fresh placed b).contains ·)).countP
      (!placed.contains ·) =
        df.toList.flatten.countP (!(placed ++ df.fresh placed b).contains ·) := by
    rw [List.countP_filter]
    refine List.countP_congr fun x _ => ?_
    simp
  have hfound : (df.fresh placed b).length ≤
      (df.toList.flatten.filter fun x => !!(df.fresh placed b).contains x).countP
        (!placed.contains ·) := by
    rw [List.countP_eq_length_filter]
    refine nodup_fresh.length_le_of_subset fun x hx => ?_
    obtain ⟨hb, hplaced⟩ := mem_fresh.mp hx
    simp only [List.mem_filter, Bool.not_not, List.contains_iff_mem]
    exact ⟨⟨mem_flatten_of_mem_getD hb, hx⟩, by simpa using hplaced⟩
  omega

/-- The work on a list, given the nodes that were ever on it and those found so far: node after node
is taken off, and once the list is empty some nodes have been found. -/
inductive Sweeps (df : Frontiers) : (work queued placed found : List Nat) → Prop
  | done : Sweeps df [] queued placed placed
  | step : next = (df.fresh placed b).filter (!queued.contains ·) →
    Sweeps df (next.reverse ++ work) (next ++ queued) (placed ++ df.fresh placed b) found →
    Sweeps df (b :: work) queued placed found

theorem iterateAux_sweeps
    (hfuel : work.length + df.toList.flatten.countP (!placed.contains ·) < fuel) :
    Sweeps df work queued placed (iterateAux df fuel work queued placed) := by
  induction fuel generalizing work queued placed with
  | zero => omega
  | succ fuel ih =>
    cases work with
    | nil => exact .done
    | cons y work =>
      refine .step rfl (ih ?_)
      have hcount := countP_fresh df placed y
      have hlen := List.length_filter_le (!queued.contains ·) (df.fresh placed y)
      simp only [List.length_append, List.length_reverse, List.length_cons] at hfuel ⊢
      omega

namespace Sweeps

section

variable (h : Sweeps df work queued placed found)

include h

/-- When the list is empty, all frontiers of what was ever on it are found. -/
theorem closed (hqueued : ∀ x ∈ queued, x ∈ work ∨ ∀ b ∈ df.getD x [], b ∈ placed)
    (hplaced : ∀ x ∈ placed, x ∈ queued) (hx : x ∈ queued ∨ x ∈ found) :
    ∀ b ∈ df.getD x [], b ∈ found := by
  induction h with
  | done =>
    intro b hb
    exact (hqueued x (hx.elim id (hplaced x))).resolve_left (by simp) b hb
  | @step next placed y work queued found hnext _ ih =>
    refine ih (fun z hz => ?_) (fun z hz => ?_) (hx.imp_left (List.mem_append_right _))
    · rcases List.mem_append.mp hz with hz | hz
      · exact .inl (List.mem_append_left _ (List.mem_reverse.mpr hz))
      · rcases hqueued z hz with hw | hdone
        · rcases List.mem_cons.mp hw with rfl | hw
          · refine .inr fun b hb => List.mem_append.mpr ?_
            exact Classical.or_iff_not_imp_left.mpr fun hbp => mem_fresh.mpr ⟨hb, hbp⟩
          · exact .inl (List.mem_append_right _ hw)
        · exact .inr fun b hb => List.mem_append_left _ (hdone b hb)
    · by_cases hq : z ∈ queued
      · exact List.mem_append_right _ hq
      · have hz := (List.mem_append.mp hz).resolve_left fun h => hq (hplaced z h)
        exact List.mem_append_left _ (by simp [hnext, hz, hq])

/-- Nothing is found outside a set that holds the frontiers of its own nodes and of those on the
list. -/
theorem least {S : Nat → Prop}
    (hS : ∀ x, S x → ∀ b ∈ df.getD x [], S b) (hwork : ∀ x ∈ work, ∀ b ∈ df.getD x [], S b)
    (hplaced : ∀ b ∈ placed, S b) : ∀ b ∈ found, S b := by
  induction h with
  | done => exact hplaced
  | @step next placed y _ _ _ hnext _ ih =>
    obtain ⟨hy, hwork⟩ := List.forall_mem_cons.mp hwork
    have hfresh : ∀ x ∈ df.fresh placed y, S x := fun x hx => hy x (mem_fresh.mp hx).1
    refine ih (fun x hx => ?_) fun x hx => ?_
    · rw [hnext, List.mem_append, List.mem_reverse] at hx
      exact hx.elim (fun hx => hS x (hfresh x (List.mem_filter.mp hx).1)) (hwork x)
    · exact (List.mem_append.mp hx).elim (hplaced x) (hfresh x)

theorem nodup (hplaced : placed.Nodup) : found.Nodup := by
  induction h with
  | done => exact hplaced
  | step _ _ ih =>
    refine ih (List.nodup_append.mpr ⟨hplaced, nodup_fresh, ?_⟩)
    rintro b hb _ hfresh rfl
    exact (mem_fresh.mp hfresh).2 hb

end

end Sweeps

theorem iteratedFrontier_sweeps (df : Frontiers) (defs : List Nat) :
    Sweeps df defs.reverse defs [] (iteratedFrontier df defs) := by
  refine iterateAux_sweeps ?_
  have hle := List.countP_le_length (p := (!([] : List Nat).contains ·)) (l := df.toList.flatten)
  rw [List.length_flatten, List.sum_eq_foldr] at hle
  rw [List.length_reverse]
  omega

/-- The iterated frontier holds the frontiers of the nodes it is made for and of its own. -/
theorem iteratedFrontier_closed (df : Frontiers) (defs : List Nat)
    (hx : x ∈ defs ∨ x ∈ iteratedFrontier df defs) (hb : b ∈ df.getD x []) :
    b ∈ iteratedFrontier df defs :=
  (iteratedFrontier_sweeps df defs).closed (fun _ hx => .inl (List.mem_reverse.mpr hx)) (by simp)
    hx b hb

/-- Nothing smaller holds the frontiers of some nodes and of its own. -/
theorem iteratedFrontier_least {S : Nat → Prop}
    (hS : ∀ x, x ∈ defs ∨ S x → ∀ b ∈ df.getD x [], S b) (h : b ∈ iteratedFrontier df defs) : S b :=
  (iteratedFrontier_sweeps df defs).least (fun x hx => hS x (.inr hx))
    (fun x hx => hS x (.inl (List.mem_reverse.mp hx))) (by simp) b h

theorem nodup_iteratedFrontier (df : Frontiers) (defs : List Nat) :
    (iteratedFrontier df defs).Nodup :=
  (iteratedFrontier_sweeps df defs).nodup .nil

/-- The work for the iterated frontier of some nodes comes to an end, and what it has found then,
each node once, is the least set that holds the frontiers of those nodes and of its own. -/
theorem iteratedFrontier_isLeast (df : Frontiers) (defs : List Nat) :
    Sweeps df defs.reverse defs [] (iteratedFrontier df defs) ∧
    (iteratedFrontier df defs).Nodup ∧
    IsLeast {S : Set Nat | ∀ x, x ∈ defs ∨ x ∈ S → ∀ b ∈ df.getD x [], b ∈ S}
      {b | b ∈ iteratedFrontier df defs} := by
  refine ⟨iteratedFrontier_sweeps df defs, nodup_iteratedFrontier df defs, ?_, fun S hS b hb => ?_⟩
  · intro x hx b hb
    exact iteratedFrontier_closed df defs hx hb
  · exact iteratedFrontier_least hS hb

/-- The order inside the frontiers makes no difference to what is found. -/
theorem iteratedFrontier_perm
    (h : ∀ x b, b ∈ df.getD x [] ↔ b ∈ df'.getD x []) (defs : List Nat) :
    (iteratedFrontier df defs).Perm (iteratedFrontier df' defs) := by
  have hsub {df df' : Frontiers} (h : ∀ x b, b ∈ df.getD x [] ↔ b ∈ df'.getD x []) :
      iteratedFrontier df defs ⊆ iteratedFrontier df' defs := fun b =>
    iteratedFrontier_least fun x hx b hb => iteratedFrontier_closed df' defs hx ((h x b).mp hb)
  refine (List.perm_ext_iff_of_nodup (nodup_iteratedFrontier ..) (nodup_iteratedFrontier ..)).mpr ?_
  exact fun b => ⟨fun hb => hsub h hb, fun hb => hsub (fun x b => (h x b).symm) hb⟩

/-- Definitions meet only at a node that an edge from a reachable node enters. -/
theorem exists_edge_of_mem_iteratedFrontier {g : Graph} (hg : g.Closed)
    (h0 : 0 < g.size) (h : b ∈ iteratedFrontier (g.frontiers g.domTree) defs) :
    ∃ p, g.Reachable p ∧ b ∈ g.succs p := by
  refine iteratedFrontier_least (S := fun b => ∃ p, g.Reachable p ∧ b ∈ g.succs p) ?_ h
  intro a _ b hb
  obtain ⟨p, hp, he, -⟩ := Graph.edge_of_mem_frontiers hg h0 hb
  exact ⟨p, hp, he⟩

end BasicSSA.IL
