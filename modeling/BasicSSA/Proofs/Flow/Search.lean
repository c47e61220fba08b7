import BasicSSA.Proofs.Flow.Run
import Mathlib.Data.List.Basic

/-!
# Depth-first search

What a walk from some nodes adds to the nodes that a search has seen and left: all nodes that runs
reach without passing what was seen before, each once, and along some run to a node the nodes come
in the order of the run. So the search finds exactly the reachable nodes (`mem_reversePostOrder`), a
strict dominator comes before its node (`Dominates.position_lt`), and so does some node that leads to
it (`exists_earlier_pred`). Every edge goes forwards, loops apart (`position_lt_of_edge`).
-/

namespace BasicSSA.IL.Graph

open List (mem_cons_self mem_cons mem_append mem_singleton)

variable {g : Graph}

/-- A walk from some nodes takes a search from one state to another and adds some nodes. -/
structure Extends (g : Graph) (w : Walk) (starts new : List Nat) (w' : Walk) : Prop where
  left : w'.left = new ++ w.left
  seen : ∀ x, x ∈ w'.seen ↔ x ∈ w.seen ∨ x ∈ new
  found : ∀ s ∈ starts, s ∈ w'.seen
  fresh : ∀ x ∈ new, x ∉ w.seen
  nodup : new.Nodup
  closed : ∀ x ∈ new, ∀ y ∈ g.succs x, y ∈ w'.seen
  runs : ∀ b ∈ new, ∃ s ∈ starts, ∃ p, g.Run s (b :: p) ∧ ∀ a ∈ p, List.Sublist [a, b] new
  /-- An edge that no run leads back over goes forwards. -/
  edges : ∀ a ∈ new, ∀ b ∈ new, b ∈ g.succs a → (∀ p, ¬g.Run b (a :: p)) → List.Sublist [a, b] new

namespace Extends

theorem nil (g : Graph) (w : Walk) : g.Extends w [] [] w where
  left := rfl
  seen := by simp
  found := by simp
  fresh := by simp
  nodup := List.nodup_nil
  closed := by simp
  runs := by simp
  edges := by simp

/-- A node that was seen adds nothing. -/
theorem of_seen (h : n ∈ w.seen) : g.Extends w [n] [] w where
  left := rfl
  seen := by simp
  found := by simpa using h
  fresh := by simp
  nodup := List.nodup_nil
  closed := by simp
  runs := by simp
  edges := by simp

theorem cons (h₁ : g.Extends w [s] n₁ w₁) (h₂ : g.Extends w₁ ss n₂ w₂) :
    g.Extends w (s :: ss) (n₂ ++ n₁) w₂ where
  left := by rw [h₂.left, h₁.left, List.append_assoc]
  seen x := by rw [h₂.seen, h₁.seen, mem_append, or_assoc, @or_comm (x ∈ n₁)]
  found x hx := by
    rcases mem_cons.mp hx with rfl | hx
    · exact (h₂.seen x).mpr (.inl (h₁.found x mem_cons_self))
    · exact h₂.found x hx
  fresh x hx hw := by
    rcases mem_append.mp hx with hx | hx
    · exact h₂.fresh x hx ((h₁.seen x).mpr (.inl hw))
    · exact h₁.fresh x hx hw
  nodup := by
    refine List.nodup_append.mpr ⟨h₂.nodup, h₁.nodup, ?_⟩
    rintro x hx _ hy rfl
    exact h₂.fresh x hx ((h₁.seen x).mpr (.inr hy))
  closed x hx y hy := by
    rcases mem_append.mp hx with hx | hx
    · exact h₂.closed x hx y hy
    · exact (h₂.seen y).mpr (.inl (h₁.closed x hx y hy))
  runs b hb := by
    rcases mem_append.mp hb with hb | hb
    · obtain ⟨s', hs, p, hp, hbefore⟩ := h₂.runs b hb
      exact ⟨s', List.mem_cons_of_mem _ hs, p, hp, fun a ha =>
        (hbefore a ha).trans (List.sublist_append_left ..)⟩
    · obtain ⟨s', hs, p, hp, hbefore⟩ := h₁.runs b hb
      refine ⟨s', ?_, p, hp, fun a ha => (hbefore a ha).trans (List.sublist_append_right ..)⟩
      rw [mem_singleton.mp hs]
      exact mem_cons_self
  edges a ha b hb he hback := by
    rcases mem_append.mp ha with ha | ha <;> rcases mem_append.mp hb with hb | hb
    · exact (h₂.edges a ha b hb he hback).trans (List.sublist_append_left ..)
    · exact (List.singleton_sublist.mpr ha).append (List.singleton_sublist.mpr hb)
    · exact absurd (h₁.closed a ha b he) (h₂.fresh b hb)
    · exact (h₁.edges a ha b hb he hback).trans (List.sublist_append_right ..)

/-- A node that was not seen is added in front of what its successors add. -/
theorem visit_new (hn : n ∉ w.seen)
    (h : g.Extends { w with seen := n :: w.seen } (g.succs n) new w₁) :
    g.Extends w [n] (n :: new) { w₁ with left := n :: w₁.left } where
  left := by simp [h.left]
  seen x := by simp only [h.seen, mem_cons, or_assoc, or_left_comm]
  found x hx := by
    rw [mem_singleton.mp hx]
    exact (h.seen n).mpr (.inl mem_cons_self)
  fresh x hx := by
    rcases mem_cons.mp hx with rfl | hx
    · exact hn
    · exact fun hw => h.fresh x hx (List.mem_cons_of_mem _ hw)
  nodup := List.nodup_cons.mpr ⟨fun hx => h.fresh n hx mem_cons_self, h.nodup⟩
  closed x hx y hy := by
    rcases mem_cons.mp hx with rfl | hx
    · exact h.found y hy
    · exact h.closed x hx y hy
  runs b hb := by
    rcases mem_cons.mp hb with rfl | hb
    · exact ⟨b, mem_cons_self, [], .start, by simp⟩
    · obtain ⟨s, hs, p, hp, hbefore⟩ := h.runs b hb
      refine ⟨n, mem_cons_self, p ++ [n], hp.from_pred hs, fun a ha => ?_⟩
      rcases mem_append.mp ha with ha | ha
      · exact (hbefore a ha).cons n
      · rw [mem_singleton.mp ha]
        exact (List.singleton_sublist.mpr hb).cons_cons n
  edges a ha b hb he hback := by
    rcases mem_cons.mp ha with rfl | ha' <;> rcases mem_cons.mp hb with rfl | hb'
    · exact absurd .start (hback [])
    · exact (List.singleton_sublist.mpr hb').cons_cons a
    · obtain ⟨s, hs, p, hp, -⟩ := h.runs a ha'
      exact absurd (hp.from_pred hs) (hback _)
    · exact (h.edges a ha' b hb' he hback).cons n

theorem run_new (h : g.Extends w starts new w₁) (hb : b ∈ new) :
    ∃ s ∈ starts, ∃ p, g.Run s (b :: p) ∧ ∀ a ∈ b :: p, a ∈ new := by
  obtain ⟨s, hs, p, hp, hbefore⟩ := h.runs b hb
  refine ⟨s, hs, p, hp, fun a ha => ?_⟩
  rcases mem_cons.mp ha with rfl | ha
  · exact hb
  · exact (hbefore a ha).subset mem_cons_self

/-- A run from a start that passes nothing seen before visits new nodes only. -/
theorem mem_new (h : g.Extends w starts new w₁) (hs : s ∈ starts) (hp : g.Run s p)
    (hw : ∀ x ∈ p, x ∉ w.seen) : ∀ x ∈ p, x ∈ new := by
  induction hp with
  | start =>
    intro x hx
    cases mem_singleton.mp hx
    exact ((h.seen _).mp (h.found _ hs)).resolve_left (hw _ hx)
  | step hp hb ih =>
    intro x hx
    have ih := ih fun x hx => hw x (List.mem_cons_of_mem _ hx)
    rcases mem_cons.mp hx with rfl | hx'
    · have := h.closed _ (ih _ mem_cons_self) _ hb
      exact ((h.seen _).mp this).resolve_left (hw _ hx)
    · exact ih x hx'

end Extends

/-! ### The search has fuel enough -/

/-- How many nodes a search has not seen. -/
def unseen (g : Graph) (w : Walk) : Nat :=
  (List.range g.size).countP (!w.seen.contains ·)

theorem unseen_mono (h : ∀ x ∈ w.seen, x ∈ w₁.seen) : g.unseen w₁ ≤ g.unseen w := by
  refine List.countP_mono_left fun x _ hx => ?_
  simp only [Bool.not_eq_true', List.contains_eq_mem, decide_eq_false_iff_not] at hx ⊢
  exact fun hw => hx (h x hw)

/-- Seeing one more node leaves fewer. -/
theorem unseen_cons (hn : n < g.size) (hs : n ∉ w.seen) :
    g.unseen { w with seen := n :: w.seen } < g.unseen w := by
  have hsplit := List.countP_eq_countP_filter_add (List.range g.size) (!w.seen.contains ·)
    fun x => x ≠ n
  have hone : 0 < ((List.range g.size).filter fun x => !decide (x ≠ n)).countP
      (!w.seen.contains ·) :=
    List.countP_pos_iff.mpr ⟨n, by simpa using hn, by simpa using hs⟩
  have heq : ((List.range g.size).filter fun x => x ≠ n).countP (!w.seen.contains ·) =
      g.unseen { w with seen := n :: w.seen } := by
    rw [List.countP_filter, unseen]
    refine List.countP_congr fun x _ => ?_
    simp [and_comm]
  unfold unseen at heq ⊢
  omega

/-- A walk through some nodes, where one through each of them adds what it should. -/
theorem foldl_extends
    (hstep : ∀ w n, n < g.size → g.unseen w < fuel → ∃ new, g.Extends w [n] new (step w n)) :
    ∀ (ns : List Nat) (w : Walk), (∀ n ∈ ns, n < g.size) → g.unseen w < fuel →
      ∃ new, g.Extends w ns new (ns.foldl step w)
  | [], w, _, _ => ⟨[], .nil g w⟩
  | n :: ns, w, hns, hw => by
    obtain ⟨n₁, h₁⟩ := hstep w n (hns n mem_cons_self) hw
    have hw₁ : g.unseen (step w n) < fuel :=
      Nat.lt_of_le_of_lt (unseen_mono fun x hx => (h₁.seen x).mpr (.inl hx)) hw
    obtain ⟨n₂, h₂⟩ := foldl_extends hstep ns (step w n)
      (fun x hx => hns x (List.mem_cons_of_mem _ hx)) hw₁
    exact ⟨n₂ ++ n₁, h₁.cons h₂⟩

theorem visit_extends (hg : g.Closed) (fuel : Nat) (w : Walk) (n : Nat) (hn : n < g.size)
    (hw : g.unseen w < fuel) : ∃ new, g.Extends w [n] new (g.visit fuel w n) := by
  induction fuel generalizing w n with
  | zero => omega
  | succ fuel ih =>
    rw [visit]
    by_cases hs : n ∈ w.seen
    · rw [if_pos (by simpa using hs)]
      exact ⟨[], .of_seen hs⟩
    · rw [if_neg (by simpa using hs)]
      have hw' := unseen_cons hn hs
      obtain ⟨new, h⟩ := foldl_extends ih (g.succs n) { w with seen := n :: w.seen }
        (fun x hx => hg n x hx) (by omega)
      exact ⟨n :: new, h.visit_new hs⟩

/-! ### What the search finds -/

section

variable (hg : g.Closed) (h0 : 0 < g.size)

include hg h0

theorem reversePostOrder_extends :
    ∃ w', g.Extends {} [0] g.reversePostOrder w' := by
  have hfuel : g.unseen {} < g.size + 1 := by
    have := List.countP_le_length (p := (!([] : List Nat).contains ·)) (l := List.range g.size)
    simp only [List.length_range] at this
    exact Nat.lt_succ_of_le this
  obtain ⟨new, h⟩ := visit_extends hg (g.size + 1) {} 0 h0 hfuel
  have hnew : g.reversePostOrder = new := by
    rw [reversePostOrder, if_neg (by omega), h.left, List.append_nil]
  exact ⟨_, hnew ▸ h⟩

theorem mem_reversePostOrder :
    b ∈ g.reversePostOrder ↔ g.Reachable b := by
  obtain ⟨w', h⟩ := reversePostOrder_extends hg h0
  constructor
  · intro hb
    obtain ⟨s, hs, p, hp, -⟩ := h.run_new hb
    cases mem_singleton.mp hs
    exact ⟨p, hp⟩
  · rintro ⟨p, hp⟩
    exact h.mem_new mem_cons_self hp (by simp) b mem_cons_self

theorem nodup_reversePostOrder : g.reversePostOrder.Nodup :=
  let ⟨_, h⟩ := reversePostOrder_extends hg h0
  h.nodup

theorem length_reversePostOrder_le :
    g.reversePostOrder.length ≤ g.size := by
  have hsub : g.reversePostOrder ⊆ List.range g.size := fun x hx =>
    List.mem_range.mpr (((mem_reversePostOrder hg h0).mp hx).lt_size hg h0)
  simpa using (nodup_reversePostOrder hg h0).length_le_of_subset hsub

end

theorem reversePostOrder_eq_cons (h0 : 0 < g.size) :
    ∃ rest, g.reversePostOrder = 0 :: rest := by
  refine ⟨((g.succs 0).foldl (g.visit g.size) { seen := [0] }).left, ?_⟩
  rw [reversePostOrder, if_neg (by omega), visit, if_neg (by simp)]

/-! ### Positions -/

/-- In a list without repetitions the earlier of two elements has the smaller position. -/
theorem idxOf_lt_of_sublist {l : List Nat} (hl : l.Nodup) (h : List.Sublist [a, b] l) :
    l.idxOf a < l.idxOf b := by
  induction l with
  | nil => cases h
  | cons c l ih =>
    obtain ⟨hc, hl⟩ := List.nodup_cons.mp hl
    cases h with
    | cons _ h =>
      have ha : c ≠ a := fun e => hc (e ▸ h.subset mem_cons_self)
      have hb : c ≠ b := fun e => hc (e ▸ h.subset (List.mem_cons_of_mem _ mem_cons_self))
      simpa [List.idxOf_cons, beq_false_of_ne ha, beq_false_of_ne hb] using ih hl h
    | cons_cons _ h =>
      have hb : a ≠ b := fun e => hc (e ▸ h.subset mem_cons_self)
      simp [List.idxOf_cons, beq_false_of_ne hb]

/-- The position of a node in reverse post-order. -/
def position (g : Graph) (b : Nat) : Nat :=
  g.reversePostOrder.idxOf b

theorem position_lt_size (hg : g.Closed) (h0 : 0 < g.size) (hb : g.Reachable b) :
    g.position b < g.size :=
  Nat.lt_of_lt_of_le (List.idxOf_lt_length_of_mem ((mem_reversePostOrder hg h0).mpr hb))
    (length_reversePostOrder_le hg h0)

theorem position_entry (h0 : 0 < g.size) : g.position 0 = 0 := by
  obtain ⟨rest, h⟩ := reversePostOrder_eq_cons h0
  rw [position, h, List.idxOf_cons_self]

section

variable (hg : g.Closed) (h0 : 0 < g.size)

include hg h0

theorem position_inj (ha : g.Reachable a)
    (h : g.position a = g.position b) : a = b :=
  (List.idxOf_inj ((mem_reversePostOrder hg h0).mpr ha)).mp h

/-- Nodes that are not reachable stand behind all that are. -/
theorem reachable_of_position_lt (h : g.position a < g.position b) : g.Reachable a := by
  rw [← mem_reversePostOrder hg h0, ← List.idxOf_lt_length_iff]
  exact Nat.lt_of_lt_of_le h List.idxOf_le_length

theorem Dominates.position_lt (h : g.Dominates a b)
    (hne : a ≠ b) (hb : g.Reachable b) : g.position a < g.position b := by
  obtain ⟨w', hw⟩ := reversePostOrder_extends hg h0
  obtain ⟨s, hs, p, hp, hbefore⟩ := hw.runs b ((mem_reversePostOrder hg h0).mpr hb)
  cases mem_singleton.mp hs
  exact idxOf_lt_of_sublist hw.nodup (hbefore a ((mem_cons.mp (h p hp)).resolve_left hne))

/-- A reachable node other than the entry comes after some node that leads to it. -/
theorem exists_earlier_pred (hb : g.Reachable b) (hne : b ≠ 0) :
    ∃ q, g.Reachable q ∧ b ∈ g.succs q ∧ g.position q < g.position b := by
  obtain ⟨w', hw⟩ := reversePostOrder_extends hg h0
  obtain ⟨s, hs, p, hp, hbefore⟩ := hw.runs b ((mem_reversePostOrder hg h0).mpr hb)
  cases mem_singleton.mp hs
  cases hp with
  | start => exact absurd rfl hne
  | @step q p _ hp he =>
    exact ⟨q, ⟨p, hp⟩, he, idxOf_lt_of_sublist hw.nodup (hbefore q mem_cons_self)⟩

/-- A reachable node comes before those it leads to, unless some run leads back. -/
theorem position_lt_of_edge (ha : g.Reachable a)
    (he : b ∈ g.succs a) (hback : ∀ p, ¬g.Run b (a :: p)) : g.position a < g.position b := by
  obtain ⟨w', hw⟩ := reversePostOrder_extends hg h0
  have hmem {x : Nat} (hx : g.Reachable x) := (mem_reversePostOrder hg h0).mpr hx
  exact idxOf_lt_of_sublist hw.nodup (hw.edges a (hmem ha) b (hmem (ha.step he)) he hback)

end

end BasicSSA.IL.Graph
