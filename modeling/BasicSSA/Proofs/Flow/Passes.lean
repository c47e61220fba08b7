import BasicSSA.Proofs.Flow.Ascent
import Mathlib.Algebra.BigOperators.Group.List.Lemmas
import Mathlib.Algebra.Order.BigOperators.Group.List
import Mathlib.Algebra.Order.Group.Nat
import Mathlib.Data.Nat.Cast.Basic

/-!
# Passes over a flow graph

When a pass comes to a node, the nodes before it in reverse post-order have their new parents and the
others still have their old ones. From one pass to the next each node only moves up the tree
(`Pass.above`), so the positions of the parents shrink until a pass changes nothing
(`settle_start`). Then the nodes above a node are its dominators (`Settled.above_iff`).
-/

namespace BasicSSA.IL.Graph

open Parents (Above)

variable {g : Graph} {u : Parents}

/-- A pass comes to its end: each of some nodes moves to where the ways from those of its
predecessors meet that have a place. -/
inductive Walks (g : Graph) (order : List Nat) : List Nat → Parents → Parents → Prop where
  | done : Walks g order [] t t
  | move : (g.preds b).filter t.isPlaced = p :: ps → t.MeetsAll order ps p d →
    Walks g order bs (t.setIfInBounds b (some d)) t' → Walks g order (b :: bs) t t'

/-- The passes come to an end with one that changes nothing. -/
inductive Settles (g : Graph) (order : List Nat) : Parents → Parents → Prop where
  | done : g.Walks order order.tail t t → Settles g order t t
  | again : g.Walks order order.tail t t' → t' ≠ t → Settles g order t' r → Settles g order t r

/-- The parent of a node is above each predecessor that stands before the node. -/
def Descends (g : Graph) (t : Parents) : Prop :=
  ∀ b d q, t.parent? b = some d → b ∈ g.succs q → g.position q < g.position b → t.Above d q

/-- A pass from one tree to another moves a node to where the ways from its predecessors meet. -/
def Moves (g : Graph) (s s' : Parents) (b : Nat) : Prop :=
  ∃ w d, g.Sketch w ∧
    (∀ x, w.parent? x = if g.position x < g.position b then s'.parent? x else s.parent? x) ∧
    g.Joins w b d ∧ s'.parent? b = some d

/-- What a pass does. -/
structure Pass (g : Graph) (s s' : Parents) : Prop where
  sketch : g.Sketch s'
  moves : ∀ b, g.Reachable b → b ≠ 0 → g.Moves s s' b

/-- The ways up from earlier nodes are the same in trees where earlier nodes have the same parents. -/
theorem Sketch.above_congr (h : g.Sketch t)
    (hsame : ∀ x, g.position x < k → u.parent? x = t.parent? x) (ha : t.Above a b)
    (hb : g.position b < k) : u.Above a b := by
  induction ha with
  | refl => exact .refl
  | @up b c hc _ ih => exact .up ((hsame b hb).trans hc) (ih (Nat.lt_trans (h.earlier hc) hb))

/-! ### One pass -/

theorem position_lt_iff (hl : g.reversePostOrder.Nodup) (h : g.reversePostOrder = l ++ b :: l') :
    g.position x < g.position b ↔ x ∈ l := by
  rw [h] at hl
  obtain ⟨-, -, hdisj⟩ := List.nodup_append.mp hl
  have hb : b ∉ l := fun hb => hdisj b hb b List.mem_cons_self rfl
  have hpos : g.position b = l.length := by
    rw [position, h, List.idxOf_append_of_notMem hb, List.idxOf_cons_self, Nat.add_zero]
  rw [hpos, position, h]
  constructor
  · intro hlt
    refine Classical.byContradiction fun hx => ?_
    rw [List.idxOf_append_of_notMem hx] at hlt
    omega
  · intro hx
    rw [List.idxOf_append_of_mem hx]
    exact List.idxOf_lt_length_of_mem hx

section

variable (hg : g.Closed) (h0 : 0 < g.size)

include hg h0

theorem foldl_move (hsteps : 2 * g.size ≤ steps) (horder : g.reversePostOrder = 0 :: (l₁ ++ l₂))
    (hu : g.Sketch u) (hplaced : ∀ x ∈ l₁, u.isPlaced x = true) :
    ∃ r, l₂.foldl (g.move g.reversePostOrder steps) u = r ∧ g.Sketch r ∧
      g.Walks g.reversePostOrder l₂ u r ∧ (∀ x ∉ l₂, r.parent? x = u.parent? x) ∧
      (∀ b ∈ l₂, g.Moves u r b) ∧
      ∀ steps', 2 * g.size ≤ steps' → l₂.foldl (g.move g.reversePostOrder steps') u = r := by
  induction l₂ generalizing l₁ u with
  | nil => exact ⟨u, rfl, hu, .done, fun _ _ => rfl, by simp, fun _ _ => rfl⟩
  | cons b l₂ ih =>
    have hnodup := nodup_reversePostOrder hg h0
    have hbefore (x : Nat) : g.position x < g.position b ↔ x ∈ 0 :: l₁ :=
      position_lt_iff (l := 0 :: l₁) hnodup horder
    have hparts : (0 :: (l₁ ++ b :: l₂)).Nodup := horder ▸ hnodup
    have hb : g.Reachable b := by
      rw [← mem_reversePostOrder hg h0, horder]
      simp
    have hne : b ≠ 0 := by
      rintro rfl
      simp at hparts
    obtain ⟨q, -, hqb, hlt⟩ := exists_earlier_pred hg h0 hb hne
    have hq : u.isPlaced q = true := by
      rcases List.mem_cons.mp ((hbefore q).mp hlt) with rfl | hq
      · exact Parents.isPlaced_iff.mpr (.inl rfl)
      · exact hplaced q hq
    obtain ⟨d, hjoin, hu', hparent⟩ := hu.move hg h0 hsteps hb hne hqb hq hlt
    have hplaced' : ∀ x ∈ l₁ ++ [b], (g.move g.reversePostOrder steps u b).isPlaced x = true := by
      intro x hx
      rw [Parents.isPlaced_iff, hparent]
      rcases List.mem_append.mp hx with hx | hx
      · by_cases hxb : x = b
        · exact .inr ⟨d, if_pos hxb⟩
        · rw [if_neg hxb]
          exact Parents.isPlaced_iff.mp (hplaced x hx)
      · exact .inr ⟨d, if_pos (List.mem_singleton.mp hx)⟩
    obtain ⟨r, hr, hsketch, hwalk, hkeep, hmoves, heq⟩ := ih (by simpa using horder) hu' hplaced'
    have hwalk : g.Walks g.reversePostOrder (b :: l₂) u r := by
      obtain ⟨e, he, -, p, ps, hpreds, hmeets⟩ := hu.meetPreds hg h0 hsteps hqb hq
      rw [Graph.move, he] at hwalk
      exact .move hpreds hmeets hwalk
    have hbl : b ∉ l₂ := by
      rintro hbl
      simp [List.nodup_append, hbl] at hparts
    refine ⟨r, hr, hsketch, hwalk, fun x hx => ?_, fun c hc => ?_, fun steps' hsteps' => ?_⟩
    · obtain ⟨hxb, hx⟩ := not_or.mp (mt List.mem_cons.mpr hx)
      rw [hkeep x hx, hparent, if_neg hxb]
    · rcases List.mem_cons.mp hc with rfl | hcl
      · refine ⟨u, d, hu, fun x => ?_, hjoin, ?_⟩
        · split
          · rename_i hx
            have hx := (hbefore x).mp hx
            have hxc : x ≠ c := by
              rintro rfl
              simp_all
            have hxl : x ∉ l₂ := by
              intro hxl
              rcases List.mem_cons.mp hx with rfl | hx
              · simp [hxl] at hparts
              · simp [List.nodup_append] at hparts
                exact (hparts.2.2.2 x hx).2 x hxl rfl
            rw [hkeep x hxl, hparent, if_neg hxc]
          · rfl
        · rw [hkeep c hbl, hparent, if_pos rfl]
      · obtain ⟨w, e, hw, hwparent, hwjoin, he⟩ := hmoves c hcl
        refine ⟨w, e, hw, fun x => ?_, hwjoin, he⟩
        rw [hwparent]
        split
        · rfl
        · rename_i hx
          rw [hparent, if_neg]
          rintro rfl
          apply hx
          refine idxOf_lt_of_sublist hnodup ?_
          rw [horder]
          exact .cons _ ((List.Sublist.cons_cons x (List.singleton_sublist.mpr hcl)).trans
            (List.sublist_append_right l₁ (x :: l₂)))
    · rw [List.foldl_cons, hu.move_eq hg h0 hsteps' hsteps hqb hq]
      exact heq steps' hsteps'

/-- A pass over all nodes. The bound for the steps up the tree does not matter if it is large
enough. -/
theorem Sketch.pass (h : g.Sketch t) (hsteps : 2 * g.size ≤ steps) :
    g.Pass t (g.pass g.reversePostOrder steps t) ∧
      g.Walks g.reversePostOrder g.reversePostOrder.tail t (g.pass g.reversePostOrder steps t) ∧
      ∀ steps', 2 * g.size ≤ steps' →
        g.pass g.reversePostOrder steps' t = g.pass g.reversePostOrder steps t := by
  obtain ⟨rest, horder⟩ := reversePostOrder_eq_cons h0
  have hpass (steps : Nat) : g.pass g.reversePostOrder steps t =
      rest.foldl (g.move g.reversePostOrder steps) t := by
    rw [Graph.pass, show g.reversePostOrder.tail = rest by rw [horder, List.tail_cons]]
  have hall : g.reversePostOrder = 0 :: ([] ++ rest) := horder
  obtain ⟨r, hr, hsketch, hwalk, -, hmoves, heq⟩ := foldl_move hg h0 hsteps hall h (by simp)
  rw [hpass, hr]
  refine ⟨⟨hsketch, fun b hb hne => hmoves b ?_⟩, by rwa [horder] at hwalk ⊢,
    fun steps' hsteps' => ?_⟩
  · have hmem := (mem_reversePostOrder hg h0).mpr hb
    rw [horder] at hmem
    exact (List.mem_cons.mp hmem).resolve_left hne
  · rw [hpass]
    exact heq steps' hsteps'

namespace Pass

omit hg h0 in
theorem placed (h : g.Pass s s') (hb : g.Reachable b) : s'.isPlaced b = true := by
  rw [Parents.isPlaced_iff]
  by_cases hne : b = 0
  · exact .inl hne
  · obtain ⟨w, d, -, -, -, hd⟩ := h.moves b hb hne
    exact .inr ⟨d, hd⟩

omit hg h0 in
/-- The ways from earlier nodes are the new ones when a pass comes to a node. -/
theorem above_iff (h : g.Pass s s') (hw : g.Sketch w)
    (hwparent : ∀ x, w.parent? x =
      if g.position x < g.position b then s'.parent? x else s.parent? x)
    (hq : g.position q < g.position b) : w.Above a q ↔ s'.Above a q := by
  have hsame (x : Nat) (hx : g.position x < g.position b) : w.parent? x = s'.parent? x := by
    rw [hwparent, if_pos hx]
  exact ⟨fun ha => hw.above_congr (fun x hx => (hsame x hx).symm) ha hq,
    fun ha => h.sketch.above_congr hsame ha hq⟩

theorem descends (h : g.Pass s s') : g.Descends s' := by
  intro b d q hd hqb hlt
  obtain ⟨w, e, hw, hwparent, hjoin, he⟩ := h.moves b (h.sketch.reachable hd) (h.sketch.ne_entry hd)
  cases hd.symm.trans he
  have hq : w.isPlaced q = true := by
    rw [Parents.isPlaced_iff, hwparent, if_pos hlt]
    exact Parents.isPlaced_iff.mp (h.placed (reachable_of_position_lt hg h0 hlt))
  exact (h.above_iff hw hwparent hlt).mp (hjoin.above q hqb hq)

end Pass

/-! ### Two passes -/

/-- If a node on the new way from some node does not stand behind a node on the old way, then it is
on the new way from that node as well. -/
theorem above_of_descends (hs : g.Sketch s) (hdesc : g.Descends s)
    (hdesc' : g.Descends s') (ha : s.Above a b) (hz : s'.Above z b)
    (hle : g.position z ≤ g.position a) : s'.Above z a := by
  induction hn : g.position b using Nat.strongRecOn generalizing b with
  | _ n ih =>
    subst hn
    by_cases hab : a = b
    · exact hab ▸ hz
    obtain ⟨c, hc, hac⟩ := ha.of_ne hab
    have hlt : g.position a < g.position b := Nat.lt_of_le_of_lt (hs.position_le hac) (hs.earlier hc)
    have hzb : z ≠ b := by
      rintro rfl
      exact absurd hle (Nat.not_le.mpr hlt)
    obtain ⟨e, he, hze⟩ := hz.of_ne hzb
    obtain ⟨q, -, hqb, hq⟩ := exists_earlier_pred hg h0 (hs.reachable hc) (hs.ne_entry hc)
    exact ih _ hq (hac.trans (hdesc b c q hc hqb hq)) (hze.trans (hdesc' b e q he hqb hq)) rfl

/-- If one pass moves nodes up the tree only, then so does the next. -/
theorem Pass.above (h : g.Pass s s') (h' : g.Pass s' s'') (hs : g.Sketch s) (hdesc : g.Descends s)
    (hup : ∀ a b, s.isPlaced b = true → s'.Above a b → s.Above a b) (ha : s''.Above a b) :
    s'.Above a b := by
  induction hn : g.position b using Nat.strongRecOn generalizing a b with
  | _ n ih =>
    subst hn
    by_cases hab : a = b
    · exact hab ▸ .refl
    obtain ⟨d'', hd'', had⟩ := ha.of_ne hab
    have hlt := h'.sketch.earlier hd''
    have had' : s'.Above a d'' := ih _ hlt had rfl
    obtain ⟨w', e', hw', hwparent', hjoin', he'⟩ :=
      h'.moves b (h'.sketch.reachable hd'') (h'.sketch.ne_entry hd'')
    cases hd''.symm.trans he'
    obtain ⟨w, d, hw, hwparent, hjoin, hd⟩ :=
      h.moves b (h'.sketch.reachable hd'') (h'.sketch.ne_entry hd'')
    -- The way from any node when the second pass comes to `b` was on the way after the first pass.
    have hmixed {z p : Nat} (hz : w'.Above z p) : s'.Above z p := by
      induction hz with
      | refl => exact .refl
      | @up p c hc hz ihz =>
        by_cases hp : g.position p < g.position b
        · exact ih _ hp ((h'.above_iff hw' hwparent' hp).mp (.up hc hz)) rfl
        · rw [hwparent', if_neg hp] at hc
          exact .up hc ihz
    -- The node `d''` is on the ways from all predecessors, so it is above the parent in `s'`.
    have hlast : w.Above d'' d := by
      apply hjoin.last
      intro p hpb hp
      have hpr := hw.reachable_of_placed hp
      have hp' : w'.isPlaced p = true := by
        rw [Parents.isPlaced_iff, hwparent']
        split
        · exact Parents.isPlaced_iff.mp (h'.placed hpr)
        · exact Parents.isPlaced_iff.mp (h.placed hpr)
      have hz : s'.Above d'' p := hmixed (hjoin'.above p hpb hp')
      by_cases hpos : g.position p < g.position b
      · exact (h.above_iff hw hwparent hpos).mpr hz
      have hps : s.isPlaced p = true := by
        rw [Parents.isPlaced_iff, hwparent, if_neg hpos] at hp
        exact Parents.isPlaced_iff.mpr hp
      -- Go up from `p` along the old tree until the first node that stands before `b`.
      have hclimb {c : Nat} (hzc : s.Above d'' c) (hcp : s.Above c p) : w.Above d'' c := by
        induction hzc with
        | refl => exact .refl
        | @up c e he hze ihz =>
          by_cases hc : g.position c < g.position b
          · refine (h.above_iff hw hwparent hc).mpr ?_
            exact above_of_descends hg h0 hs hdesc (h.descends hg h0) hcp hz
              (hs.position_le (.up he hze))
          · have he' : w.parent? c = some e := by rw [hwparent, if_neg hc, he]
            exact .up he' (ihz (Above.trans (.up he .refl) hcp))
      exact hclimb (hup d'' p hps hz) .refl
    exact had'.trans (.up hd ((h.above_iff hw hwparent (h.sketch.earlier hd)).mp hlast))

/-! ### The passes end -/

/-- Two trees such that a pass leads from the first to the second and moves nodes up only. -/
structure Progress (g : Graph) (s t : Parents) : Prop where
  sketch : g.Sketch s
  descends : g.Descends s
  pass : g.Pass s t
  up : ∀ a b, s.isPlaced b = true → t.Above a b → s.Above a b

/-- The sum of the positions of all parents. -/
def weight (g : Graph) (t : Parents) : Nat :=
  ((List.range g.size).map fun b => g.position ((t.parent? b).getD 0)).sum

omit hg h0 in
theorem Sketch.eq_of_parent? (h : g.Sketch s) (h' : g.Sketch t)
    (hparent : ∀ b, s.parent? b = t.parent? b) : s = t := by
  refine Array.ext (h.size.trans h'.size.symm) fun b hs ht => ?_
  have hb := hparent b
  rwa [Parents.parent?, Parents.parent?, Array.getElem?_eq_getElem hs, Array.getElem?_eq_getElem ht,
    Option.join_some, Option.join_some] at hb

theorem weight_le (h : g.Sketch t) : g.weight t ≤ g.size * g.size := by
  have hall : ∀ n ∈ (List.range g.size).map fun b => g.position ((t.parent? b).getD 0),
      n ≤ g.size := by
    rw [List.forall_mem_map]
    intro b _
    cases hd : t.parent? b with
    | none => exact Nat.le_of_lt (position_lt_size hg h0 .entry)
    | some d =>
      exact Nat.le_of_lt (position_lt_size hg h0 (h.reachable_of_placed (h.placed hd)))
  simpa [weight] using List.sum_le_card_nsmul _ _ hall

namespace Progress

section

variable (h : g.Progress s t)

include h

theorem next (hsteps : 2 * g.size ≤ steps) :
    g.Progress t (g.pass g.reversePostOrder steps t) where
  sketch := h.pass.sketch
  descends := h.pass.descends hg h0
  pass := (h.pass.sketch.pass hg h0 hsteps).1
  up _ _ _ ha := h.pass.above hg h0 (h.pass.sketch.pass hg h0 hsteps).1 h.sketch h.descends h.up ha

/-- The parents of a node after a pass that is not the first, and before it. -/
theorem parent_le (hs : ∀ b, g.Reachable b → s.isPlaced b = true) (b : Nat) :
    g.position ((t.parent? b).getD 0) ≤ g.position ((s.parent? b).getD 0) ∧
      (g.position ((t.parent? b).getD 0) = g.position ((s.parent? b).getD 0) →
        t.parent? b = s.parent? b) := by
  have ht := h.pass.sketch
  cases hd : t.parent? b with
  | none =>
    have hb : s.parent? b = none := by
      cases he : s.parent? b with
      | none => rfl
      | some e =>
        have hplaced := h.pass.placed (h.sketch.reachable he)
        rcases Parents.isPlaced_iff.mp hplaced with rfl | ⟨d, hd'⟩
        · exact absurd rfl (h.sketch.ne_entry he)
        · cases hd.symm.trans hd'
    rw [hb]
    exact ⟨Nat.le_refl _, fun _ => rfl⟩
  | some d =>
    have hdb : d ≠ b := by
      rintro rfl
      exact Nat.lt_irrefl _ (ht.earlier hd)
    obtain ⟨e, he, hde⟩ := (h.up d b (hs b (ht.reachable hd)) (.up hd .refl)).of_ne hdb
    rw [he, Option.getD_some, Option.getD_some]
    refine ⟨h.sketch.position_le hde, fun heq => ?_⟩
    rw [position_inj hg h0 (ht.reachable_of_placed (ht.placed hd)) heq]

theorem weight_lt (hs : ∀ b, g.Reachable b → s.isPlaced b = true)
    (hne : t ≠ s) : g.weight t < g.weight s := by
  have hle := h.parent_le hg h0 hs
  obtain ⟨b, hb⟩ : ∃ b, t.parent? b ≠ s.parent? b := by
    refine Classical.byContradiction fun hall => hne ?_
    exact h.pass.sketch.eq_of_parent? h.sketch (by simpa using hall)
  have hlt := Nat.lt_of_le_of_ne (hle b).1 (mt (hle b).2 hb)
  have hsize : b < g.size := by
    refine Nat.lt_of_not_le fun hb' => hb ?_
    have hnone {u : Parents} (hu : g.Sketch u) : u.parent? b = none := by
      rw [Parents.parent?, Array.getElem?_eq_none (hu.size ▸ hb')]
      rfl
    rw [hnone h.pass.sketch, hnone h.sketch]
  exact List.sum_lt_sum _ _ (fun c _ => (hle c).1) ⟨b, List.mem_range.mpr hsize, hlt⟩

/-- The passes end with a tree that a further pass does not change, whatever the bounds are, if they
are large enough. -/
theorem settle (hsteps : 2 * g.size ≤ steps) (hpasses : g.weight t < passes) :
    ∃ r, (∃ s, g.Progress s r) ∧ g.pass g.reversePostOrder steps r = r ∧
      g.Settles g.reversePostOrder t r ∧
      ∀ steps' passes', 2 * g.size ≤ steps' → g.weight t < passes' →
        g.settle g.reversePostOrder steps' passes' t = r := by
  induction passes generalizing s t with
  | zero => cases hpasses
  | succ passes ih =>
    obtain ⟨-, hwalk, hsame⟩ := h.pass.sketch.pass hg h0 hsteps
    by_cases hfix : g.pass g.reversePostOrder steps t = t
    · refine ⟨t, ⟨s, h⟩, hfix, .done (by rwa [hfix] at hwalk),
        fun steps' passes' hsteps' hpasses' => ?_⟩
      obtain ⟨n, rfl⟩ := Nat.exists_eq_succ_of_ne_zero (Nat.ne_zero_of_lt hpasses')
      rw [Graph.settle, hsame steps' hsteps', if_pos hfix]
    · have hlt := (h.next hg h0 hsteps).weight_lt hg h0 (fun b hb => h.pass.placed hb) hfix
      obtain ⟨r, hr, hpass, hsettles, hall⟩ := ih (h.next hg h0 hsteps) (by omega)
      refine ⟨r, hr, hpass, .again hwalk hfix hsettles, fun steps' passes' hsteps' hpasses' => ?_⟩
      obtain ⟨n, rfl⟩ := Nat.exists_eq_succ_of_ne_zero (Nat.ne_zero_of_lt hpasses')
      rw [Graph.settle, hsame steps' hsteps', if_neg hfix]
      exact hall steps' n hsteps' (by omega)

end

end Progress

/-! ### From the start -/

omit hg h0 in
theorem parent?_start : Parents.parent? (Array.replicate g.size none) b = none := by
  rw [Parents.parent?, Array.getElem?_replicate]
  split <;> rfl

omit hg h0 in
theorem sketch_start : g.Sketch (Array.replicate g.size none) := by
  have hnone {b d : Nat} : Parents.parent? (Array.replicate g.size none) b ≠ some d := by
    rw [parent?_start]
    simp
  refine ⟨by simp, parent?_start, fun h => absurd h hnone, fun h => absurd h hnone,
    fun h => absurd h hnone, fun h => absurd h hnone, fun hb ha => ?_⟩
  rcases Parents.isPlaced_iff.mp hb with rfl | ⟨d, hd⟩
  · cases ha.eq_entry
    exact .refl
  · exact absurd hd hnone

theorem progress_start (hsteps : 2 * g.size ≤ steps) :
    g.Progress (Array.replicate g.size none)
      (g.pass g.reversePostOrder steps (Array.replicate g.size none)) := by
  have hpass := (sketch_start.pass hg h0 hsteps).1
  refine ⟨sketch_start, fun b d q hd => ?_, hpass, fun a b hb ha => ?_⟩
  · rw [parent?_start] at hd
    cases hd
  · rcases Parents.isPlaced_iff.mp hb with rfl | ⟨d, hd⟩
    · refine Classical.byContradiction fun hne => ?_
      obtain ⟨c, hc, -⟩ := ha.of_ne fun h => hne (h ▸ .refl)
      exact hpass.sketch.ne_entry hc rfl
    · rw [parent?_start] at hd
      cases hd

/-- The tree that the passes end with. -/
structure Settled (g : Graph) (t : Parents) : Prop where
  sketch : g.Sketch t
  placed : ∀ b, g.Reachable b → t.isPlaced b = true
  edges : ∀ p b d, g.Reachable p → b ∈ g.succs p → t.parent? b = some d → t.Above d p

theorem Progress.settled (h : g.Progress s t) (hsteps : 2 * g.size ≤ steps)
    (hfix : g.pass g.reversePostOrder steps t = t) : g.Settled t := by
  refine ⟨h.pass.sketch, fun b => h.pass.placed, fun p b d hp hpb hd => ?_⟩
  have hpass := (h.pass.sketch.pass hg h0 hsteps).1
  rw [hfix] at hpass
  obtain ⟨w, e, hw, hwparent, hjoin, he⟩ :=
    hpass.moves b (hpass.sketch.reachable hd) (hpass.sketch.ne_entry hd)
  cases hd.symm.trans he
  have hsame (x : Nat) : w.parent? x = t.parent? x := by rw [hwparent, ite_self]
  have hplaced : w.isPlaced p = true := by
    rw [Parents.isPlaced_iff, hsame]
    exact Parents.isPlaced_iff.mp (h.pass.placed hp)
  exact hw.above_congr (fun x _ => (hsame x).symm) (hjoin.above p hpb hplaced) (Nat.lt_succ_self _)

omit hg h0 in
/-- The nodes above a node are its dominators. -/
theorem Settled.above_iff (h : g.Settled t) (hb : g.Reachable b) :
    t.Above a b ↔ g.Dominates a b := by
  refine ⟨fun ha p hp => ?_, h.sketch.dominators (h.placed b hb)⟩
  induction p generalizing b with
  | nil =>
    cases hp
    refine Classical.byContradiction fun hne => ?_
    obtain ⟨c, hc, -⟩ := ha.of_ne fun h => hne (by simp [h])
    exact h.sketch.ne_entry hc rfl
  | cons q p ih =>
    cases hp with
    | step hp hqb =>
      by_cases hab : a = b
      · exact hab ▸ List.mem_cons_self
      obtain ⟨d, hd, had⟩ := ha.of_ne hab
      have hq : g.Reachable q := ⟨p, hp⟩
      exact List.mem_cons_of_mem b (ih hq (had.trans (h.edges q b d hq hqb hd)) hp)

/-- The passes from the start end with the same tree for all bounds that are large enough. -/
theorem settle_start : ∃ r, g.Settled r ∧
    g.Settles g.reversePostOrder (Array.replicate g.size none) r ∧
    ∀ steps passes, 2 * g.size ≤ steps → g.size * g.size + 2 ≤ passes →
      g.settle g.reversePostOrder steps passes (Array.replicate g.size none) = r ∧
        g.pass g.reversePostOrder steps r = r := by
  have hprogress := progress_start hg h0 (Nat.le_refl (2 * g.size))
  obtain ⟨-, hwalk, hsame⟩ := sketch_start.pass hg h0 (Nat.le_refl (2 * g.size))
  generalize g.pass g.reversePostOrder (2 * g.size) (Array.replicate g.size none) = t
    at hprogress hwalk hsame
  obtain ⟨r, ⟨s, hr⟩, hfix, hsettles, hall⟩ :=
    hprogress.settle hg h0 (Nat.le_refl _) (Nat.lt_succ_of_le (weight_le hg h0 hprogress.pass.sketch))
  have hsettled := hr.settled hg h0 (Nat.le_refl _) hfix
  have hsettles : g.Settles g.reversePostOrder (Array.replicate g.size none) r := by
    by_cases hstart : t = Array.replicate g.size none
    · exact hstart ▸ hsettles
    · exact .again hwalk hstart hsettles
  refine ⟨r, hsettled, hsettles, fun steps passes hsteps hpasses => ⟨?_, ?_⟩⟩
  · obtain ⟨n, rfl⟩ : ∃ n, passes = n + 1 := ⟨passes - 1, by omega⟩
    have hweight := weight_le hg h0 hprogress.pass.sketch
    rw [settle, hsame steps hsteps]
    split
    · rename_i hstart
      subst hstart
      have hr := hall steps (n + 1) hsteps (by omega)
      rwa [settle, hsame steps hsteps, if_pos rfl] at hr
    · exact hall steps n hsteps (by omega)
  · rw [(hsettled.sketch.pass hg h0 (Nat.le_refl _)).2.2 steps hsteps, hfix]

end

end BasicSSA.IL.Graph
