import BasicSSA.Flow.Dominance
import BasicSSA.Proofs.Flow.Search

/-!
# Ways up a tree

While the dominator tree is built, each node that has a place can be reached from its parent without
passing what stands before the parent, and the dominators of a node are on its way up (`Sketch`).
Moving a node keeps this (`Sketch.move`): a node below the moved one can still be reached from it, so
a dominator that is no longer above the moved node would not dominate the node below either.
-/

namespace BasicSSA.IL

namespace Parents

variable {t t' : Parents}

/-- The ways from two nodes up the tree meet at a node. As long as the two differ, the one that
stands later in the order goes up. -/
inductive Meets (t : Parents) (order : List Nat) : Nat → Nat → Nat → Prop where
  | met : Meets t order a a a
  | first : a ≠ b → order.idxOf b < order.idxOf a → t.parent? a = some c → Meets t order c b d →
    Meets t order a b d
  | second : a ≠ b → ¬order.idxOf b < order.idxOf a → t.parent? b = some c → Meets t order a c d →
    Meets t order a b d

/-- The ways from some nodes, one after the other, meet the way from another node. -/
inductive MeetsAll (t : Parents) (order : List Nat) : List Nat → Nat → Nat → Prop where
  | nil : MeetsAll t order [] d d
  | cons : t.Meets order p d e → MeetsAll t order ps e r → MeetsAll t order (p :: ps) d r

/-- A node is on the way from another one up the tree. -/
inductive Above (t : Parents) (a : Nat) : Nat → Prop where
  | refl : Above t a a
  | up : t.parent? b = some c → Above t a c → Above t a b

namespace Above

theorem trans (h : t.Above a b) (h' : t.Above b c) : t.Above a c := by
  induction h' with
  | refl => exact h
  | up hc _ ih => exact .up hc ih

theorem of_ne (h : t.Above a b) (hne : a ≠ b) : ∃ c, t.parent? b = some c ∧ t.Above a c := by
  cases h with
  | refl => exact absurd rfl hne
  | up hc h => exact ⟨_, hc, h⟩

/-- If only one node has moved, then what was above another node still is, or was above the one that
has moved, and that one is still above the other. -/
theorem moved (hsame : ∀ x, x ≠ b → t'.parent? x = t.parent? x) (h : t.Above a x) :
    t'.Above a x ∨ t.Above a b ∧ t.Above b x ∧ t'.Above b x := by
  induction h with
  | refl => exact .inl .refl
  | @up x c hc h ih =>
    by_cases hx : x = b
    · subst hx
      exact .inr ⟨.up hc h, .refl, .refl⟩
    · have hc' := (hsame x hx).trans hc
      rcases ih with ih | ⟨ha, hb, hb'⟩
      · exact .inl (.up hc' ih)
      · exact .inr ⟨ha, .up hc hb, .up hc' hb'⟩

end Above

theorem isPlaced_iff : t.isPlaced b = true ↔ b = 0 ∨ ∃ d, t.parent? b = some d := by
  simp [isPlaced, Option.isSome_iff_exists]

theorem parent?_set (hb : b < t.size) :
    parent? (t.setIfInBounds b (some d)) x = if x = b then some d else t.parent? x := by
  rw [parent?, Array.getElem?_setIfInBounds]
  by_cases hx : x = b
  · subst hx
    rw [if_pos rfl, if_pos hb, if_pos rfl]
    rfl
  · rw [if_neg (Ne.symm hx), if_neg hx]
    rfl

end Parents

namespace Graph

open Parents (Above)

variable {g : Graph} {t : Parents}

/-- A tree of reachable nodes. A node can be reached from its parent without passing what stands
before the parent, and its dominators are on its way up. -/
structure Sketch (g : Graph) (t : Parents) : Prop where
  size : t.size = g.size
  entry : t.parent? 0 = none
  reachable : t.parent? b = some d → g.Reachable b
  placed : t.parent? b = some d → t.isPlaced d = true
  earlier : t.parent? b = some d → g.position d < g.position b
  run : t.parent? b = some d →
    ∃ p, g.Run d (b :: p) ∧ ∀ x ∈ b :: p, g.position d ≤ g.position x
  dominators : t.isPlaced b = true → g.Dominates a b → t.Above a b

/-- A node is the last one on the ways from all placed predecessors of another node. -/
structure Joins (g : Graph) (t : Parents) (b d : Nat) : Prop where
  above : ∀ p, b ∈ g.succs p → t.isPlaced p = true → t.Above d p
  last : ∀ x, (∀ p, b ∈ g.succs p → t.isPlaced p = true → t.Above x p) → t.Above x d

namespace Sketch

section

variable (h : g.Sketch t)

include h

theorem ne_entry (hb : t.parent? b = some d) : b ≠ 0 := by
  rintro rfl
  rw [h.entry] at hb
  cases hb

theorem reachable_of_placed (hb : t.isPlaced b = true) : g.Reachable b := by
  rcases Parents.isPlaced_iff.mp hb with rfl | ⟨d, hd⟩
  · exact .entry
  · exact h.reachable hd

theorem placed_above (hb : t.isPlaced b = true) (ha : t.Above a b) :
    t.isPlaced a = true := by
  induction ha with
  | refl => exact hb
  | up hc _ ih => exact ih (h.placed hc)

theorem position_le (ha : t.Above a b) : g.position a ≤ g.position b := by
  induction ha with
  | refl => exact Nat.le_refl _
  | up hc _ ih => exact Nat.le_trans ih (Nat.le_of_lt (h.earlier hc))

/-- A node can be reached from each node above it without passing what stands before that one. -/
theorem run_above (ha : t.Above a b) :
    ∃ p, g.Run a (b :: p) ∧ ∀ x ∈ b :: p, g.position a ≤ g.position x := by
  induction ha with
  | refl => exact ⟨[], .start, by simp⟩
  | @up b c hc ha ih =>
    obtain ⟨p, hp, hpa⟩ := ih
    obtain ⟨q, hq, hqc⟩ := h.run hc
    obtain ⟨l, hl⟩ := hq.exists_append
    rw [hl] at hq hqc
    have hrun := hq.splice hp
    have hle := h.position_le ha
    obtain ⟨r, hr⟩ : ∃ r, l ++ c :: p = b :: r := by
      cases l with
      | nil =>
        obtain ⟨rfl, -⟩ := List.cons.inj hl
        exact ⟨p, rfl⟩
      | cons x l =>
        obtain ⟨rfl, -⟩ := List.cons.inj hl
        exact ⟨l ++ c :: p, rfl⟩
    refine ⟨r, hr ▸ hrun, hr ▸ fun x hx => ?_⟩
    rcases List.mem_append.mp hx with hx | hx
    · exact Nat.le_trans hle (hqc x (List.mem_append_left _ hx))
    · exact hpa x hx

/-- What dominates a node dominates the nodes above it that it does not stand before. -/
theorem dominates_above (hb : t.Above b x) (ha : g.Dominates a x)
    (hlt : g.position a < g.position b) : g.Dominates a b := by
  intro p hp
  obtain ⟨q, hq, hpos⟩ := h.run_above hb
  obtain ⟨l, hl⟩ := hq.exists_append
  rw [hl] at hq hpos
  have hmem : a ∈ l ++ b :: p := by
    have hrun := hq.splice hp
    cases l with
    | nil =>
      obtain ⟨rfl, -⟩ := List.cons.inj hl
      exact ha p hp
    | cons y l =>
      obtain ⟨rfl, -⟩ := List.cons.inj hl
      exact ha _ hrun
  refine (List.mem_append.mp hmem).resolve_left fun hmem => ?_
  exact absurd (hpos a (List.mem_append_left _ hmem)) (Nat.not_le.mpr hlt)

end

section

variable (hg : g.Closed) (h0 : 0 < g.size)

include hg h0

theorem above_antisymm (h : g.Sketch t) (hb : t.isPlaced b = true) (hab : t.Above a b)
    (hba : t.Above b a) : a = b :=
  position_inj hg h0 (h.reachable_of_placed (h.placed_above hb hab))
    (Nat.le_antisymm (h.position_le hab) (h.position_le hba))

theorem joins_unique (h : g.Sketch t) (hq : b ∈ g.succs q) (hplaced : t.isPlaced q = true)
    (hd : g.Joins t b d) (hd' : g.Joins t b d') : d = d' :=
  h.above_antisymm hg h0 (h.placed_above hplaced (hd'.above q hq hplaced)) (hd'.last d hd.above)
    (hd.last d' hd'.above)

omit hg h0 in
theorem meet_succ : t.meet g.reversePostOrder (steps + 1) a b =
    if a = b then a
    else if g.position b < g.position a then
      t.meet g.reversePostOrder steps ((t.parent? a).getD 0) b
    else t.meet g.reversePostOrder steps a ((t.parent? b).getD 0) :=
  rfl

/-- The ways from two nodes meet at the last node that is on both. -/
theorem meet (h : g.Sketch t) (ha : t.isPlaced a = true) (hb : t.isPlaced b = true)
    (hsteps : g.position a + g.position b ≤ steps) :
    t.Meets g.reversePostOrder a b (t.meet g.reversePostOrder steps a b) ∧
      t.Above (t.meet g.reversePostOrder steps a b) a ∧
      t.Above (t.meet g.reversePostOrder steps a b) b ∧
      ∀ x, t.Above x a → t.Above x b → t.Above x (t.meet g.reversePostOrder steps a b) := by
  have hra := h.reachable_of_placed ha
  induction steps generalizing a b with
  | zero =>
    have hab : a = b := position_inj hg h0 hra (by omega)
    subst hab
    exact ⟨.met, .refl, .refl, fun _ hx _ => hx⟩
  | succ steps ih =>
    have hup {c : Nat} (hc : t.isPlaced c = true) (hpos : 0 < g.position c) :
        ∃ e, t.parent? c = some e := by
      refine (Parents.isPlaced_iff.mp hc).resolve_left ?_
      rintro rfl
      rw [position_entry h0] at hpos
      exact Nat.lt_irrefl 0 hpos
    rw [meet_succ]
    by_cases hab : a = b
    · subst hab
      rw [if_pos rfl]
      exact ⟨.met, .refl, .refl, fun _ hx _ => hx⟩
    rw [if_neg hab]
    by_cases hlt : g.position b < g.position a
    · obtain ⟨c, hc⟩ := hup ha (Nat.zero_lt_of_lt hlt)
      have hpos := h.earlier hc
      have hplaced := h.placed hc
      rw [if_pos hlt, hc, Option.getD_some]
      obtain ⟨hmeets, hma, hmb, hlast⟩ := ih hplaced hb (by omega) (h.reachable_of_placed hplaced)
      refine ⟨.first hab hlt hc hmeets, .up hc hma, hmb, fun x hxa hxb => hlast x ?_ hxb⟩
      obtain ⟨e, he, hx⟩ := hxa.of_ne fun hx => by
        subst hx
        exact absurd (h.position_le hxb) (Nat.not_le.mpr hlt)
      cases hc.symm.trans he
      exact hx
    · have hlt' : g.position a < g.position b := by
        have hne : g.position a ≠ g.position b := fun he => hab (position_inj hg h0 hra he)
        omega
      obtain ⟨c, hc⟩ := hup hb (Nat.zero_lt_of_lt hlt')
      have hpos := h.earlier hc
      rw [if_neg hlt, hc, Option.getD_some]
      obtain ⟨hmeets, hma, hmb, hlast⟩ := ih ha (h.placed hc) (by omega) hra
      refine ⟨.second hab hlt hc hmeets, hma, .up hc hmb, fun x hxa hxb => hlast x hxa ?_⟩
      obtain ⟨e, he, hx⟩ := hxb.of_ne fun hx => by
        subst hx
        exact absurd (h.position_le hxa) (Nat.not_le.mpr hlt')
      cases hc.symm.trans he
      exact hx

section

variable (h : g.Sketch t) (hsteps : 2 * g.size ≤ steps)

include h hsteps

/-- The ways from the placed predecessors of a node meet at the last node that is on all of them. -/
theorem meetPreds (hq : b ∈ g.succs q)
    (hplaced : t.isPlaced q = true) :
    ∃ d, g.meetPreds? g.reversePostOrder steps t b = some d ∧ g.Joins t b d ∧
      ∃ p ps, (g.preds b).filter t.isPlaced = p :: ps ∧ t.MeetsAll g.reversePostOrder ps p d := by
  have hmem (p : Nat) : p ∈ (g.preds b).filter t.isPlaced ↔
      b ∈ g.succs p ∧ t.isPlaced p = true := by
    rw [List.mem_filter, mem_preds]
  have hpos {c : Nat} (hc : t.isPlaced c = true) : g.position c < g.size :=
    position_lt_size hg h0 (h.reachable_of_placed hc)
  -- The fold meets the ways one by one, so it holds the last node on the ways seen so far.
  have hfold (ps : List Nat) : ∀ d, (∀ p ∈ ps, t.isPlaced p = true) → t.isPlaced d = true →
      let r := ps.foldl (fun d p => t.meet g.reversePostOrder steps p d) d
      t.MeetsAll g.reversePostOrder ps d r ∧ t.Above r d ∧ (∀ p ∈ ps, t.Above r p) ∧
        ∀ x, t.Above x d → (∀ p ∈ ps, t.Above x p) → t.Above x r := by
    induction ps with
    | nil => exact fun d _ _ => ⟨.nil, .refl, by simp, fun x hx _ => hx⟩
    | cons p ps ih =>
      intro d hps hd
      obtain ⟨hp, hps⟩ := List.forall_mem_cons.mp hps
      have hbound : g.position p + g.position d ≤ steps := by
        have := hpos hp
        have := hpos hd
        omega
      obtain ⟨hmeets, hmp, hmd, hmlast⟩ := h.meet hg h0 hp hd hbound
      obtain ⟨hall, hrm, hrps, hrlast⟩ := ih _ hps (h.placed_above hd hmd)
      refine ⟨.cons hmeets hall, hrm.trans hmd, List.forall_mem_cons.mpr ⟨hrm.trans hmp, hrps⟩,
        fun x hxd hx => ?_⟩
      obtain ⟨hxp, hxps⟩ := List.forall_mem_cons.mp hx
      exact hrlast x (hmlast x hxp hxd) hxps
  rw [meetPreds?]
  cases hl : (g.preds b).filter t.isPlaced with
  | nil =>
    have := (hmem q).mpr ⟨hq, hplaced⟩
    rw [hl] at this
    cases this
  | cons p ps =>
    rw [hl] at hmem
    have hall (c : Nat) (hc : c ∈ p :: ps) : t.isPlaced c = true := ((hmem c).mp hc).2
    obtain ⟨hmeets, hrp, hrps, hlast⟩ := hfold ps p (fun c hc => hall c (List.mem_cons_of_mem p hc))
      (hall p List.mem_cons_self)
    refine ⟨_, rfl, ⟨fun c hc hcp => ?_, fun x hx => hlast x ?_ fun c hc => ?_⟩, p, ps, rfl, hmeets⟩
    · rcases List.mem_cons.mp ((hmem c).mpr ⟨hc, hcp⟩) with rfl | hc
      · exact hrp
      · exact hrps c hc
    · obtain ⟨he, hp⟩ := (hmem p).mp List.mem_cons_self
      exact hx p he hp
    · obtain ⟨he, hp⟩ := (hmem c).mp (List.mem_cons_of_mem p hc)
      exact hx c he hp

/-- The bound for the steps up the tree does not matter if it is large enough. -/
theorem move_eq (hsteps' : 2 * g.size ≤ steps')
    (hq : b ∈ g.succs q) (hplaced : t.isPlaced q = true) :
    g.move g.reversePostOrder steps t b = g.move g.reversePostOrder steps' t b := by
  obtain ⟨d, hd, hjoin, -⟩ := h.meetPreds hg h0 hsteps hq hplaced
  obtain ⟨d', hd', hjoin', -⟩ := h.meetPreds hg h0 hsteps' hq hplaced
  rw [Graph.move, Graph.move, hd, hd', h.joins_unique hg h0 hq hplaced hjoin hjoin']

/-- A node moves to where the ways from its predecessors meet, if one of them stands before it. -/
theorem move (hb : g.Reachable b) (hne : b ≠ 0)
    (hq : b ∈ g.succs q) (hplaced : t.isPlaced q = true) (hlt : g.position q < g.position b) :
    ∃ d, g.Joins t b d ∧ g.Sketch (g.move g.reversePostOrder steps t b) ∧
      ∀ x, (g.move g.reversePostOrder steps t b).parent? x =
        if x = b then some d else t.parent? x := by
  obtain ⟨d, hd, hjoin, -⟩ := h.meetPreds hg h0 hsteps hq hplaced
  have hbsize : b < t.size := h.size ▸ hb.lt_size hg h0
  obtain ⟨t', ht'⟩ : ∃ t' : Parents, t.setIfInBounds b (some d) = t' := ⟨_, rfl⟩
  have hmove : g.move g.reversePostOrder steps t b = t' := by
    rw [Graph.move, hd]
    exact ht'
  rw [hmove]
  have hparent (x : Nat) : t'.parent? x = if x = b then some d else t.parent? x :=
    ht' ▸ Parents.parent?_set hbsize
  have hself : t'.parent? b = some d := by rw [hparent, if_pos rfl]
  have hsame (x : Nat) (hx : x ≠ b) : t'.parent? x = t.parent? x := by rw [hparent, if_neg hx]
  have hdq := hjoin.above q hq hplaced
  have hdb : g.position d < g.position b := Nat.lt_of_le_of_lt (h.position_le hdq) hlt
  have hkept {x : Nat} (hx : t.isPlaced x = true) : t'.isPlaced x = true := by
    rw [Parents.isPlaced_iff] at hx ⊢
    by_cases hxb : x = b
    · exact .inr ⟨d, hxb ▸ hself⟩
    · rwa [hsame x hxb]
  have hdplaced : t'.isPlaced d = true := hkept (h.placed_above hplaced hdq)
  -- The new parent stands before the node, so the way up from it has not changed.
  have habove {x : Nat} (hx : t.Above x d) : t'.Above x d := by
    rcases hx.moved hsame with hx | ⟨-, hbd, -⟩
    · exact hx
    · exact absurd (h.position_le hbd) (Nat.not_le.mpr hdb)
  have hdom {a : Nat} (ha : g.Dominates a b) : t'.Above a b := by
    by_cases hab : a = b
    · exact hab ▸ .refl
    · refine .up hself (habove (hjoin.last a fun p hp hpp => ?_))
      exact h.dominators hpp (ha.of_succ hab hp)
  refine ⟨d, hjoin, ⟨?_, ?_, ?_, ?_, ?_, ?_, ?_⟩, hparent⟩
  · rw [← ht', Array.size_setIfInBounds, h.size]
  · rw [hsame 0 hne.symm, h.entry]
  · intro x e he
    by_cases hxb : x = b
    · exact hxb ▸ hb
    · exact h.reachable ((hsame x hxb).symm.trans he)
  · intro x e he
    by_cases hxb : x = b
    · subst hxb
      cases hself.symm.trans he
      exact hdplaced
    · exact hkept (h.placed ((hsame x hxb).symm.trans he))
  · intro x e he
    by_cases hxb : x = b
    · subst hxb
      cases hself.symm.trans he
      exact hdb
    · exact h.earlier ((hsame x hxb).symm.trans he)
  · intro x e he
    by_cases hxb : x = b
    · subst hxb
      cases hself.symm.trans he
      obtain ⟨p, hp, hpos⟩ := h.run_above hdq
      exact ⟨q :: p, hp.step hq, List.forall_mem_cons.mpr ⟨Nat.le_of_lt hdb, hpos⟩⟩
    · exact h.run ((hsame x hxb).symm.trans he)
  · intro x a hx ha
    by_cases hxb : x = b
    · exact hxb ▸ hdom (hxb ▸ ha)
    have hx : t.isPlaced x = true := by
      rw [Parents.isPlaced_iff] at hx ⊢
      rwa [hsame x hxb] at hx
    rcases (h.dominators hx ha).moved hsame with hax | ⟨hab, hbx, hbx'⟩
    · exact hax
    · by_cases hne : a = b
      · exact hne ▸ hbx'
      · obtain ⟨c, hc, hac⟩ := hab.of_ne hne
        have hlt := Nat.lt_of_le_of_lt (h.position_le hac) (h.earlier hc)
        exact (hdom (h.dominates_above hbx ha hlt)).trans hbx'

end

end

end Sketch

end Graph

end BasicSSA.IL
