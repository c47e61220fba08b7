import BasicSSA.Flow.Graph

/-!
# Runs of a flow graph

A run follows edges. It is written as the list of the nodes it visits, last one first, so that the
runs before it are the tails of the list. Dominance is stated over the runs from the entry: the
dominators of a reachable node form a chain (`Dominates.total`).
-/

namespace BasicSSA.IL.Graph

variable {g : Graph}

/-- A run from a node, with the nodes it visits, last one first. -/
inductive Run (g : Graph) (s : Nat) : List Nat → Prop where
  | start : Run g s [s]
  | step : Run g s (a :: p) → b ∈ g.succs a → Run g s (b :: a :: p)

/-- Edges lead to nodes of the graph. -/
def Closed (g : Graph) : Prop :=
  ∀ a, ∀ b ∈ g.succs a, b < g.size

/-- Some run from the entry ends at a node. -/
def Reachable (g : Graph) (b : Nat) : Prop :=
  ∃ p, g.Run 0 (b :: p)

/-- Every run from the entry to a node passes another one. -/
def Dominates (g : Graph) (a b : Nat) : Prop :=
  ∀ p, g.Run 0 (b :: p) → a ∈ b :: p

theorem mem_preds : p ∈ g.preds b ↔ b ∈ g.succs p := by
  simp only [preds, List.mem_filter, List.mem_range, List.contains_eq_mem, decide_eq_true_eq,
    and_iff_right_iff_imp]
  intro hb
  refine Nat.lt_of_not_le fun hp => ?_
  rw [succs, Array.getD_eq_getD_getElem?, Array.getElem?_eq_none hp] at hb
  cases hb

namespace Run

theorem before (h : g.Run s (q ++ a :: p)) : g.Run s (a :: p) := by
  induction q with
  | nil => exact h
  | cons b q ih =>
    cases q with
    | nil => cases h with | step h _ => exact h
    | cons c q => cases h with | step h _ => exact ih h

/-- What a run does after a node, it may also do after another run to that node. -/
theorem splice (h : g.Run s (q ++ a :: p)) (h' : g.Run s' (a :: p')) :
    g.Run s' (q ++ a :: p') := by
  induction q with
  | nil => exact h'
  | cons b q ih =>
    cases q with
    | nil => cases h with | step _ hb => exact .step h' hb
    | cons c q => cases h with | step h hb => exact .step (ih h) hb

theorem exists_append (h : g.Run s p) : ∃ q, p = q ++ [s] := by
  induction h with
  | start => exact ⟨[], rfl⟩
  | @step _ _ b _ _ ih =>
    obtain ⟨q, hq⟩ := ih
    exact ⟨b :: q, congrArg (b :: ·) hq⟩

theorem from_pred (h : g.Run s p) (hs : s ∈ g.succs n) : g.Run n (p ++ [n]) := by
  induction h with
  | start => exact .step .start hs
  | step _ hb ih => exact .step ih hb

theorem lt_size (hg : g.Closed) (hs : s < g.size) (h : g.Run s (b :: p)) : b < g.size := by
  cases h with
  | start => exact hs
  | step _ hb => exact hg _ _ hb

/-- A run to a node passes each node of its own list on the way. -/
theorem split_at (h : g.Run s p) (ha : a ∈ p) :
    ∃ q p', p = q ++ a :: p' ∧ a ∉ q ∧ g.Run s (a :: p') := by
  obtain ⟨q, p', rfl, hq⟩ := List.eq_append_cons_of_mem ha
  exact ⟨q, p', rfl, hq, h.before⟩

end Run

namespace Reachable

theorem entry : g.Reachable 0 := ⟨[], .start⟩

theorem step (h : g.Reachable a) (hb : b ∈ g.succs a) : g.Reachable b :=
  let ⟨p, hp⟩ := h
  ⟨a :: p, hp.step hb⟩

theorem of_mem (h : g.Run 0 p) (ha : a ∈ p) : g.Reachable a :=
  let ⟨_, p', _, _, h'⟩ := h.split_at ha
  ⟨p', h'⟩

theorem lt_size (hg : g.Closed) (h0 : 0 < g.size) (h : g.Reachable b) : b < g.size :=
  let ⟨_, hp⟩ := h
  hp.lt_size hg h0

/-- A reachable node other than the entry comes after another reachable node. -/
theorem pred (h : g.Reachable b) (hb : b ≠ 0) :
    ∃ a, g.Reachable a ∧ b ∈ g.succs a ∧ a ≠ b := by
  obtain ⟨p, hp⟩ := h
  induction p with
  | nil => cases hp; exact absurd rfl hb
  | cons a p ih =>
    cases hp with
    | step hp he =>
      by_cases hab : a = b
      · exact ih (hab ▸ hp)
      · exact ⟨a, ⟨p, hp⟩, he, hab⟩

end Reachable

namespace Dominates

theorem refl (g : Graph) (a : Nat) : g.Dominates a a := fun _ _ => List.mem_cons_self

theorem trans (h : g.Dominates a b) (h' : g.Dominates b c) : g.Dominates a c := by
  intro p hp
  obtain ⟨q, p', he, _, hb⟩ := hp.split_at (h' p hp)
  rw [he]
  exact List.mem_append_right _ (h p' hb)

theorem reachable (h : g.Dominates a b) (hb : g.Reachable b) : g.Reachable a :=
  let ⟨p, hp⟩ := hb
  .of_mem hp (h p hp)

theorem eq_entry (h : g.Dominates a 0) : a = 0 := by
  simpa using h [] .start

/-- What dominates a node other than the node itself, dominates all that leads to it. -/
theorem of_succ (h : g.Dominates a b) (hne : a ≠ b) (hb : b ∈ g.succs p) : g.Dominates a p := by
  intro q hq
  exact (List.mem_cons.mp (h _ (hq.step hb))).resolve_left hne

/-- What dominates all reachable nodes before a node other than the entry, dominates the node. -/
theorem of_preds (hb : b ≠ 0) (h : ∀ p, g.Reachable p → b ∈ g.succs p → g.Dominates a p) :
    g.Dominates a b := by
  intro q hq
  cases hq with
  | start => exact absurd rfl hb
  | step hp hs => exact List.mem_cons_of_mem _ (h _ ⟨_, hp⟩ hs _ hp)

theorem antisymm (hb : g.Reachable b) (h : g.Dominates a b) (h' : g.Dominates b a) : a = b := by
  -- a shortest run to `b` would have a shorter one to `b` inside it
  obtain ⟨p, hp⟩ := hb
  induction hn : p.length using Nat.strongRecOn generalizing p with
  | _ n ih =>
    subst hn
    by_cases hab : a = b
    · exact hab
    obtain ⟨q, p', he, _, ha⟩ := hp.split_at (h p hp)
    obtain ⟨q', p'', he', _, hb⟩ := ha.split_at (h' p' ha)
    refine ih p''.length ?_ p'' hb rfl
    have hlen := congrArg List.length he
    have hlen' := congrArg List.length he'
    simp only [List.length_cons, List.length_append] at hlen hlen'
    have hq : q ≠ [] := by
      rintro rfl
      simp only [List.nil_append, List.cons.injEq] at he
      exact hab he.1.symm
    have := List.length_pos_iff.mpr hq
    omega

/-- A run to a node passes the dominators of the node also if it starts differently. -/
theorem mem_splice (h : g.Dominates a b) (hw : g.Run 0 (b :: w)) (he : b :: w = q ++ x :: w')
    (hr : g.Run 0 (x :: r)) : a ∈ q ++ x :: r := by
  rw [he] at hw
  have hrun := hw.splice hr
  cases q with
  | nil =>
    obtain ⟨rfl, -⟩ := List.cons.inj he
    exact h r hr
  | cons c q =>
    obtain ⟨rfl, -⟩ := List.cons.inj he
    exact h _ hrun

/-- Of two dominators of a reachable node, one dominates the other. -/
theorem total (hb : g.Reachable b) (h : g.Dominates a b) (h' : g.Dominates d b) :
    g.Dominates a d ∨ g.Dominates d a := by
  refine Classical.or_iff_not_imp_left.mpr fun had p hp => ?_
  refine Classical.byContradiction fun hd => ?_
  obtain ⟨r, hr, har⟩ : ∃ r, g.Run 0 (d :: r) ∧ a ∉ d :: r := by
    simpa [Dominates] using had
  -- cut a run to `b` at its last visit to `a`; what follows either passes `d` or not
  obtain ⟨w, hw⟩ := hb
  obtain ⟨q, w', he, haq, -⟩ := hw.split_at (h w hw)
  by_cases hdq : d ∈ q
  · obtain ⟨q₁, q₂, rfl, -⟩ := List.eq_append_cons_of_mem hdq
    rw [List.append_assoc, List.cons_append] at he
    exact absurd (h.mem_splice hw he hr) (by grind)
  · exact absurd (h'.mem_splice hw he hp) (by grind)

end Dominates

end BasicSSA.IL.Graph
