import BasicSSA.Proofs.Flow.Frontier
import BasicSSA.Proofs.Phi.Versions

/-!
# Renaming along the dominator tree

The renaming visits every reachable block once. A block starts with the versions that its parent in
the tree ends with (`rename_block`), and no version is given twice in the function.
-/

namespace BasicSSA.IL

open IL.Graph
open List (mem_singleton mem_append mem_cons_self mem_append_left)

variable {f : Function} {g : Graph}

/-- What the renaming keeps of a block: its number, its new instructions and the versions at its
end. -/
abbrev Entry := Nat × List Instr × Versions

/-- Renaming the trees below some blocks, which start with the same versions, adds some entries. -/
structure Renames (f : Function) (g : Graph) (env : Versions) (roots : List Nat) (r : Renaming)
    (new : List Entry) (r' : Renaming) : Prop where
  done : r'.done = new ++ r.done
  below : ∀ e ∈ new, g.Reachable e.1 ∧ ∃ n ∈ roots, g.Dominates n e.1
  found : ∀ n ∈ roots, ∃ e ∈ new, e.1 = n
  nodup : (new.map (·.1)).Nodup
  closed : ∀ e ∈ new, ∀ c, g.ImmDominates e.1 c → ∃ e' ∈ new, e'.1 = c
  renamed : ∀ e ∈ new, ∃ start last, (renameInstrs start last (f.block e.1).instrs).1 = e.2.1 ∧
    (renameInstrs start last (f.block e.1).instrs).2.1 = e.2.2 ∧
      ((e.1 ∈ roots ∧ start = env) ∨ ∃ d ∈ new, g.ImmDominates d.1 e.1 ∧ start = d.2.2)
  last_le : ∀ x, r.last.of x ≤ r'.last.of x
  above : ∀ e ∈ new, ∀ x v, (x, v) ∈ definitions e.2.1 → r.last.of x < v ∧ v ≤ r'.last.of x
  distinct : ∀ e ∈ new, (definitions e.2.1).Nodup
  apart : ∀ e ∈ new, ∀ e' ∈ new, ∀ d ∈ definitions e.2.1, d ∈ definitions e'.2.1 → e = e'

namespace Renames

theorem nil (f : Function) (g : Graph) (env : Versions) (r : Renaming) :
    Renames f g env [] r [] r where
  done := rfl
  below := by simp
  found := by simp
  nodup := List.nodup_nil
  closed := by simp
  renamed := by simp
  last_le _ := Nat.le_refl _
  above := by simp
  distinct := by simp
  apart := by simp

/-- Trees with no block in common are renamed one after the other. -/
theorem cons (h₁ : Renames f g env [n] r new₁ r₁) (h₂ : Renames f g env ns r₁ new₂ r₂)
    (hdisj : ∀ b, g.Reachable b → g.Dominates n b → ∀ n' ∈ ns, ¬g.Dominates n' b) :
    Renames f g env (n :: ns) r (new₂ ++ new₁) r₂ where
  done := by rw [h₂.done, h₁.done, List.append_assoc]
  below e he := by
    rcases mem_append.mp he with he | he
    · obtain ⟨hr, n', hn', hd⟩ := h₂.below e he
      exact ⟨hr, n', List.mem_cons_of_mem _ hn', hd⟩
    · obtain ⟨hr, n', hn', hd⟩ := h₁.below e he
      cases mem_singleton.mp hn'
      exact ⟨hr, n, mem_cons_self, hd⟩
  found m hm := by
    rcases List.mem_cons.mp hm with rfl | hm
    · obtain ⟨e, he, hem⟩ := h₁.found m mem_cons_self
      exact ⟨e, List.mem_append_right _ he, hem⟩
    · obtain ⟨e, he, hem⟩ := h₂.found m hm
      exact ⟨e, mem_append_left _ he, hem⟩
  nodup := by
    rw [List.map_append]
    refine List.nodup_append.mpr ⟨h₂.nodup, h₁.nodup, ?_⟩
    rintro _ hb _ hb' rfl
    obtain ⟨e, he, rfl⟩ := List.mem_map.mp hb
    obtain ⟨e', he', heq⟩ := List.mem_map.mp hb'
    obtain ⟨hr, n', hn', hd'⟩ := h₂.below e he
    obtain ⟨_, m, hm, hd⟩ := h₁.below e' he'
    cases mem_singleton.mp hm
    exact hdisj e.1 hr (heq ▸ hd) n' hn' hd'
  closed e he c hc := by
    rcases mem_append.mp he with he | he
    · obtain ⟨e', he', hec⟩ := h₂.closed e he c hc
      exact ⟨e', mem_append_left _ he', hec⟩
    · obtain ⟨e', he', hec⟩ := h₁.closed e he c hc
      exact ⟨e', List.mem_append_right _ he', hec⟩
  renamed e he := by
    rcases mem_append.mp he with he | he
    · obtain ⟨start, last, hi, hv, h⟩ := h₂.renamed e he
      refine ⟨start, last, hi, hv, h.imp ?_ ?_⟩
      · exact fun ⟨hm, hs⟩ => ⟨List.mem_cons_of_mem _ hm, hs⟩
      · exact fun ⟨d, hd, hi⟩ => ⟨d, mem_append_left _ hd, hi⟩
    · obtain ⟨start, last, hi, hv, h⟩ := h₁.renamed e he
      refine ⟨start, last, hi, hv, h.imp ?_ ?_⟩
      · exact fun ⟨hm, hs⟩ => ⟨mem_singleton.mp hm ▸ mem_cons_self, hs⟩
      · exact fun ⟨d, hd, hi⟩ => ⟨d, List.mem_append_right _ hd, hi⟩
  last_le x := Nat.le_trans (h₁.last_le x) (h₂.last_le x)
  above e he x v hv := by
    rcases mem_append.mp he with he | he
    · have := h₂.above e he x v hv
      exact ⟨Nat.lt_of_le_of_lt (h₁.last_le x) this.1, this.2⟩
    · have := h₁.above e he x v hv
      exact ⟨this.1, Nat.le_trans this.2 (h₂.last_le x)⟩
  distinct e he := (mem_append.mp he).elim (h₂.distinct e) (h₁.distinct e)
  apart := by
    -- what is given later is above what was given before
    have hcross : ∀ e ∈ new₂, ∀ e' ∈ new₁, ∀ d ∈ definitions e.2.1, d ∉ definitions e'.2.1 :=
      fun e he e' he' ⟨x, v⟩ hd hd' =>
        absurd (h₂.above e he x v hd).1 (Nat.not_lt.mpr (h₁.above e' he' x v hd').2)
    intro e he e' he' d hd hd'
    rcases mem_append.mp he with he | he <;> rcases mem_append.mp he' with he' | he'
    · exact h₂.apart e he e' he' d hd hd'
    · exact absurd hd' (hcross e he e' he' d hd)
    · exact absurd hd (hcross e' he' e he d hd')
    · exact h₁.apart e he e' he' d hd hd'

/-- A block is renamed before the trees below its children, which start with the versions at its
end. -/
theorem node (hn : g.Reachable n) (hi : renameInstrs env r.last (f.block n).instrs = (is, env', l))
    (h : Renames f g env' cs { last := l, done := (n, is, env') :: r.done } new r₁)
    (hcs : ∀ c, c ∈ cs ↔ g.ImmDominates n c) :
    Renames f g env [n] r (new ++ [(n, is, env')]) r₁ := by
  have hnum := renameInstrs_numbered env r.last (f.block n).instrs
  rw [hi] at hnum
  constructor
  case done => rw [h.done]; simp
  case below =>
    intro e he
    refine ⟨?_, n, mem_cons_self, ?_⟩
    all_goals rcases mem_append.mp he with he | he
    · exact (h.below e he).1
    · exact mem_singleton.mp he ▸ hn
    · obtain ⟨_, c, hc, hd⟩ := h.below e he
      exact ((hcs c).mp hc).dominates.trans hd
    · exact mem_singleton.mp he ▸ .refl g n
  case found =>
    intro m hm
    cases mem_singleton.mp hm
    exact ⟨_, List.mem_append_right _ mem_cons_self, rfl⟩
  case nodup =>
    rw [List.map_append]
    refine List.nodup_append.mpr ⟨h.nodup, by simp, ?_⟩
    rintro _ hb _ hb' rfl
    obtain ⟨e, he, rfl⟩ := List.mem_map.mp hb
    obtain ⟨hr, c, hc, hd⟩ := h.below e he
    have hc := (hcs c).mp hc
    simp only [List.map_cons, List.map_nil, mem_singleton] at hb'
    rw [hb'] at hd
    exact hc.ne (hc.dominates.antisymm hc.reachable hd)
  case closed =>
    intro e he c hc
    rcases mem_append.mp he with he | he
    · obtain ⟨e', he', hec⟩ := h.closed e he c hc
      exact ⟨e', mem_append_left _ he', hec⟩
    · cases mem_singleton.mp he
      obtain ⟨e', he', hec⟩ := h.found c ((hcs c).mpr hc)
      exact ⟨e', mem_append_left _ he', hec⟩
  case renamed =>
    intro e he
    rcases mem_append.mp he with he | he
    · obtain ⟨start, last, hi, hv, ⟨hm, hs⟩ | ⟨d, hd, hi'⟩⟩ := h.renamed e he
      · exact ⟨start, last, hi, hv, .inr ⟨_, List.mem_append_right _ mem_cons_self,
          (hcs _).mp hm, hs⟩⟩
      · exact ⟨start, last, hi, hv, .inr ⟨d, mem_append_left _ hd, hi'⟩⟩
    · cases mem_singleton.mp he
      exact ⟨env, r.last, by rw [hi], by rw [hi], .inl ⟨mem_cons_self, rfl⟩⟩
  case last_le => exact fun x => Nat.le_trans (hnum.last_le x) (h.last_le x)
  case above =>
    intro e he x v hv
    rcases mem_append.mp he with he | he
    · have := h.above e he x v hv
      exact ⟨Nat.lt_of_le_of_lt (hnum.last_le x) this.1, this.2⟩
    · cases mem_singleton.mp he
      have := hnum.above x v hv
      exact ⟨this.1, Nat.le_trans this.2 (h.last_le x)⟩
  case distinct =>
    intro e he
    rcases mem_append.mp he with he | he
    · exact h.distinct e he
    · exact mem_singleton.mp he ▸ hnum.nodup
  case apart =>
    have hcross : ∀ e ∈ new, ∀ d ∈ definitions e.2.1, d ∉ definitions is :=
      fun e he ⟨x, v⟩ hd hd' =>
        absurd (h.above e he x v hd).1 (Nat.not_lt.mpr (hnum.above x v hd').2)
    intro e he e' he' d hd hd'
    rcases mem_append.mp he with he | he <;> rcases mem_append.mp he' with he' | he'
    · exact h.apart e he e' he' d hd hd'
    · cases mem_singleton.mp he'
      exact absurd hd' (hcross e he d hd)
    · cases mem_singleton.mp he
      exact absurd hd (hcross e' he' d hd')
    · rw [mem_singleton.mp he, mem_singleton.mp he']

end Renames

/-! ### The children of a block -/

theorem children_disjoint (hb : g.Reachable b) (hc : g.ImmDominates n c)
    (hc' : g.ImmDominates n c') (hne : c ≠ c') (hd : g.Dominates c b) : ¬g.Dominates c' b := by
  intro hd'
  -- the upper one of the two would lie between `n` and the other
  rcases hd.total hb hd' with h | h
  · exact hc.ne (hc.dominates.antisymm hc.reachable (hc'.closest c hne h))
  · exact hc'.ne (hc'.dominates.antisymm hc'.reachable (hc.closest c' (Ne.symm hne) h))

theorem foldl_renames (cs : List Nat) (hnd : cs.Nodup)
    (hcs : ∀ c ∈ cs, g.ImmDominates n c)
    (hstep : ∀ c ∈ cs, ∀ r, ∃ new, Renames f g env [c] r new (step r c)) (r : Renaming) :
    ∃ new, Renames f g env cs r new (cs.foldl step r) := by
  induction cs generalizing r with
  | nil => exact ⟨[], .nil f g env r⟩
  | cons c cs ih =>
    obtain ⟨hc, hnd⟩ := List.nodup_cons.mp hnd
    obtain ⟨new₁, h₁⟩ := hstep c mem_cons_self r
    obtain ⟨new₂, h₂⟩ := ih hnd (fun c hc => hcs c (List.mem_cons_of_mem _ hc))
      (fun c hc => hstep c (List.mem_cons_of_mem _ hc)) (step r c)
    refine ⟨new₂ ++ new₁, h₁.cons h₂ fun b hb hd c' hc' => ?_⟩
    exact children_disjoint hb (hcs c mem_cons_self) (hcs c' (List.mem_cons_of_mem _ hc'))
      (fun h => hc (h ▸ hc')) hd

/-- Levels enough for what comes after a block in reverse post-order are levels enough. -/
theorem renameTree_renames (hg : g.Closed) (h0 : 0 < g.size) (fuel : Nat) (env : Versions)
    (r : Renaming) (n : Nat) (hn : g.Reachable n) (hfuel : g.size ≤ fuel + g.position n) :
    ∃ new, Renames f g env [n] r new (renameTree f g.domTree fuel env r n) := by
  induction fuel generalizing env r n with
  | zero =>
    have := position_lt_size hg h0 hn
    omega
  | succ fuel ih =>
    rw [renameTree]
    generalize hi : renameInstrs env r.last (f.block n).instrs = res
    obtain ⟨is, env', l⟩ := res
    have hstep : ∀ c ∈ g.domTree.children n, ∀ r, ∃ new,
        Renames f g env' [c] r new (renameTree f g.domTree fuel env' r c) := by
      intro c hc r
      have hc := (mem_children hg h0).mp hc
      have := hc.position_lt hg h0
      exact ih env' r c hc.reachable (by omega)
    obtain ⟨new, h⟩ := foldl_renames (g.domTree.children n) (nodup_children hg h0)
      (fun c hc => (mem_children hg h0).mp hc) hstep { last := l, done := (n, is, env') :: r.done }
    exact ⟨_, .node hn hi h fun c => mem_children hg h0⟩

namespace Function

/-- The versions that the parameters start with. -/
def paramVersions (f : Function) : Versions :=
  f.params.map fun p => (p.name, 0)

/-- The renaming of a function from its entry. -/
def numbering (f : Function) (t : DomTree) : Renaming :=
  renameTree f t (f.blocks.length + 1) f.paramVersions {} 0

/-- The versions at the end of a block. -/
def endVersions (f : Function) (t : DomTree) (b : Nat) : Versions :=
  ((f.numbering t).done.lookup b).elim [] (·.2)

/-- The new instructions of a block, with the operands of its phis still open. -/
def renamedInstrs (f : Function) (t : DomTree) (b : Nat) : List Instr :=
  ((f.numbering t).done.lookup b).elim [] (·.1)

/-- The versions at the start of a block: those at the end of its parent. -/
def startVersions (f : Function) (t : DomTree) (b : Nat) : Versions :=
  (t.parent? b).elim f.paramVersions (f.endVersions t)

end Function

theorem numbering_renames (hg : g.Closed) (h0 : 0 < g.size) (hf : f.blocks.length = g.size) :
    Renames f g f.paramVersions [0] {} (f.numbering g.domTree).done (f.numbering g.domTree) := by
  obtain ⟨new, h⟩ := renameTree_renames hg h0 (f.blocks.length + 1) f.paramVersions {} 0 .entry
    (f := f) (by omega)
  have hnew : (f.numbering g.domTree).done = new := by
    rw [Function.numbering, h.done, List.append_nil]
  exact hnew ▸ h

theorem lookup_of_mem {l : List Entry} (hl : (l.map (·.1)).Nodup) (he : e ∈ l) :
    l.lookup e.1 = some e.2 := by
  induction l with
  | nil => cases he
  | cons e' l ih =>
    obtain ⟨hfresh, hl⟩ := List.nodup_cons.mp hl
    rcases List.mem_cons.mp he with rfl | he
    · exact List.lookup_cons_self
    · have hne : e.1 ≠ e'.1 := fun h => hfresh (List.mem_map.mpr ⟨e, he, h⟩)
      rw [List.lookup_cons, beq_false_of_ne hne]
      exact ih hl he

section

variable (hg : g.Closed) (h0 : 0 < g.size) (hf : f.blocks.length = g.size)
include hg h0 hf

section

variable (hb : g.Reachable b)

include hb

theorem mem_numbering :
    (b, f.renamedInstrs g.domTree b, f.endVersions g.domTree b) ∈ (f.numbering g.domTree).done := by
  have h := numbering_renames hg h0 hf
  obtain ⟨e, he, rfl⟩ : ∃ e ∈ (f.numbering g.domTree).done, e.1 = b := by
    refine parent_induction (P := fun b => ∃ e ∈ (f.numbering g.domTree).done, e.1 = b) hg h0
      (h.found 0 mem_cons_self) ?_ b hb
    rintro b _ hd ⟨e, he, rfl⟩
    exact h.closed e he b hd
  have hl := lookup_of_mem h.nodup he
  simpa only [Function.renamedInstrs, Function.endVersions, hl, Option.elim_some] using he

theorem lookup_numbering :
    (f.numbering g.domTree).done.lookup b =
      some (f.renamedInstrs g.domTree b, f.endVersions g.domTree b) :=
  lookup_of_mem (numbering_renames hg h0 hf).nodup (mem_numbering hg h0 hf hb)

/-- A reachable block is renamed from the versions at the end of its parent. -/
theorem rename_block :
    ∃ last, (renameInstrs (f.startVersions g.domTree b) last (f.block b).instrs).1 =
        f.renamedInstrs g.domTree b ∧
      (renameInstrs (f.startVersions g.domTree b) last (f.block b).instrs).2.1 =
        f.endVersions g.domTree b := by
  have h := numbering_renames hg h0 hf
  obtain ⟨start, last, hi, hv, ⟨hm, hs⟩ | ⟨d, hd, himm, hs⟩⟩ :=
    h.renamed _ (mem_numbering hg h0 hf hb)
  · cases mem_singleton.mp hm
    refine ⟨last, ?_⟩
    rw [Function.startVersions, parent?_entry hg h0, Option.elim_none, ← hs]
    exact ⟨hi, hv⟩
  · refine ⟨last, ?_⟩
    have hend : f.endVersions g.domTree d.1 = d.2.2 := by
      rw [Function.endVersions, lookup_of_mem h.nodup hd, Option.elim_some]
    rw [Function.startVersions, (parent?_domTree hg h0).mpr himm, Option.elim_some, hend, ← hs]
    exact ⟨hi, hv⟩

theorem nodup_renamedInstrs :
    (definitions (f.renamedInstrs g.domTree b)).Nodup :=
  (numbering_renames hg h0 hf).distinct _ (mem_numbering hg h0 hf hb)

theorem renamedInstrs_apart (hc : g.Reachable c)
    (hd : d ∈ definitions (f.renamedInstrs g.domTree b))
    (hd' : d ∈ definitions (f.renamedInstrs g.domTree c)) : b = c :=
  congrArg Prod.fst <| (numbering_renames hg h0 hf).apart _ (mem_numbering hg h0 hf hb) _
    (mem_numbering hg h0 hf hc) d hd hd'

/-- Versions count from 1. -/
theorem renamedInstrs_pos (hd : (x, v) ∈ definitions (f.renamedInstrs g.domTree b)) : 0 < v :=
  ((numbering_renames hg h0 hf).above _ (mem_numbering hg h0 hf hb) x v hd).1

end

end

end BasicSSA.IL
