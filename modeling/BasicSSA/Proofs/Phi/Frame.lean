import BasicSSA.Proofs.Phi.StrictSSA

/-!
# What placing phis leaves alone

Without its phis and up to versions, each reachable block of the result is the block of the function;
the other blocks are not touched. A block gets at most one phi for a variable, and the counts that
are reported are those of the phis and of the definitions (`placePhis_frame`).
-/

namespace BasicSSA.IL

open IL.Graph

/-- A block without its phis. -/
def Block.withoutPhis (b : Block) : Block :=
  { b with instrs := b.instrs.filter (·.op ≠ .phi) }

/-- A block without versions. -/
def Block.unversioned (b : Block) : Block :=
  { b with instrs := b.instrs.map Instr.unversioned }

/-- The variables that the phis of a block define. -/
def Block.phiNames (b : Block) : List String :=
  ((b.instrs.filter (·.op = .phi)).filterMap Instr.definedVar?).map (·.1)

theorem unversioned_renameInstrs (env last : Versions) (is : List Instr) :
    (renameInstrs env last is).1.map Instr.unversioned = is.map Instr.unversioned := by
  induction is generalizing env last with
  | nil => rfl
  | cons i is ih => rw [renameInstrs_cons, List.map_cons, List.map_cons, ih, unversioned_renameInstr]

theorem countP_definedVar? (is : List Instr) :
    is.countP (·.definedVar?.isSome) = (definitions is).length := by
  rw [definitions, List.length_filterMap_eq_countP]
  refine List.countP_congr fun i _ => ?_
  simp only [Option.isSome_iff_exists, Prod.exists, ← Instr.definition?_iff]

/-- Counting for each number the lists that hold it counts all their members. -/
theorem sum_countP_contains {ls : List (List Nat)} (hls : ∀ l ∈ ls, l.Nodup ∧ ∀ n ∈ l, n < k) :
    ((List.range k).map fun n => ls.countP (·.contains n)).sum = (ls.map List.length).sum := by
  induction ls with
  | nil => simp
  | cons l ls ih =>
    obtain ⟨⟨hl, hlt⟩, hls⟩ := List.forall_mem_cons.mp hls
    have hperm : ((List.range k).filter (l.contains ·)).Perm l := by
      refine (List.perm_ext_iff_of_nodup (List.nodup_range.filter _) hl).mpr fun n => ?_
      simpa using hlt n
    have hone (ns : List Nat) : (ns.map fun n => if l.contains n then 1 else 0).sum =
        (ns.filter (l.contains ·)).length := by
      induction ns with
      | nil => rfl
      | cons n ns ih => by_cases hn : l.contains n <;> simp_all [Nat.add_comm]
    simp only [List.countP_cons, List.sum_map_add, ih hls, hone, hperm.length_eq, List.map_cons,
      List.sum_cons, Nat.add_comm]

namespace Function

variable {f : Function}

theorem length_placePhis (f : Function) : f.placePhis.1.blocks.length = f.blocks.length := by
  simpa using congrArg List.length f.labels_placePhis

namespace Ready

variable (hf : f.Ready)
include hf

theorem reachable_of_phiVars (h : v ∈ f.phiVars n) : f.graph.Reachable n := by
  obtain ⟨p, hp, he⟩ := hf.edge_of_phiVars h
  exact hp.step he

theorem block_kept (h : ¬f.graph.Reachable n) : f.placePhis.1.block n = f.block n := by
  by_cases hn : n < f.blocks.length
  · have hvars : f.phiVars n = [] :=
      List.eq_nil_iff_forall_not_mem.mpr fun v hv => h (hf.reachable_of_phiVars hv)
    rw [hf.block_of_unreachable hn h, hf.phiFree.block_withPhis hn, hvars]
    rfl
  · simp [block, length_placePhis, hn]

/-- The phis of a block, and its other instructions up to versions. -/
theorem split_block : ∃ mid,
    (f.placePhis.1.block n).instrs.filter (·.op = .phi) = (f.phiVars n).map (f.placedPhi n mid) ∧
    (f.placePhis.1.block n).withoutPhis.unversioned = (f.block n).unversioned := by
  have hfree := hf.phiFree.instrs n
  by_cases hr : f.graph.Reachable n
  · obtain ⟨mid, last, h⟩ := hf.exists_placedBlock hr
    have hphis := f.op_placedPhis n mid (f.phiVars n)
    have hrest := renameInstrs_ne_phi mid last hfree
    refine ⟨mid, ?_, ?_⟩
    · rw [h.block, List.filter_append, List.filter_eq_self.mpr (by simpa using hphis),
        List.filter_eq_nil_iff.mpr (by simpa using hrest), List.append_nil]
    · rw [Block.unversioned, Block.withoutPhis, h.block, List.filter_append,
        List.filter_eq_nil_iff.mpr (by simpa using hphis),
        List.filter_eq_self.mpr (by simpa using hrest), List.nil_append, unversioned_renameInstrs]
      rfl
  · have hvars : f.phiVars n = [] :=
      List.eq_nil_iff_forall_not_mem.mpr fun v hv => hr (hf.reachable_of_phiVars hv)
    refine ⟨[], ?_, ?_⟩
    · rw [hf.block_kept hr, hvars, List.filter_eq_nil_iff.mpr (by simpa using hfree)]
      rfl
    · rw [hf.block_kept hr, Block.withoutPhis, List.filter_eq_self.mpr (by simpa using hfree)]

theorem nodup_phiNames : (f.placePhis.1.block n).phiNames.Nodup := by
  obtain ⟨mid, hphis, -⟩ := hf.split_block
  have hnames : (f.placePhis.1.block n).phiNames = (f.phiVars n).map (·.1) := by
    rw [Block.phiNames, hphis]
    simp [Function.comp_def, placedPhi, Instr.definedVar?]
  exact hnames ▸ nodup_phiVars

/-- The number of phis that are reported is that of the phis in the blocks. -/
theorem inserted_eq : f.placePhis.2.inserted =
    (f.placePhis.1.blocks.map fun b => b.instrs.countP (·.op = .phi)).sum := by
  have hcount (n : Nat) (hn : n < f.blocks.length) :
      (f.placePhis.1.block n).instrs.countP (·.op = .phi) =
        ((f.joins f.graph.domTree f.frontiers).map (·.2)).countP (·.contains n) := by
    obtain ⟨mid, hphis, -⟩ := hf.split_block
    rw [List.countP_eq_length_filter, hphis, List.length_map, phiVars, List.length_map,
      List.countP_map, List.countP_eq_length_filter]
    rfl
  have hblocks : f.placePhis.1.blocks = (List.range f.blocks.length).map f.placePhis.1.block :=
    List.ext_getElem (by simp [length_placePhis]) fun n hn _ => by simp [block, hn]
  have hjoins : ∀ l ∈ (f.joins f.graph.domTree f.frontiers).map (·.2),
      l.Nodup ∧ ∀ n ∈ l, n < f.blocks.length := by
    intro l hl
    simp only [joins, List.map_map, List.mem_map] at hl
    obtain ⟨v, -, rfl⟩ := hl
    refine ⟨nodup_iteratedFrontier .., fun n hn => ?_⟩
    obtain ⟨p, hp, he⟩ := exists_edge_of_mem_iteratedFrontier f.closed_graph hf.pos hn
    exact hf.lt_length (hp.step he)
  calc f.placePhis.2.inserted
    _ = (((f.joins f.graph.domTree f.frontiers).map (·.2)).map List.length).sum := by
      simp only [placePhis, placePhisAlong, List.isEmpty_iff, hf.nonempty, if_false, List.map_map]
      rfl
    _ = ((List.range f.blocks.length).map fun n =>
          (f.placePhis.1.block n).instrs.countP (·.op = .phi)).sum := by
      rw [← sum_countP_contains hjoins]
      exact congrArg _ (List.map_congr_left fun n hn => (hcount n (List.mem_range.mp hn)).symm)
    _ = _ := by
      rw [hblocks, List.map_map]
      rfl

/-- The number of versions that are reported is that of the definitions in reachable blocks. -/
theorem renamed_eq {ns : List Nat} (hns : ns.Nodup) (hreach : ∀ n, n ∈ ns ↔ f.graph.Reachable n) :
    f.placePhis.2.renamed =
      (ns.map fun n => (definitions (f.placePhis.1.block n).instrs).length).sum := by
  have hlength := f.length_withPhis.trans f.size_graph.symm
  have hdone := numbering_renames f.closed_graph hf.pos hlength
  have hperm : ((f.withPhis.numbering f.graph.domTree).done.map (·.1)).Perm ns := by
    refine (List.perm_ext_iff_of_nodup hdone.nodup hns).mpr fun n => ?_
    rw [hreach, List.mem_map]
    constructor
    · rintro ⟨e, he, rfl⟩
      exact (hdone.below e he).1
    · exact fun hn => ⟨_, mem_numbering f.closed_graph hf.pos hlength hn, rfl⟩
  have hreported : f.placePhis.2.renamed = ((f.withPhis.numbering f.graph.domTree).done.map
      fun e => e.2.1.countP (·.definedVar?.isSome)).sum := by
    simp only [placePhis, placePhisAlong, List.isEmpty_iff, hf.nonempty, if_false]
    rfl
  rw [hreported, ← (hperm.map _).sum_eq, List.map_map]
  refine congrArg List.sum (List.map_congr_left fun e he => ?_)
  rw [countP_definedVar?, Function.comp_apply, hf.definitions_placePhis (hdone.below e he).1,
    renamedInstrs, lookup_of_mem hdone.nodup he, Option.elim_some]

end Ready

end Function

/-- Placing phis changes nothing but versions: without the new phis the function is as it was, up to
versions in the blocks that can be reached. No block gets two phis for a variable, and the phis and
definitions are counted right. -/
theorem placePhis_frame {m : Module} {f : Function} (hm : verify m = .ok ()) (hf : f ∈ m.functions)
    (hphi : f.PhiFree) {ns : List Nat} (hns : ns.Nodup)
    (hreach : ∀ n, n ∈ ns ↔ f.graph.Reachable n) :
    { f.placePhis.1 with blocks := f.blocks } = f ∧
    f.placePhis.1.blocks.length = f.blocks.length ∧
    (∀ n < f.blocks.length,
      (f.placePhis.1.block n).withoutPhis.unversioned = (f.block n).unversioned ∧
      (¬f.graph.Reachable n → f.placePhis.1.block n = f.block n) ∧
      (f.placePhis.1.block n).phiNames.Nodup) ∧
    f.placePhis.2.inserted =
      (f.placePhis.1.blocks.map fun b => b.instrs.countP (·.op = .phi)).sum ∧
    f.placePhis.2.renamed =
      (ns.map fun n => (definitions (f.placePhis.1.block n).instrs).length).sum := by
  have hready := Function.ready_of_accepted (functionError?_of_verify hm hf) hphi
  refine ⟨?_, f.length_placePhis, fun n hn => ⟨?_, hready.block_kept, hready.nodup_phiNames⟩,
    hready.inserted_eq, hready.renamed_eq hns hreach⟩
  · rw [Function.placePhis_eq hready.nonempty, Function.rename_eq, Function.withPhis_eq]
  · obtain ⟨mid, -, h⟩ := hready.split_block
    exact h

theorem placePhis_frame_braid :
    verify { functions := [braid] } = .ok () ∧ braid.PhiFree ∧
      braid.graph.domTree.order = [0, 1, 2, 3] ∧
      (braid.placePhis.1.blocks.map fun b => b.instrs.countP (·.op = .phi)).sum = 2 ∧
      ([0, 1, 2, 3].map fun n => (definitions (braid.placePhis.1.block n).instrs).length).sum = 4 := by
  have hm : verify { functions := [braid] } = .ok () := by decide +kernel
  have horder : braid.graph.domTree.order = [0, 1, 2, 3] := by decide +kernel
  have hreach (n : Nat) : n ∈ [0, 1, 2, 3] ↔ braid.graph.Reachable n := by
    rw [← contains_domTree braid.closed_graph (by decide +kernel), DomTree.contains, horder]
    exact List.contains_iff_mem.symm
  obtain ⟨-, -, -, hinserted, hrenamed⟩ :=
    placePhis_frame hm List.mem_cons_self (by decide) (by decide) hreach
  refine ⟨hm, by decide, horder, hinserted ▸ ?_, hrenamed ▸ ?_⟩ <;> decide +kernel

end BasicSSA.IL
