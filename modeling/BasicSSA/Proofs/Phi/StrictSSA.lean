import BasicSSA.Proofs.Phi.Preservation

/-!
# Placing phis gives strict SSA form

In the result each version is defined once, and where it is read its definition has been executed on
every way there. Version 0 is read only where no way from the entry defines the variable. All this
is about the flow graph of the result, which is that of the function (`graph_placePhis`).
-/

namespace BasicSSA.IL

open IL.Graph

/-- A function in strict SSA form, as far as a run can come. -/
structure StrictSSA (f : Function) : Prop where
  /-- No two instructions define the same version. -/
  once : ∀ n, f.graph.Reachable n → (definitions (f.block n).instrs).Nodup
  apart : ∀ n n' d, f.graph.Reachable n → f.graph.Reachable n' →
    d ∈ definitions (f.block n).instrs → d ∈ definitions (f.block n').instrs → n = n'
  /-- No instruction defines version 0. -/
  positive : ∀ n x, f.graph.Reachable n → (x, 0) ∉ definitions (f.block n).instrs
  /-- A version that is read is defined before, in the block or in one that strictly dominates it. -/
  uses : ∀ n pre i post x v t, f.graph.Reachable n → (f.block n).instrs = pre ++ i :: post →
    i.op ≠ .phi → .var x v t ∈ i.operands → v ≠ 0 →
    (x, v) ∈ definitions pre ∨
      ∃ d, d ≠ n ∧ f.graph.Dominates d n ∧ (x, v) ∈ definitions (f.block d).instrs
  /-- Version 0 is read where no way to the instruction defines the variable. -/
  undefined : ∀ n pre i post x t, f.graph.Reachable n → (f.block n).instrs = pre ++ i :: post →
    i.op ≠ .phi → .var x 0 t ∈ i.operands →
    ¬Defines pre x ∧ ∀ p, f.graph.Run 0 (n :: p) → ∀ c ∈ p, ¬Defines (f.block c).instrs x
  /-- A phi names each predecessor that a run may come from once, and nothing else. -/
  labels : ∀ n i, f.graph.Reachable n → i ∈ (f.block n).instrs → i.op = .phi →
    i.operands.length = i.labels.length ∧ i.labels.Nodup ∧
      ∀ l, l ∈ i.labels ↔ ∃ p, f.graph.Reachable p ∧ n ∈ f.graph.succs p ∧ f.label p = l
  /-- The operand of a phi for a predecessor is a version of the variable of the phi. It is defined
  in a block that dominates the predecessor, or it is version 0 and no way to the end of the
  predecessor defines the variable. -/
  arms : ∀ n i p, f.graph.Reachable n → i ∈ (f.block n).instrs → i.op = .phi →
    f.graph.Reachable p → n ∈ f.graph.succs p →
    ∃ x w v t, i.result = some (.var x w t) ∧ i.operandFor? (f.label p) = some (.var x v t) ∧
      (v ≠ 0 → ∃ d, f.graph.Dominates d p ∧ (x, v) ∈ definitions (f.block d).instrs) ∧
      (v = 0 → ∀ q, f.graph.Run 0 (p :: q) → ∀ c ∈ p :: q, ¬Defines (f.block c).instrs x)

/-! ### The flow graph of the result -/

/-- An instruction without the numbers of its variables and temporaries. -/
def Instr.outline (i : Instr) : Instr :=
  { i with
    result := i.result.map (Value.renumber 0)
    operands := i.operands.map (Value.renumber 0) }

theorem Value.renumber_renumber (m n : Nat) (v : Value) :
    (v.renumber m).renumber n = v.renumber n := by
  cases v <;> rfl

theorem Instr.outline_unversioned (i : Instr) : i.unversioned.outline = i.outline := by
  have hvalue (v : Value) : v.unversioned.renumber 0 = v.renumber 0 := by cases v <;> rfl
  simp [outline, unversioned, Function.comp_def, hvalue]

theorem outline_renameInstrs (env last : Versions) (is : List Instr) :
    (renameInstrs env last is).1.map Instr.outline = is.map Instr.outline := by
  induction is generalizing env last with
  | nil => rfl
  | cons i is ih =>
    rw [renameInstrs_cons, List.map_cons, List.map_cons, ih, ← Instr.outline_unversioned,
      unversioned_renameInstr, Instr.outline_unversioned]

theorem outline_fillPhi (ends : List (String × Versions)) (i : Instr) :
    (fillPhi ends i).outline = i.outline := by
  unfold fillPhi
  split
  · simp only [Instr.outline, Instr.mk.injEq, true_and, and_true]
    refine List.ext_getElem? fun k => ?_
    simp only [List.getElem?_map, List.getElem?_zipIdx, Option.map_map]
    refine congrArg (Option.map · _) (funext fun v => ?_)
    simp only [Function.comp_apply]
    split
    · exact v.renumber_renumber _ 0
    · rfl
  · rfl

theorem outline_fillPhis (ends : List (String × Versions)) (is : List Instr) :
    (fillPhis ends is).map Instr.outline = is.map Instr.outline := by
  induction is with
  | nil => rfl
  | cons i is ih =>
    rw [fillPhis]
    split <;> simp [ih, outline_fillPhi]

theorem Block.targets_congr {b c : Block}
    (h : b.instrs.getLast?.map Instr.outline = c.instrs.getLast?.map Instr.outline) :
    b.targets = c.targets := by
  unfold targets terminator?
  cases hb : b.instrs.getLast? with
  | none =>
    rw [hb, Option.map_none, eq_comm, Option.map_eq_none_iff] at h
    rw [h]
  | some i =>
    rw [hb, Option.map_some, eq_comm, Option.map_eq_some_iff] at h
    obtain ⟨j, hj, he⟩ := h
    have hop : j.op = i.op := congrArg (·.op) he
    have hlabels : j.labels = i.labels := congrArg (·.labels) he
    rw [hj, Option.filter_some, Option.filter_some, hop]
    cases i.op.isTerminator
    · rfl
    · simp [hlabels]

namespace Function

variable {f : Function}

theorem Ready.block_of_unreachable (hf : f.Ready) (hn : n < f.blocks.length)
    (h : ¬f.graph.Reachable n) : f.placePhis.1.block n = f.withPhis.block n := by
  have hlookup : (f.withPhis.numbering f.graph.domTree).done.lookup n = none := by
    refine List.lookup_eq_none_iff.mpr fun e he => bne_iff_ne.mpr ?_
    rintro rfl
    exact h ((numbering_renames f.closed_graph hf.pos
      (f.length_withPhis.trans f.size_graph.symm)).below e he).1
  have hblock := getElem?_blocks (f := f.withPhis) (n := n) (by simpa using hn)
  rw [placePhis_eq hf.nonempty, rename_eq, block]
  simp [List.getElem?_zipIdx, hblock, hlookup]

/-- Apart from numbers, a block of the result is the block with its new phis. -/
theorem outline_placePhis (hn : n < f.blocks.length) :
    (f.placePhis.1.block n).instrs.map Instr.outline =
      (f.withPhis.block n).instrs.map Instr.outline := by
  have hne : f.blocks ≠ [] := List.ne_nil_of_length_pos (Nat.zero_lt_of_lt hn)
  have hblock := getElem?_blocks (f := f.withPhis) (n := n) (by simpa using hn)
  have hrenames := numbering_renames f.closed_graph (f.size_graph ▸ List.length_pos_iff.mpr hne)
    (f.length_withPhis.trans f.size_graph.symm)
  rw [placePhis_eq hne, rename_eq, block]
  cases hl : (f.withPhis.numbering f.graph.domTree).done.lookup n with
  | none => simp [List.getElem?_zipIdx, hblock, hl]
  | some e =>
    obtain ⟨l₁, l₂, hdone, -⟩ := List.lookup_eq_some_iff.mp hl
    obtain ⟨start, last, hi, -⟩ := hrenames.renamed (n, e) (by simp [hdone])
    simp only [List.getElem?_map, List.getElem?_zipIdx, hblock, Option.map_some, hl, Nat.zero_add,
      List.getD_eq_getElem?_getD, Option.getD_some, outline_fillPhis]
    rw [← hi, outline_renameInstrs]

/-- Every block has an instruction that is no phi. -/
def Coded (f : Function) : Prop :=
  ∀ n < f.blocks.length, ∃ i ∈ (f.block n).instrs, i.op ≠ .phi

theorem Coded.dropWhile_ne_nil (hf : f.Coded) (hn : n < f.blocks.length) :
    (f.block n).instrs.dropWhile (·.op = .phi) ≠ [] := by
  intro hd
  obtain ⟨i, hi, hop⟩ := hf n hn
  have he := List.takeWhile_append_dropWhile (p := (·.op = .phi)) (l := (f.block n).instrs)
  have hall := List.all_takeWhile (p := (·.op = .phi)) (l := (f.block n).instrs)
  rw [hd, List.append_nil] at he
  rw [he, List.all_eq_true] at hall
  exact hop (by simpa using hall i hi)

theorem coded_of_accepted (hm : functionError? m f = none) : f.Coded := by
  intro n hn
  obtain ⟨hne, herror⟩ := (functionError?_eq_none.mp hm).2.2 n _ (getElem?_blocks hn)
  refine ⟨_, List.getLast_mem hne, fun hop => ?_⟩
  have hplace := (instrsError?_eq_none.mp herror _ _ [] (List.dropLast_concat_getLast hne).symm).1
  simp [placeFault?, hop, Opcode.isTerminator] at hplace

theorem Ready.coded (hf : f.Ready) (hcode : ∀ n < f.blocks.length, (f.block n).instrs ≠ []) :
    f.Coded := by
  intro n hn
  obtain ⟨i, hi⟩ := List.exists_mem_of_ne_nil _ (hcode n hn)
  exact ⟨i, hi, hf.phiFree.instrs n i hi⟩

theorem graph_placePhis (hf : f.Coded) : f.placePhis.1.graph = f.graph := by
  have hlength : f.placePhis.1.blocks.length = f.blocks.length := by
    simpa using congrArg List.length (labels_placePhis f)
  simp only [graph, Graph.mk.injEq, blockIdx?_placePhis]
  congr 1
  refine List.ext_getElem? fun n => ?_
  rw [List.getElem?_map, List.getElem?_map]
  by_cases hn : n < f.blocks.length
  · have hdrop := hf.dropWhile_ne_nil hn
    have hlast := congrArg List.getLast? (outline_placePhis hn)
    rw [block_withPhis hn, Block.insertPhis, List.getLast?_map, List.getLast?_map,
      List.getLast?_append_of_ne_nil _ hdrop,
      ← List.getLast?_append_of_ne_nil ((f.block n).instrs.takeWhile (·.op = .phi)) hdrop,
      List.takeWhile_append_dropWhile] at hlast
    rw [getElem?_blocks hn, getElem?_blocks (hlength ▸ hn), Option.map_some, Option.map_some,
      Block.targets_congr hlast]
  · rw [List.getElem?_eq_none (Nat.le_of_not_lt hn),
      List.getElem?_eq_none (hlength ▸ Nat.le_of_not_lt hn)]

end Function

theorem definitions_append (is js : List Instr) :
    definitions (is ++ js) = definitions is ++ definitions js :=
  List.filterMap_append ..

theorem definitions_fillPhis (ends : List (String × Versions)) (is : List Instr) :
    definitions (fillPhis ends is) = definitions is := by
  have hfill (i : Instr) : (fillPhi ends i).definition? = i.definition? := by
    unfold fillPhi
    split <;> simp [Instr.definition?]
  induction is with
  | nil => rfl
  | cons i is ih =>
    rw [fillPhis]
    split
    · simp only [definitions, List.filterMap_cons, hfill]
      simp only [definitions] at ih
      rw [ih]
    · rfl

/-! ### Reads of the result -/

/-- Another instruction than a phi stands after the phis of its block. -/
theorem split_after_phis {phis body pre post : List Instr}
    (hphis : ∀ j ∈ phis, j.op = .phi) (hop : i.op ≠ .phi)
    (h : phis ++ body = pre ++ i :: post) :
    ∃ before, pre = phis ++ before ∧ body = before ++ i :: post := by
  rcases List.append_eq_append_iff.mp h with ⟨before, hpre, hbody⟩ | ⟨rest, hp, hrest⟩
  · exact ⟨before, hpre, hbody⟩
  · cases rest with
    | nil => exact ⟨[], by simpa using hp.symm, by simpa using hrest.symm⟩
    | cons j rest =>
      obtain ⟨rfl, _⟩ := List.cons.inj hrest
      exact absurd (hphis i (by simp [hp])) hop

/-- A renamed instruction comes from an instruction at the same place. -/
theorem renameInstrs_split
    (h : (renameInstrs env last is).1 = pre ++ i :: post) :
    ∃ before j after, is = before ++ j :: after ∧ pre = (renameInstrs env last before).1 ∧
      i = (renameInstr (renameInstrs env last before).2.1 (renameInstrs env last before).2.2 j).1 := by
  induction is generalizing env last pre with
  | nil => simp [renameInstrs] at h
  | cons j is ih =>
    cases pre with
    | nil => exact ⟨[], j, is, rfl, rfl, (List.cons.inj h).1.symm⟩
    | cons k pre =>
      obtain ⟨rfl, htail⟩ := List.cons.inj h
      obtain ⟨before, k, after, rfl, rfl, rfl⟩ := ih htail
      exact ⟨j :: before, k, after, rfl, rfl, rfl⟩

theorem read_renameInstr (hop : i.op ≠ .phi)
    (h : .var x v t ∈ (renameInstr env last i).1.operands) :
    x ∈ (varsOf i.operands).map (·.1) ∧ v = env.of x := by
  rw [operands_renameInstr hop] at h
  obtain ⟨w, hw, he⟩ := List.mem_map.mp h
  cases w with
  | var y n t' =>
    injection he with hname hversion
    subst hname hversion
    exact ⟨List.mem_map.mpr ⟨(y, t'), List.mem_filterMap.mpr ⟨_, hw, rfl⟩, rfl⟩, rfl⟩
  | _ => cases he

theorem readsFirst_append (hdef : ¬Defines is x)
    (hx : x ∈ (varsOf j.operands).map (·.1)) : readsFirst x (is ++ j :: js) = true := by
  induction is with
  | nil =>
    obtain ⟨v, hv, rfl⟩ := List.mem_map.mp hx
    rw [List.nil_append, readsFirst, Bool.or_eq_true]
    exact .inl (List.any_eq_true.mpr ⟨v, hv, by simp⟩)
  | cons i is ih =>
    refine readsFirst_cons (fun t ht => hdef ⟨i, List.mem_cons_self, t, ht⟩) (ih ?_)
    rintro ⟨k, hk, ht⟩
    exact hdef ⟨k, List.mem_cons_of_mem _ hk, ht⟩

namespace Function

theorem defines_placedPhis {vs : List (String × Ty)} (f : Function) (n : Nat) (mid : Versions) :
    Defines (vs.map (f.placedPhi n mid)) x ↔ x ∈ vs.map (·.1) :=
  defines_map fun _ => rfl

theorem mem_definitions_placedPhis {f : Function} {vs : List (String × Ty)}
    (hx : x ∈ vs.map (·.1)) : (x, mid.of x) ∈ definitions (vs.map (f.placedPhi n mid)) := by
  obtain ⟨v, hv, rfl⟩ := List.mem_map.mp hx
  exact mem_definitions.mpr ⟨_, List.mem_map_of_mem hv, rfl⟩

namespace Ready

variable {f : Function} (hf : f.Ready)
include hf

section

variable (hb : f.graph.Reachable n)

include hb

theorem definitions_placePhis :
    definitions (f.placePhis.1.block n).instrs =
      definitions (f.withPhis.renamedInstrs f.graph.domTree n) := by
  rw [hf.block_placePhis hb, definitions_fillPhis]

theorem positive_placePhis (h : (x, v) ∈ definitions (f.placePhis.1.block n).instrs) : v ≠ 0 := by
  rw [hf.definitions_placePhis hb] at h
  exact Nat.ne_of_gt (renamedInstrs_pos f.closed_graph hf.pos
    (f.length_withPhis.trans f.size_graph.symm) hb h)

/-- A block of the result defines the variables of its phis and those that it defined. -/
theorem defines_placePhis : Defines (f.placePhis.1.block n).instrs x ↔
    x ∈ (f.phiVars n).map (·.1) ∨ Defines (f.block n).instrs x := by
  obtain ⟨mid, last, hplaced⟩ := hf.exists_placedBlock hb
  rw [hplaced.block, ← defines_placedPhis f n mid,
    ← (renameInstrs_numbered mid last (f.block n).instrs).defines x]
  simp only [Defines, List.mem_append, or_and_right, exists_or]

/-- A variable that a block defines has at its end a version that is defined there. -/
theorem stop_mem (h : Defines (f.placePhis.1.block n).instrs x) :
    (x, (f.stop n).of x) ∈ definitions (f.placePhis.1.block n).instrs := by
  obtain ⟨mid, last, hplaced⟩ := hf.exists_placedBlock hb
  have hnum := renameInstrs_numbered mid last (f.block n).instrs
  rw [hplaced.stop] at hnum
  rw [hplaced.block, definitions_append, List.mem_append]
  by_cases hdef : Defines (f.block n).instrs x
  · exact .inr (hnum.defined x hdef)
  · rw [hnum.kept x hdef]
    exact .inl (mem_definitions_placedPhis
      (((hf.defines_placePhis hb).mp h).resolve_right hdef))

/-- A block that does not define a variable ends with the version that it starts with. -/
theorem stop_kept (h : ¬Defines (f.placePhis.1.block n).instrs x) :
    x ∉ (f.phiVars n).map (·.1) ∧ (f.stop n).of x = (f.start n).of x := by
  obtain ⟨hphi, hdef⟩ := not_or.mp (mt (hf.defines_placePhis hb).mpr h)
  exact ⟨hphi, hf.stop_eq_start hb hphi hdef⟩

end

/-- A version at the end of a block is 0 or defined in a block that dominates it. -/
theorem stop_defined (hb : f.graph.Reachable b) (h : (f.stop b).of x ≠ 0) :
    ∃ d, f.graph.Dominates d b ∧
      (x, (f.stop b).of x) ∈ definitions (f.placePhis.1.block d).instrs := by
  revert h
  refine parent_induction (P := fun b => (f.stop b).of x ≠ 0 → ∃ d, f.graph.Dominates d b ∧
    (x, (f.stop b).of x) ∈ definitions (f.placePhis.1.block d).instrs)
    f.closed_graph hf.pos ?_ ?_ b hb
  · intro h
    by_cases hdef : Defines (f.placePhis.1.block 0).instrs x
    · exact ⟨0, .refl _ 0, hf.stop_mem .entry hdef⟩
    · rw [(hf.stop_kept .entry hdef).2, hf.start_entry] at h
      exact absurd rfl h
  · intro b p hp ih h
    by_cases hdef : Defines (f.placePhis.1.block b).instrs x
    · exact ⟨b, .refl _ b, hf.stop_mem hp.reachable hdef⟩
    · rw [(hf.stop_kept hp.reachable hdef).2, hf.start_eq_stop hp] at h ⊢
      obtain ⟨d, hd, hmem⟩ := ih h
      exact ⟨d, hd.trans hp.dominates, hmem⟩

/-- Once a run has executed a definition of a live variable, its version is not 0. -/
theorem stop_of_run (hentry : f.EntryUntargeted) (hlive : f.isLive f.graph.domTree x = true)
    (hrun : f.graph.Run 0 l) (hc : c ∈ l) (hdef : Defines (f.placePhis.1.block c).instrs x) :
    ∀ b p, l = b :: p → (f.stop b).of x ≠ 0 := by
  -- along an edge the version stays, or the next block defines another one
  induction hrun with
  | start =>
    rintro b p he
    obtain ⟨rfl, rfl⟩ := List.cons.inj he
    cases List.mem_singleton.mp hc
    exact hf.positive_placePhis .entry (hf.stop_mem .entry hdef)
  | @step a p n hrun hn ih =>
    rintro b q he
    obtain ⟨rfl, rfl⟩ := List.cons.inj he
    have ha : f.graph.Reachable a := ⟨p, hrun⟩
    by_cases hnew : Defines (f.placePhis.1.block n).instrs x
    · exact hf.positive_placePhis (ha.step hn) (hf.stop_mem (ha.step hn) hnew)
    · obtain ⟨hphi, hkept⟩ := hf.stop_kept (ha.step hn) hnew
      rw [hkept, hf.start_of_edge hentry ha hn hlive hphi]
      refine ih ((List.mem_cons.mp hc).resolve_left ?_) a p rfl
      rintro rfl
      exact hnew hdef

/-- A version that a block reads is defined in the block before, or it is the version that a live
variable without a phi has at the start of the block. -/
theorem read_cases (hb : f.graph.Reachable n)
    (hsplit : (f.placePhis.1.block n).instrs = pre ++ i :: post) (hop : i.op ≠ .phi)
    (hread : .var x v t ∈ i.operands) :
    (x, v) ∈ definitions pre ∨
      (¬Defines pre x ∧ f.isLive f.graph.domTree x = true ∧ x ∉ (f.phiVars n).map (·.1) ∧
        v = (f.start n).of x) := by
  obtain ⟨mid, last, hplaced⟩ := hf.exists_placedBlock hb
  rw [hplaced.block] at hsplit
  obtain ⟨before, rfl, hbody⟩ := split_after_phis
    (fun j hj => by obtain ⟨_, _, rfl⟩ := List.mem_map.mp hj; rfl) hop hsplit
  obtain ⟨is, j, js, hinstrs, rfl, rfl⟩ := renameInstrs_split hbody
  rw [op_renameInstr] at hop
  have hnum := renameInstrs_numbered mid last is
  obtain ⟨hx, rfl⟩ := read_renameInstr hop hread
  rw [definitions_append, List.mem_append]
  by_cases hdef : Defines is x
  · exact .inl (.inr (hnum.defined x hdef))
  rw [hnum.kept x hdef]
  by_cases hphi : x ∈ (f.phiVars n).map (·.1)
  · exact .inl (.inl (mem_definitions_placedPhis hphi))
  refine .inr ⟨?_, hf.isLive_of_readsFirst hb ?_, hphi, hplaced.kept x hphi⟩
  · rintro ⟨k, hk, ht⟩
    rcases List.mem_append.mp hk with hk | hk
    · exact hphi ((defines_placedPhis ..).mp ⟨k, hk, ht⟩)
    · exact hdef ((hnum.defines x).mp ⟨k, hk, ht⟩)
  · rw [hinstrs]
    exact readsFirst_append hdef hx

/-- A version at the start of a block is 0 or defined in a block that strictly dominates it. -/
theorem start_defined (hb : f.graph.Reachable b) (h : (f.start b).of x ≠ 0) :
    ∃ d, d ≠ b ∧ f.graph.Dominates d b ∧
      (x, (f.start b).of x) ∈ definitions (f.placePhis.1.block d).instrs := by
  have hb0 : b ≠ 0 := by
    rintro rfl
    exact h (hf.start_entry x)
  obtain ⟨p, hp⟩ := exists_parent f.closed_graph hf.pos hb hb0
  have hp := (parent?_domTree f.closed_graph hf.pos).mp hp
  rw [hf.start_eq_stop hp] at h ⊢
  have hreach := hp.dominates.reachable hb
  obtain ⟨d, hd, hmem⟩ := hf.stop_defined hreach h
  refine ⟨d, ?_, hd.trans hp.dominates, hmem⟩
  rintro rfl
  exact hp.ne (hp.dominates.antisymm hb hd)

/-- The phis of the result are those that were placed. -/
theorem exists_placedPhi (hb : f.graph.Reachable n) (hi : i ∈ (f.placePhis.1.block n).instrs)
    (hop : i.op = .phi) : ∃ mid, ∃ v ∈ f.phiVars n, f.placedPhi n mid v = i := by
  obtain ⟨mid, last, hplaced⟩ := hf.exists_placedBlock hb
  rw [hplaced.block] at hi
  rcases List.mem_append.mp hi with hi | hi
  · exact ⟨mid, List.mem_map.mp hi⟩
  · exact absurd hop (renameInstrs_ne_phi _ _ (hf.phiFree.instrs n) i hi)

theorem labels_placedPhi (mid : Versions) (v : String × Ty) :
    (f.placedPhi n mid v).operands.length = (f.placedPhi n mid v).labels.length ∧
      (f.placedPhi n mid v).labels.Nodup ∧
      ∀ l, l ∈ (f.placedPhi n mid v).labels ↔
        ∃ p, f.graph.Reachable p ∧ n ∈ f.graph.succs p ∧ f.placePhis.1.label p = l := by
  have hpred (p : Nat) := mem_reachablePreds (p := p) (b := n) f.closed_graph hf.pos
  refine ⟨by simp [placedPhi, newPhi, predLabels], ?_, fun l => ?_⟩
  · refine List.pairwise_map.mpr ((nodup_reachablePreds _ _ n).imp_of_mem ?_)
    intro p q hp hq hne h
    exact hne (hf.label_inj (hf.lt_length ((hpred p).mp hp).1) (hf.lt_length ((hpred q).mp hq).1) h)
  · refine List.mem_map.trans ⟨?_, ?_⟩
    · rintro ⟨p, hp, rfl⟩
      obtain ⟨hp, he⟩ := (hpred p).mp hp
      exact ⟨p, hp, he, f.label_placePhis p⟩
    · rintro ⟨p, hp, he, rfl⟩
      exact ⟨p, (hpred p).mpr ⟨hp, he⟩, (f.label_placePhis p).symm⟩

end Ready

end Function

/-- Placing phis gives strict SSA form. -/
theorem strictSSA_placePhis {m : Module} {f : Function} (hm : verify m = .ok ())
    (hf : f ∈ m.functions) (hfree : f.PhiFree) (hentry : f.EntryUntargeted) :
    StrictSSA f.placePhis.1 := by
  have hok := functionError?_of_verify hm hf
  have hready := Function.ready_of_accepted hok hfree
  have hsize := f.length_withPhis.trans f.size_graph.symm
  have hgraph := Function.graph_placePhis (Function.coded_of_accepted hok)
  constructor <;> rw [hgraph]
  case once =>
    intro n hn
    rw [hready.definitions_placePhis hn]
    exact nodup_renamedInstrs f.closed_graph hready.pos hsize hn
  case apart =>
    intro n n' d hn hn' hd hd'
    rw [hready.definitions_placePhis hn] at hd
    rw [hready.definitions_placePhis hn'] at hd'
    exact renamedInstrs_apart f.closed_graph hready.pos hsize hn hn' hd hd'
  case positive =>
    intro n x hn h
    exact hready.positive_placePhis hn h rfl
  case uses =>
    intro n pre i post x v t hn hsplit hop hread hv
    rcases hready.read_cases hn hsplit hop hread with h | ⟨_, _, _, rfl⟩
    · exact .inl h
    · exact .inr (hready.start_defined hn hv)
  case undefined =>
    intro n pre i post x t hn hsplit hop hread
    rcases hready.read_cases hn hsplit hop hread with h | ⟨hpre, hlive, hphi, hstart⟩
    · refine absurd rfl (hready.positive_placePhis (x := x) hn ?_)
      rw [hsplit, definitions_append]
      exact List.mem_append_left _ h
    · refine ⟨hpre, fun p hrun c hc hdef => ?_⟩
      cases hrun with
      | start => cases hc
      | @step a q _ hrun he =>
        refine hready.stop_of_run hentry hlive hrun hc hdef a q rfl ?_
        rw [← hready.start_of_edge hentry ⟨q, hrun⟩ he hlive hphi, ← hstart]
  case labels =>
    intro n i hn hi hop
    obtain ⟨mid, v, _, rfl⟩ := hready.exists_placedPhi hn hi hop
    exact hready.labels_placedPhi mid v
  case arms =>
    intro n i p hn hi hop hp he
    obtain ⟨mid, v, hv, rfl⟩ := hready.exists_placedPhi hn hi hop
    have hlive := (Function.mem_phiVars.mp (List.mem_map_of_mem hv)).1
    rw [f.label_placePhis p]
    refine ⟨v.1, _, _, v.2, rfl, hready.operandFor?_placedPhi hp he mid v, ?_, ?_⟩
    · exact hready.stop_defined hp
    · intro hzero q hrun c hc hdef
      exact hready.stop_of_run hentry hlive hrun hc hdef p q rfl hzero

theorem strictSSA_countdown :
    verify { functions := [countdown] } = .ok () ∧ countdown.PhiFree ∧
      countdown.EntryUntargeted ∧ StrictSSA countdown.placePhis.1 :=
  ⟨rfl, by decide, by decide,
    strictSSA_placePhis (m := { functions := [countdown] }) rfl List.mem_cons_self (by decide)
      (by decide)⟩

end BasicSSA.IL
