import BasicSSA.Proofs.IL.Accepted
import BasicSSA.Proofs.Phi.Renaming

/-!
# The blocks of a function with phis

A reachable block of the result has one phi for each live variable whose definitions meet there,
and then its old instructions with new versions (`Ready.exists_placedBlock`). Where a live variable has
no phi, all edges into the block bring the version that the block starts with
(`Ready.start_of_edge`). Phis and versions do not depend on the order in which the frontiers are
built (`placePhis_unordered`).
-/

namespace BasicSSA.IL

open IL.Graph

/-- No instruction is a phi. -/
def Function.PhiFree (f : Function) : Prop :=
  ∀ b ∈ f.blocks, ∀ i ∈ b.instrs, i.op ≠ .phi

/-- No branch leads to the first block. -/
def Function.EntryUntargeted (f : Function) : Prop :=
  ∀ b ∈ f.blocks, f.label 0 ∉ b.targets

instance : DecidablePred Function.PhiFree := fun f =>
  inferInstanceAs (Decidable (∀ b ∈ f.blocks, ∀ i ∈ b.instrs, i.op ≠ .phi))

instance : DecidablePred Function.EntryUntargeted := fun f =>
  inferInstanceAs (Decidable (∀ b ∈ f.blocks, f.label 0 ∉ b.targets))

/-- A loop that counts its parameter down to zero. -/
def countdown : Function where
  name := "Countdown"
  params := [⟨"n", ⟨.i32, "Integer"⟩⟩]
  blocks :=
    [{ label := "entry", instrs := [{ op := .br, labels := ["test"] }] },
     { label := "test",
       instrs :=
        [{ op := .cmpGt, type := .boolean, result := some (.temp 0 .boolean),
           operands := [.var "n" 0 ⟨.i32, "Integer"⟩, .int 0 ⟨.i32, "Integer"⟩] },
         { op := .cbr, operands := [.temp 0 .boolean], labels := ["body", "end"] }] },
     { label := "body",
       instrs :=
        [{ op := .sub, type := ⟨.i32, "Integer"⟩, result := some (.temp 1 ⟨.i32, "Integer"⟩),
           operands := [.var "n" 0 ⟨.i32, "Integer"⟩, .int 1 ⟨.i32, "Integer"⟩] },
         { op := .assign, type := ⟨.i32, "Integer"⟩, result := some (.var "n" 0 ⟨.i32, "Integer"⟩),
           operands := [.temp 1 ⟨.i32, "Integer"⟩] },
         { op := .br, labels := ["test"] }] },
     { label := "end", instrs := [{ op := .ret }] }]

/-! ### Variables -/

theorem mem_firstOfEach :
    x ∈ (firstOfEach seen vs).map (·.1) ↔ x ∈ vs.map (·.1) ∧ x ∉ seen := by
  induction vs generalizing seen with
  | nil => simp [firstOfEach]
  | cons v vs ih =>
    rw [firstOfEach]
    split <;> simp_all <;> grind

theorem nodup_firstOfEach (seen : List String) (vs : List (String × Ty)) :
    ((firstOfEach seen vs).map (·.1)).Nodup := by
  induction vs generalizing seen with
  | nil => simp [firstOfEach]
  | cons v vs ih =>
    rw [firstOfEach]
    split
    · exact ih seen
    · rw [List.map_cons, List.nodup_cons, mem_firstOfEach]
      exact ⟨by simp, ih _⟩

/-- What is read before it is defined is among the variables of some instruction. -/
theorem exists_mem_vars_of_readsFirst {is : List Instr} (h : readsFirst x is = true) :
    ∃ i ∈ is, x ∈ (varsOf i.operands).map (·.1) := by
  induction is with
  | nil => cases h
  | cons i is ih =>
    simp only [readsFirst, Bool.or_eq_true, Bool.and_eq_true, List.any_eq_true,
      decide_eq_true_eq] at h
    rcases h with ⟨v, hv, rfl⟩ | ⟨_, h⟩
    · exact ⟨i, List.mem_cons_self, List.mem_map.mpr ⟨v, hv, rfl⟩⟩
    · obtain ⟨j, hj, hx⟩ := ih h
      exact ⟨j, List.mem_cons_of_mem _ hj, hx⟩

theorem Block.insertPhis_of_phiFree {b : Block} (hb : ∀ i ∈ b.instrs, i.op ≠ .phi)
    (phis : List Instr) : b.insertPhis phis = { b with instrs := phis ++ b.instrs } := by
  have htake : b.instrs.takeWhile (·.op = .phi) = [] := by
    cases h : b.instrs with
    | nil => rfl
    | cons i is => simp [hb i (by simp [h])]
  have hdrop := List.takeWhile_append_dropWhile (p := (·.op = .phi)) (l := b.instrs)
  rw [htake, List.nil_append] at hdrop
  rw [insertPhis, htake, hdrop, List.nil_append]

namespace Function

variable {f : Function}

theorem mem_reachable :
    (b, n) ∈ f.reachable t ↔ f.blocks[n]? = some b ∧ t.contains n = true := by
  simp [reachable, List.mem_zipIdx_iff_getElem?]

theorem block_eq (h : f.blocks[n]? = some b) : f.block n = b := by
  simp [block, h]

theorem getElem?_blocks (h : n < f.blocks.length) : f.blocks[n]? = some (f.block n) := by
  simp [block, h]

theorem mem_allVars_of_isLive (h : f.isLive t x = true) :
    x ∈ (f.allVars t).map (·.1) := by
  simp only [isLive, List.any_eq_true] at h
  obtain ⟨⟨b, n⟩, hb, hx⟩ := h
  obtain ⟨i, hi, hx⟩ := exists_mem_vars_of_readsFirst hx
  obtain ⟨v, hv, rfl⟩ := List.mem_map.mp hx
  refine mem_firstOfEach.mpr ⟨List.mem_map.mpr ⟨v, List.mem_append_right _ ?_, rfl⟩, by simp⟩
  exact List.mem_flatMap.mpr ⟨_, hb, List.mem_flatMap.mpr ⟨i, hi, List.mem_append_left _ hv⟩⟩

/-- The frontiers along which phis are placed. -/
def frontiers (f : Function) : Frontiers :=
  f.graph.frontiers f.graph.domTree

/-- The blocks where definitions of a variable meet. -/
def meets (f : Function) (x : String) : List Nat :=
  iteratedFrontier f.frontiers (f.defBlocks f.graph.domTree x)

/-- The variables that get a phi in a block. -/
def phiVars (f : Function) (n : Nat) : List (String × Ty) :=
  ((f.joins f.graph.domTree f.frontiers).filter fun j => j.2.contains n).map (·.1)

theorem mem_phiVars :
    x ∈ (f.phiVars n).map (·.1) ↔ f.isLive f.graph.domTree x = true ∧ n ∈ f.meets x := by
  simp only [phiVars, joins, List.map_map, List.mem_map, List.mem_filter, List.filter_map,
    Function.comp_def]
  constructor
  · rintro ⟨v, ⟨hv, hn⟩, rfl⟩
    exact ⟨hv.2, by simpa [meets] using hn⟩
  · rintro ⟨hl, hn⟩
    obtain ⟨v, hv, rfl⟩ := List.mem_map.mp (mem_allVars_of_isLive hl)
    exact ⟨v, ⟨⟨hv, hl⟩, by simpa [meets] using hn⟩, rfl⟩

theorem nodup_phiVars : ((f.phiVars n).map (·.1)).Nodup := by
  have h : ((f.allVars f.graph.domTree).map (·.1)).Nodup := nodup_firstOfEach _ _
  refine List.Nodup.sublist ?_ h
  simp only [phiVars, joins, List.filter_map, List.map_map]
  exact ((List.filter_sublist.trans List.filter_sublist).map _)

/-- The function with its new phis, before it is renamed. -/
def withPhis (f : Function) : Function :=
  (f.insertPhis f.graph f.graph.domTree f.frontiers).1

/-- The labels of the blocks that a run may come from. -/
def predLabels (f : Function) (n : Nat) : List String :=
  (f.graph.reachablePreds f.graph.domTree n).map f.label

theorem withPhis_eq (f : Function) :
    f.withPhis =
      { f with
        blocks := f.blocks.zipIdx.map fun (b, n) =>
          b.insertPhis ((f.phiVars n).map (newPhi (f.predLabels n))) } := by
  simp only [withPhis, insertPhis, phiVars, predLabels, List.map_map]
  rfl

@[simp] theorem length_withPhis (f : Function) : f.withPhis.blocks.length = f.blocks.length := by
  simp [withPhis_eq]

@[simp] theorem params_withPhis (f : Function) : f.withPhis.params = f.params := by
  simp [withPhis_eq]

theorem block_withPhis (hn : n < f.blocks.length) : f.withPhis.block n =
    (f.block n).insertPhis ((f.phiVars n).map (newPhi (f.predLabels n))) := by
  simp [withPhis_eq, block, hn]

theorem PhiFree.instrs (hf : f.PhiFree) (n : Nat) : ∀ i ∈ (f.block n).instrs, i.op ≠ .phi := by
  by_cases hn : n < f.blocks.length
  · exact hf _ (List.mem_of_getElem? (getElem?_blocks hn))
  · simp [block, hn, show (default : Block).instrs = [] from rfl]

theorem PhiFree.block_withPhis (hf : f.PhiFree) (hn : n < f.blocks.length) :
    f.withPhis.block n =
      { label := f.label n
        instrs := (f.phiVars n).map (newPhi (f.predLabels n)) ++ (f.block n).instrs } := by
  rw [Function.block_withPhis hn, Block.insertPhis_of_phiFree (hf.instrs n)]
  rfl

theorem label_withPhis (hn : n < f.blocks.length) : f.withPhis.label n = f.label n := by
  rw [label, block_withPhis hn]
  rfl

end Function

/-! ### Renaming the phis of a block -/

theorem defines_map {vs : List (String × Ty)} {g : String × Ty → Instr}
    (hg : ∀ v, (g v).definedVar? = some v) : Defines (vs.map g) x ↔ x ∈ vs.map (·.1) := by
  simp only [Defines, List.mem_map]
  constructor
  · rintro ⟨_, ⟨v, hv, rfl⟩, t, ht⟩
    exact ⟨v, hv, congrArg Prod.fst (Option.some.inj ((hg v).symm.trans ht))⟩
  · rintro ⟨v, hv, rfl⟩
    exact ⟨_, ⟨v, hv, rfl⟩, v.2, hg v⟩

theorem definedVar?_newPhi (v : String × Ty) : (newPhi labels v).definedVar? = some v :=
  rfl

/-- The phis of different variables define the versions that reach the rest of the block. -/
theorem renameInstrs_phis (labels : List String) {vs : List (String × Ty)}
    (hvs : (vs.map (·.1)).Nodup) (env last : Versions) :
    (renameInstrs env last (vs.map (newPhi labels))).1 = vs.map fun v =>
      { newPhi labels v with
        result := some (.var v.1
          ((renameInstrs env last (vs.map (newPhi labels))).2.1.of v.1) v.2) } := by
  induction vs generalizing env last with
  | nil => rfl
  | cons v vs ih =>
    obtain ⟨hv, hvs'⟩ := List.nodup_cons.mp hvs
    obtain ⟨x, t⟩ := v
    have hhead : renameInstr env last (newPhi labels (x, t)) =
        ({ newPhi labels (x, t) with result := some (.var x (last.of x + 1) t) },
          (x, last.of x + 1) :: env, (x, last.of x + 1) :: last) := rfl
    have hkept := (renameInstrs_numbered ((x, last.of x + 1) :: env) ((x, last.of x + 1) :: last)
      (vs.map (newPhi labels))).kept x (fun h => hv ((defines_map definedVar?_newPhi).mp h))
    rw [Versions.of_cons_self] at hkept
    simp only [List.map_cons, renameInstrs_cons, hhead, hkept]
    exact congrArg _ (ih hvs' _ _)

/-- The operands of a new phi get the versions at the ends of the predecessors. -/
theorem fillPhi_newPhi {ps : List Nat}
    {stop : Nat → Versions} (hends : ∀ p ∈ ps, ends.lookup (label p) = some (stop p))
    (v : String × Ty) (n : Nat) :
    fillPhi ends { newPhi (ps.map label) v with result := some (.var v.1 n v.2) } =
      { newPhi (ps.map label) v with
        result := some (.var v.1 n v.2)
        operands := ps.map fun p => .var v.1 ((stop p).of v.1) v.2 } := by
  obtain ⟨x, t⟩ := v
  simp only [fillPhi, newPhi, Instr.mk.injEq, true_and, and_true]
  refine List.ext_getElem? fun k => ?_
  simp only [List.getElem?_map, List.getElem?_zipIdx]
  cases hk : ps[k]? with
  | none => rfl
  | some p => simp [hk, hends p (List.mem_of_getElem? hk), Value.renumber, Value.name]

theorem fillPhis_append
    (hps : ∀ i ∈ ps, i.op = .phi) (his : ∀ i ∈ is, i.op ≠ .phi) :
    fillPhis ends (ps ++ is) = ps.map (fillPhi ends) ++ is := by
  induction ps with
  | nil =>
    cases is with
    | nil => rfl
    | cons i is => simp [fillPhis, his i]
  | cons p ps ih =>
    rw [List.cons_append, fillPhis, if_pos (hps p List.mem_cons_self),
      ih fun i hi => hps i (List.mem_cons_of_mem _ hi)]
    rfl

/-! ### The blocks of the result -/

namespace Function

variable {f : Function}

/-- The versions at the end of a block, when the phis are there. -/
def stop (f : Function) (n : Nat) : Versions :=
  f.withPhis.endVersions f.graph.domTree n

/-- The versions at the start of a block, before its phis. -/
def start (f : Function) (n : Nat) : Versions :=
  f.withPhis.startVersions f.graph.domTree n

/-- A phi of the result, where some versions reach the rest of the block. -/
def placedPhi (f : Function) (n : Nat) (mid : Versions) (v : String × Ty) : Instr :=
  { newPhi (f.predLabels n) v with
    result := some (.var v.1 (mid.of v.1) v.2)
    operands := (f.graph.reachablePreds f.graph.domTree n).map fun p =>
      .var v.1 ((f.stop p).of v.1) v.2 }

/-- A block of the result: its phis, and its old instructions renamed from the versions after the
phis. -/
structure PlacedBlock (f : Function) (n : Nat) (mid last : Versions) : Prop where
  block : f.placePhis.1.block n =
    { label := f.label n
      instrs := (f.phiVars n).map (f.placedPhi n mid) ++
        (renameInstrs mid last (f.block n).instrs).1 }
  stop : (renameInstrs mid last (f.block n).instrs).2.1 = f.stop n
  kept : ∀ x, x ∉ (f.phiVars n).map (·.1) → mid.of x = (f.start n).of x

theorem op_placedPhis (f : Function) (n : Nat) (mid : Versions) (vs : List (String × Ty)) :
    ∀ i ∈ vs.map (f.placedPhi n mid), i.op = .phi := by
  intro i hi
  obtain ⟨v, -, rfl⟩ := List.mem_map.mp hi
  rfl

theorem placePhis_eq (hne : f.blocks ≠ []) :
    f.placePhis.1 = (f.withPhis.rename f.graph f.graph.domTree).1 := by
  simp only [placePhis, placePhisAlong, List.isEmpty_iff, hne, if_false]
  rfl

/-- The versions at the ends of the predecessors of a block. -/
def predEnds (f : Function) (n : Nat) : List (String × Versions) :=
  (f.graph.preds n).filterMap fun p =>
    ((f.withPhis.numbering f.graph.domTree).done.lookup p).map fun (_, env) =>
      (f.withPhis.label p, env)

theorem rename_eq (f : Function) :
    (f.withPhis.rename f.graph f.graph.domTree).1 =
      { f.withPhis with
        blocks := f.withPhis.blocks.zipIdx.map fun (b, n) =>
          match (f.withPhis.numbering f.graph.domTree).done.lookup n with
          | some (instrs, _) => { b with instrs := fillPhis (f.predEnds n) instrs }
          | none => b } :=
  rfl

theorem EntryUntargeted.succ_ne_entry (hentry : f.EntryUntargeted) (he : b ∈ f.graph.succs p) :
    b ≠ 0 := by
  rintro rfl
  obtain ⟨l, hl, hidx⟩ := mem_succs_graph.mp he
  have hp : p < f.blocks.length := by
    refine Nat.lt_of_not_le fun h => ?_
    rw [block, List.getD_eq_getElem?_getD, List.getElem?_eq_none h] at hl
    cases hl
  obtain ⟨h0, hlabel, _⟩ := List.findIdx?_eq_some_iff_getElem.mp hidx
  have hl0 : f.label 0 = l := by
    simpa [label, block, h0] using hlabel
  exact hentry _ (List.mem_of_getElem? (getElem?_blocks hp)) (hl0 ▸ hl)

/-- What the placing of phis relies on: blocks with distinct labels, and no phis yet. -/
structure Ready (f : Function) : Prop where
  nonempty : f.blocks ≠ []
  labels : (f.blocks.map (·.label)).Nodup
  phiFree : f.PhiFree

namespace Ready

variable (hf : f.Ready)
include hf

theorem pos : 0 < f.graph.size := by
  rw [size_graph]
  exact List.length_pos_iff.mpr hf.nonempty

theorem lt_length (hb : f.graph.Reachable b) : b < f.blocks.length := by
  rw [← size_graph]
  exact hb.lt_size f.closed_graph hf.pos

theorem label_inj (hp : p < f.blocks.length) (hq : q < f.blocks.length)
    (h : f.label p = f.label q) : p = q := by
  refine (List.getElem?_inj (l := f.blocks.map (·.label)) (by simpa using hp) hf.labels).mp ?_
  rw [List.getElem?_map, List.getElem?_map, getElem?_blocks hp, getElem?_blocks hq]
  exact congrArg some h

theorem lookup_predEnds (hp : f.graph.Reachable p) (he : n ∈ f.graph.succs p) :
    (f.predEnds n).lookup (f.label p) = some (f.stop p) := by
  have hlookup := lookup_numbering f.closed_graph hf.pos
    (f.length_withPhis.trans f.size_graph.symm) hp
  have hlt := hf.lt_length hp
  have hmem : p ∈ f.graph.preds n := mem_preds.mpr he
  have hall : ∀ q ∈ f.graph.preds n, q < f.blocks.length := by
    intro q hq
    have := (List.mem_filter.mp hq).1
    rwa [List.mem_range, size_graph] at this
  unfold predEnds
  generalize f.graph.preds n = ps at hmem hall
  -- the labels differ, so the first entry with the label of `p` is that of `p`
  induction ps with
  | nil => cases hmem
  | cons q ps ih =>
    have hq := hall q List.mem_cons_self
    have ih := (ih · fun q hq => hall q (List.mem_cons_of_mem _ hq))
    rw [List.filterMap_cons]
    by_cases hqp : q = p
    · subst hqp
      rw [hlookup, Option.map_some, label_withPhis hlt]
      exact List.lookup_cons_self
    · have hmem := (List.mem_cons.mp hmem).resolve_left (Ne.symm hqp)
      have hne : f.label p ≠ f.label q := fun h => hqp (hf.label_inj hlt hq h).symm
      cases (f.withPhis.numbering f.graph.domTree).done.lookup q with
      | none => exact ih hmem
      | some e =>
        rw [Option.map_some, label_withPhis hq, List.lookup_cons, beq_false_of_ne hne]
        exact ih hmem

theorem block_placePhis (hb : f.graph.Reachable n) :
    f.placePhis.1.block n =
      { label := f.label n
        instrs := fillPhis (f.predEnds n) (f.withPhis.renamedInstrs f.graph.domTree n) } := by
  have hlookup := lookup_numbering f.closed_graph hf.pos
    (f.length_withPhis.trans f.size_graph.symm) hb
  have hn := hf.lt_length hb
  have hblock := getElem?_blocks (f := f.withPhis) (n := n) (by simpa using hn)
  rw [placePhis_eq hf.nonempty, rename_eq, block]
  simp [List.getElem?_zipIdx, hblock, hlookup, hf.phiFree.block_withPhis hn]

/-- A reachable block of the result is made of its phis and its renamed instructions. -/
theorem exists_placedBlock (hb : f.graph.Reachable n) : ∃ mid last, f.PlacedBlock n mid last := by
  obtain ⟨last, hi, hv⟩ := rename_block f.closed_graph hf.pos
    (f.length_withPhis.trans f.size_graph.symm) hb
  have hn := hf.lt_length hb
  rw [hf.phiFree.block_withPhis hn, renameInstrs_append] at hi hv
  generalize hphis : renameInstrs (f.withPhis.startVersions f.graph.domTree n) last
    ((f.phiVars n).map (newPhi (f.predLabels n))) = res at hi hv
  obtain ⟨phis, mid, l⟩ := res
  have hnum := renameInstrs_numbered (f.withPhis.startVersions f.graph.domTree n) last
    ((f.phiVars n).map (newPhi (f.predLabels n)))
  have heq := renameInstrs_phis (f.predLabels n) (f.nodup_phiVars (n := n))
    (f.withPhis.startVersions f.graph.domTree n) last
  rw [hphis] at hnum heq
  refine ⟨mid, l, ?_, hv, fun x hx => hnum.kept x fun h => hx ((defines_map definedVar?_newPhi).mp h)⟩
  have hfill : (phis.map (fillPhi (f.predEnds n))) = (f.phiVars n).map (f.placedPhi n mid) := by
    rw [show phis = _ from heq, List.map_map]
    refine List.map_congr_left fun v _ => fillPhi_newPhi (fun p hp => ?_) v (mid.of v.1)
    obtain ⟨hp, he⟩ := (mem_reachablePreds f.closed_graph hf.pos).mp hp
    exact hf.lookup_predEnds hp he
  rw [hf.block_placePhis hb, ← hi, fillPhis_append, hfill]
  · intro i hi
    obtain ⟨v, _, rfl⟩ := List.mem_map.mp (show i ∈ _ from heq ▸ hi)
    rfl
  · exact renameInstrs_ne_phi _ _ (hf.phiFree.instrs n)

theorem edge_of_phiVars (h : v ∈ f.phiVars n) :
    ∃ p, f.graph.Reachable p ∧ n ∈ f.graph.succs p :=
  exists_edge_of_mem_iteratedFrontier f.closed_graph hf.pos
    (mem_phiVars.mp (List.mem_map_of_mem h)).2

theorem phiVars_entry (hentry : f.EntryUntargeted) : f.phiVars 0 = [] := by
  refine List.eq_nil_iff_forall_not_mem.mpr fun v hv => ?_
  obtain ⟨p, _, he⟩ := hf.edge_of_phiVars hv
  exact hentry.succ_ne_entry he rfl

/-! ### Versions along edges -/

/-- A block that neither defines a variable nor has a phi for it passes its version on. -/
theorem stop_eq_start (hb : f.graph.Reachable b) (hphi : x ∉ (f.phiVars b).map (·.1))
    (hdef : ¬Defines (f.block b).instrs x) : (f.stop b).of x = (f.start b).of x := by
  obtain ⟨mid, last, h⟩ := hf.exists_placedBlock hb
  rw [← h.stop, (renameInstrs_numbered mid last _).kept x hdef, h.kept x hphi]

theorem start_eq_stop (h : f.graph.ImmDominates d b) : f.start b = f.stop d := by
  rw [start, startVersions, (parent?_domTree f.closed_graph hf.pos).mpr h]
  rfl

theorem start_entry (x : String) : (f.start 0).of x = 0 := by
  rw [start, startVersions, parent?_entry f.closed_graph hf.pos, Option.elim_none, paramVersions]
  induction f.withPhis.params with
  | nil => rfl
  | cons p ps ih =>
    rw [List.map_cons, Versions.of_cons, ih, ite_self]

theorem mem_defBlocks (hb : f.graph.Reachable b) (h : Defines (f.block b).instrs x) :
    b ∈ f.defBlocks f.graph.domTree x := by
  refine List.mem_append_right _ (List.mem_map.mpr ⟨(f.block b, b), ?_, rfl⟩)
  refine List.mem_filter.mpr ⟨mem_reachable.mpr ⟨getElem?_blocks (hf.lt_length hb), ?_⟩, ?_⟩
  · exact (contains_domTree f.closed_graph hf.pos).mpr hb
  · exact Block.defines_iff.mpr h

/-- Above an edge into a block where the definitions of a variable do not meet, up to the parent of
that block, no block defines the variable and they do not meet. -/
theorem not_defined_above (hb0 : b ≠ 0) (hp : f.graph.Reachable p) (he : b ∈ f.graph.succs p)
    (hb : b ∉ f.meets x) (hc : f.graph.Dominates c p) (hcb : f.graph.Dominates c b → c = b) :
    c ∉ f.meets x ∧ ¬Defines (f.block c).instrs x := by
  have hfront := mem_frontiers_of_edge f.closed_graph hf.pos hb0 hp he hc hcb
  refine ⟨fun h => hb ?_, fun h => hb ?_⟩
  · exact iteratedFrontier_closed _ _ (.inr h) hfront
  · exact iteratedFrontier_closed _ _ (.inl (hf.mem_defBlocks (hc.reachable hp) h)) hfront

/-- Where a live variable has no phi, the block starts with the version at the end of each
predecessor. -/
theorem start_of_edge (hentry : f.EntryUntargeted) (hp : f.graph.Reachable p)
    (he : b ∈ f.graph.succs p) (hlive : f.isLive f.graph.domTree x = true)
    (hphi : x ∉ (f.phiVars b).map (·.1)) : (f.start b).of x = (f.stop p).of x := by
  have hb0 := hentry.succ_ne_entry he
  have hb := hp.step he
  have hmeets : b ∉ f.meets x := fun h => hphi (mem_phiVars.mpr ⟨hlive, h⟩)
  obtain ⟨d, hd⟩ := exists_parent f.closed_graph hf.pos hb hb0
  have hd := (parent?_domTree f.closed_graph hf.pos).mp hd
  rw [hf.start_eq_stop hd]
  -- up from `p` to the parent of `b` nothing changes the version
  suffices ∀ c, f.graph.Reachable c → f.graph.Dominates c p → f.graph.Dominates d c →
      (f.stop d).of x = (f.stop c).of x from
    this p hp (.refl _ p) (hd.dominates.of_succ hd.ne he)
  refine parent_induction f.closed_graph hf.pos ?_ ?_
  · intro _ hd0
    rw [hd0.eq_entry]
  · intro c e hc ih hcp hdc
    by_cases hcd : c = d
    · rw [hcd]
    have hcb : f.graph.Dominates c b → c = b := by
      intro h
      refine Classical.byContradiction fun hne => hcd ?_
      exact (hd.closest c hne h).antisymm (hdc.reachable hc.reachable) hdc
    obtain ⟨hcm, hcdef⟩ := hf.not_defined_above hb0 hp he hmeets hcp hcb
    have hcphi : x ∉ (f.phiVars c).map (·.1) := fun h => hcm (mem_phiVars.mp h).2
    rw [hf.stop_eq_start hc.reachable hcphi hcdef, hf.start_eq_stop hc]
    exact ih (hc.dominates.trans hcp) (hc.closest d (Ne.symm hcd) hdc)

end Ready

end Function

/-! ### The order of the frontiers -/

namespace Function

variable {f : Function}

/-- Phis are placed at the same blocks, whatever the order in which these are found. -/
theorem insertPhis_congr
    (h : ∀ defs, (iteratedFrontier df defs).Perm (iteratedFrontier df' defs)) (g : Graph)
    (t : DomTree) : f.insertPhis g t df = f.insertPhis g t df' := by
  have hnew (preds : List String) (n : Nat) :
      ((f.joins t df).filter (·.2.contains n)).map (newPhi preds ·.1) =
        ((f.joins t df').filter (·.2.contains n)).map (newPhi preds ·.1) := by
    simp only [joins, List.filter_map, List.map_map]
    refine congrArg _ (List.filter_congr fun v _ => ?_)
    exact (h _).contains_eq
  have hcount : (f.joins t df).map (·.2.length) = (f.joins t df').map (·.2.length) := by
    simp only [joins, List.map_map]
    exact List.map_congr_left fun v _ => (h _).length_eq
  simp only [insertPhis, hnew, hcount]

theorem placePhisAlong_congr
    (h : ∀ n b, b ∈ df.getD n [] ↔ b ∈ df'.getD n []) :
    f.placePhisAlong df = f.placePhisAlong df' := by
  simp only [placePhisAlong, insertPhis_congr (iteratedFrontier_perm h)]

end Function

theorem Graph.mem_frontiers_congr {g : Graph}
    (h : order.Perm t.order) :
    b ∈ (g.frontiers { t with order }).getD n [] ↔ b ∈ (g.frontiers t).getD n [] := by
  have hcontains : DomTree.contains { t with order } = t.contains :=
    funext fun _ => h.contains_eq
  have hchain (fuel : Nat) : DomTree.chainAux { t with order } fuel = t.chainAux fuel := by
    induction fuel with
    | zero => rfl
    | succ fuel ih =>
      funext c
      rw [DomTree.chainAux, ih]
      rfl
  have hrunners (c : Nat) : g.runners { t with order } c = g.runners t c := by
    simp only [runners, reachablePreds, hcontains, DomTree.chain, hchain]
    rfl
  by_cases hn : n < g.size <;> simp [frontiers, hrunners, hn, h.mem_iff]

/-- Placing phis does not depend on an order in which the frontiers are built: neither on the order
of the blocks nor on the order inside each frontier. -/
theorem placePhis_unordered (f : Function) :
    (∀ order : List Nat, order.Perm f.graph.domTree.order →
      f.placePhisAlong (f.graph.frontiers { f.graph.domTree with order }) = f.placePhis) ∧
    ∀ df : Frontiers, (∀ n, (df.getD n []).Perm (f.frontiers.getD n [])) →
      f.placePhisAlong df = f.placePhis :=
  ⟨fun _ h => f.placePhisAlong_congr fun _ _ => Graph.mem_frontiers_congr h,
    fun _ h => f.placePhisAlong_congr fun n _ => (h n).mem_iff⟩

/-- A loop of two entries that both change a variable. -/
def braid : Function where
  name := "Braid"
  params := [⟨"x", ⟨.i32, "Integer"⟩⟩]
  blocks :=
    [{ label := "entry", instrs := [{ op := .cbr, operands := [.bool true], labels := ["a", "b"] }] },
     { label := "a",
       instrs :=
        [{ op := .assign, type := ⟨.i32, "Integer"⟩, result := some (.var "x" 0 ⟨.i32, "Integer"⟩),
           operands := [.var "x" 0 ⟨.i32, "Integer"⟩] },
         { op := .cbr, operands := [.bool true], labels := ["b", "a"] }] },
     { label := "b",
       instrs :=
        [{ op := .assign, type := ⟨.i32, "Integer"⟩, result := some (.var "x" 0 ⟨.i32, "Integer"⟩),
           operands := [.var "x" 0 ⟨.i32, "Integer"⟩] },
         { op := .cbr, operands := [.bool true], labels := ["a", "end"] }] },
     { label := "end", instrs := [{ op := .ret }] }]

theorem placePhis_braid : braid.frontiers = #[[], [1, 2], [1], []] ∧
    braid.placePhis.2.inserted = 2 ∧ [3, 2, 1, 0].Perm braid.graph.domTree.order ∧
    braid.placePhisAlong (braid.graph.frontiers { braid.graph.domTree with order := [3, 2, 1, 0] }) =
      braid.placePhis ∧
    braid.placePhisAlong #[[], [2, 1], [1], []] = braid.placePhis := by
  have hfrontiers : braid.frontiers = #[[], [1, 2], [1], []] := by decide +kernel
  have horder : [3, 2, 1, 0].Perm braid.graph.domTree.order := by decide +kernel
  obtain ⟨hblocks, hlists⟩ := placePhis_unordered braid
  refine ⟨hfrontiers, by decide +kernel, horder, hblocks _ horder, hlists _ fun n => ?_⟩
  rw [hfrontiers]
  match n with
  | 0 | 1 | 2 | 3 => decide
  | n + 4 => exact .nil

end BasicSSA.IL
