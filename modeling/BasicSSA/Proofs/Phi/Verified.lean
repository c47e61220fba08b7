import BasicSSA.Proofs.Phi.StrictSSA

/-!
# Phis and the verifier

The verifier does not look at versions, and it has no objection to the phis that are placed. If each
block has code of its own, it says the same about a module before and after, whatever phis the module
has (`verify_placePhis`). So a module that is accepted stays so (`placePhis_accepted`).
-/

namespace BasicSSA.IL

open IL.Graph hiding preds

/-! ### Instructions -/

theorem instrFault?_outline (m : Module) (f : Function) (i : Instr) :
    instrFault? m f i.outline = instrFault? m f i := by
  have hresult : (i.result.map (Value.renumber 0)).any Value.isVar = i.result.any Value.isVar := by
    cases i.result with
    | none => rfl
    | some v => cases v <;> rfl
  unfold instrFault?
  cases hop : i.op with
  | store =>
    simp only [Instr.outline, hop]
    rcases i.operands with _ | ⟨v, _ | ⟨_, _ | _⟩⟩
    · rfl
    all_goals cases v <;> rfl
  | _ => simp [Instr.outline, hop, targetFault?, hresult]

theorem instrsError?_outline (after : Bool) (is : List Instr) :
    instrsError? m f preds after (is.map Instr.outline) = instrsError? m f preds after is := by
  induction is generalizing after with
  | nil => rfl
  | cons i is ih =>
    have hplace (isLast : Bool) : placeFault? f preds isLast after i.outline =
        placeFault? f preds isLast after i := rfl
    rw [List.map_cons, instrsError?, instrsError?, ih, List.isEmpty_map, hplace, instrFault?_outline]
    rfl

/-- A phi whose labels are those of predecessors, at the start of a block. -/
structure Instr.FitsPhi (f : Function) (n : Nat) (i : Instr) : Prop where
  op : i.op = .phi
  operands : i.operands.length = i.labels.length
  result : i.result.any Value.isVar = true
  labels : ∀ l ∈ i.labels, ∃ p ∈ f.graph.preds n, f.blockIdx? l = some p

theorem instrsError?_phis (h : ∀ i ∈ phis, i.FitsPhi f n) (his : is ≠ []) :
    instrsError? m f (f.graph.preds n) false (phis ++ is) =
      instrsError? m f (f.graph.preds n) false is := by
  induction phis with
  | nil => rfl
  | cons i phis ih =>
    obtain ⟨hi, hphis⟩ := List.forall_mem_cons.mp h
    have hplace : placeFault? f (f.graph.preds n) (phis ++ is).isEmpty false i = none := by
      have hempty : (phis ++ is).isEmpty = false := by simp [his]
      have hlabels : i.labels.find? (fun l => !(f.blockIdx? l).any (f.graph.preds n).contains) =
          none := by
        refine List.find?_eq_none.mpr fun l hl => ?_
        obtain ⟨p, hp, hidx⟩ := hi.labels l hl
        simp [hidx, hp]
      rw [placeFault?, hi.op, hempty, hlabels]
      rfl
    have hinstr : instrFault? m f i = none := by
      simp [instrFault?, hi.op, hi.operands, hi.result]
    rw [List.cons_append, instrsError?, hplace, hinstr, ← ih hphis]
    simp [hi.op]

theorem instrsError?_insertPhis {b : Block} (h : ∀ i ∈ phis, i.FitsPhi f n)
    (hb : b.instrs.dropWhile (·.op = .phi) ≠ []) :
    instrsError? m f (f.graph.preds n) false (b.insertPhis phis).instrs =
      instrsError? m f (f.graph.preds n) false b.instrs := by
  rw [Block.insertPhis]
  nth_rewrite 3 [← List.takeWhile_append_dropWhile (p := (·.op = .phi)) (l := b.instrs)]
  have hold := List.all_takeWhile (p := (·.op = .phi)) (l := b.instrs)
  generalize b.instrs.takeWhile (·.op = .phi) = old at hold ⊢
  induction old with
  | nil => exact instrsError?_phis h hb
  | cons i old ih =>
    simp only [List.all_cons, Bool.and_eq_true, decide_eq_true_eq] at hold
    have ih := ih hold.2
    simp only [List.append_assoc, List.cons_append] at ih ⊢
    rw [instrsError?, instrsError?, hold.1, List.isEmpty_eq_false_iff.mpr (by simp [hb]),
      List.isEmpty_eq_false_iff.mpr (by simp [hb])]
    simp only [ne_eq, not_true, decide_false, Bool.or_false, ih]

/-! ### Functions -/

theorem instrsError?_congr (hm : m'.globals = m.globals) (htype : f'.returnType = f.returnType)
    (hidx : f'.blockIdx? = f.blockIdx?) (after : Bool) (is : List Instr) :
    instrsError? m' f' preds after is = instrsError? m f preds after is := by
  have hplace (isLast after : Bool) (i : Instr) :
      placeFault? f' preds isLast after i = placeFault? f preds isLast after i := by
    rw [placeFault?, placeFault?, hidx]
  have hglobal : m'.global? = m.global? := by
    unfold Module.global?
    rw [hm]
  have htarget : targetFault? f' = targetFault? f := by
    unfold targetFault? Function.hasBlock
    rw [hidx]
  have hinstr (i : Instr) : instrFault? m' f' i = instrFault? m f i := by
    rw [instrFault?, instrFault?, hglobal, htarget, htype]
  induction is generalizing after with
  | nil => rfl
  | cons i is ih => rw [instrsError?, instrsError?, hplace, hinstr, ih]

theorem Function.placePhis_kept (f : Function) :
    f.placePhis.1.name = f.name ∧ f.placePhis.1.returnType = f.returnType := by
  by_cases hne : f.blocks = []
  · simp [placePhis, placePhisAlong, hne]
  · rw [placePhis_eq hne, rename_eq, withPhis_eq]
    exact ⟨rfl, rfl⟩

namespace Function

theorem fitsPhi_newPhi (hlabels : (f.blocks.map (·.label)).Nodup) (hn : n < f.blocks.length)
    (v : String × Ty) : (newPhi (f.predLabels n) v).FitsPhi f n := by
  refine ⟨rfl, by simp [newPhi], rfl, fun l hl => ?_⟩
  have h0 : 0 < f.graph.size := f.size_graph ▸ Nat.zero_lt_of_lt hn
  obtain ⟨p, hp, rfl⟩ := List.mem_map.mp hl
  obtain ⟨hp, he⟩ := (mem_reachablePreds f.closed_graph h0).mp hp
  refine ⟨p, mem_preds.mpr he, blockIdx?_label hlabels ?_⟩
  exact f.size_graph ▸ hp.lt_size f.closed_graph h0

theorem blockError?_placePhis (hm : m'.globals = m.globals)
    (hlabels : (f.blocks.map (·.label)).Nodup) (hcode : f.Coded) (hn : n < f.blocks.length) :
    blockError? m' f.placePhis.1 n (f.placePhis.1.block n) = blockError? m f n (f.block n) := by
  obtain ⟨hname, htype⟩ := f.placePhis_kept
  have hphis : ∀ i ∈ (f.phiVars n).map (newPhi (f.predLabels n)), i.FitsPhi f n := by
    intro i hi
    obtain ⟨v, -, rfl⟩ := List.mem_map.mp hi
    exact fitsPhi_newPhi hlabels hn v
  have herror : instrsError? m' f.placePhis.1 (f.graph.preds n) false
      (f.placePhis.1.block n).instrs =
        instrsError? m f (f.graph.preds n) false (f.block n).instrs := by
    rw [instrsError?_congr hm htype (blockIdx?_placePhis f), ← instrsError?_outline,
      outline_placePhis hn, instrsError?_outline, block_withPhis hn,
      instrsError?_insertPhis hphis (hcode.dropWhile_ne_nil hn)]
  have hne : (f.placePhis.1.block n).instrs ≠ [] := by
    intro he
    have h := outline_placePhis hn
    simp [he, block_withPhis hn, Block.insertPhis, hcode.dropWhile_ne_nil hn] at h
  obtain ⟨i, hi, -⟩ := hcode n hn
  rw [blockError?, blockError?, graph_placePhis hcode, herror, hname,
    show (f.placePhis.1.block n).label = (f.block n).label from f.label_placePhis n]
  simp [hne, List.ne_nil_of_mem hi]

theorem functionError?_placePhis (hm : m'.globals = m.globals) (hcode : f.Coded) :
    functionError? m' f.placePhis.1 = functionError? m f := by
  have hlength : f.placePhis.1.blocks.length = f.blocks.length := by
    simpa using congrArg List.length (labels_placePhis f)
  have hempty : f.placePhis.1.blocks.isEmpty = f.blocks.isEmpty := by
    rw [← List.isEmpty_map (f := (·.label)), labels_placePhis, List.isEmpty_map]
  rw [functionError?, functionError?, hempty, f.placePhis_kept.1, labels_placePhis]
  split
  · rfl
  · cases hrepeated : firstRepeated? [] (f.blocks.map (·.label)) with
    | some label => rfl
    | none =>
      have hlabels := (firstRepeated?_eq_none.mp hrepeated).1
      have hblocks : f.placePhis.1.blocks.zipIdx.map
            (fun e => blockError? m' f.placePhis.1 e.2 e.1) =
          f.blocks.zipIdx.map fun e => blockError? m f e.2 e.1 := by
        refine List.ext_getElem? fun n => ?_
        simp only [List.getElem?_map, List.getElem?_zipIdx]
        by_cases hn : n < f.blocks.length
        · rw [getElem?_blocks hn, getElem?_blocks (hlength ▸ hn)]
          simpa using blockError?_placePhis hm hlabels hcode hn
        · rw [List.getElem?_eq_none (Nat.le_of_not_lt hn),
            List.getElem?_eq_none (hlength ▸ Nat.le_of_not_lt hn)]
          rfl
      have hfind := congrArg (List.findSome? id) hblocks
      simp only [List.findSome?_map] at hfind
      exact hfind

end Function

/-! ### Modules -/

theorem functions_placePhisIn (fs : List Function) :
    (placePhisIn fs).1 = fs.map fun f => f.placePhis.1 := by
  induction fs with
  | nil => rfl
  | cons f fs ih => exact congrArg (f.placePhis.1 :: ·) ih

theorem Module.functions_placePhis (m : Module) :
    m.placePhis.1.functions = m.functions.map fun f => f.placePhis.1 :=
  functions_placePhisIn m.functions

/-- The verifier says the same about a module before and after phis are placed. -/
theorem verify_placePhis (h : ∀ f ∈ m.functions, f.Coded) :
    verify m.placePhis.1 = verify m := by
  have hm : m.placePhis.1.globals = m.globals := rfl
  have herror (fs : List Function) (seen : List String) (hfs : ∀ f ∈ fs, f.Coded) :
      functionsError? m.placePhis.1 seen (fs.map fun f => f.placePhis.1) =
        functionsError? m seen fs := by
    induction fs generalizing seen with
    | nil => rfl
    | cons f fs ih =>
      obtain ⟨hf, hfs⟩ := List.forall_mem_cons.mp hfs
      rw [List.map_cons, functionsError?, functionsError?, f.placePhis_kept.1,
        Function.functionError?_placePhis hm hf, ih _ hfs]
  rw [verify, verify, Module.functions_placePhis, herror m.functions [] h]

/-- A module that is accepted is accepted after phis are placed. -/
theorem placePhis_accepted {m : Module} (h : verify m = .ok ()) : verify m.placePhis.1 = .ok () := by
  rw [verify_placePhis fun f hf => Function.coded_of_accepted (functionError?_of_verify h hf), h]

/-- A module with a phi, a branch to an entry and a block that is never reached. -/
def knot : Module where
  functions :=
    [{ name := "Knot"
       params := [⟨"x", ⟨.i32, "Integer"⟩⟩]
       blocks :=
        [{ label := "entry"
           instrs := [{ op := .cbr, operands := [.bool true], labels := ["entry", "loop"] }] },
         { label := "loop"
           instrs :=
            [{ op := .phi, type := ⟨.i32, "Integer"⟩, result := some (.var "y" 0 ⟨.i32, "Integer"⟩)
               operands := [.int 0 ⟨.i32, "Integer"⟩, .var "x" 0 ⟨.i32, "Integer"⟩]
               labels := ["entry", "loop"] },
             { op := .assign, type := ⟨.i32, "Integer"⟩
               result := some (.var "x" 0 ⟨.i32, "Integer"⟩)
               operands := [.var "y" 0 ⟨.i32, "Integer"⟩] },
             { op := .cbr, operands := [.bool true], labels := ["loop", "end"] }] },
         { label := "end", instrs := [{ op := .ret }] },
         { label := "lost", instrs := [{ op := .br, labels := ["loop"] }] }] }]

theorem placePhis_knot : verify knot = .ok () ∧ knot.placePhis.2.inserted = 1 ∧
    verify knot.placePhis.1 = .ok () := by
  have h : verify knot = .ok () := by decide +kernel
  exact ⟨h, by decide +kernel, placePhis_accepted h⟩

end BasicSSA.IL
