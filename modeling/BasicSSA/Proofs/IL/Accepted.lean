import BasicSSA.IL.Verifier
import BasicSSA.Proofs.Flow.Run

/-!
# Accepted functions

What it means that the verifier finds no fault, said without the order in which it looks:
`functionError?_eq_none` and `instrsError?_eq_none`. The flow graph of a function has an edge for
each branch to a block (`mem_succs_graph`).
-/

namespace BasicSSA.IL

theorem firstRepeated?_eq_none :
    firstRepeated? seen l = none ↔ l.Nodup ∧ ∀ x ∈ l, x ∉ seen := by
  induction l generalizing seen with
  | nil => simp [firstRepeated?]
  | cons x l ih =>
    rw [firstRepeated?]
    by_cases hx : x ∈ seen
    · simp [hx]
    · simp only [List.contains_eq_mem, hx, decide_false, Bool.false_eq_true, if_false, ih,
        List.nodup_cons, List.mem_cons, not_or]
      grind

theorem instrsError?_eq_none
    :
    instrsError? m f preds after is = none ↔ ∀ pre i post, is = pre ++ i :: post →
      placeFault? f preds post.isEmpty (after || pre.any (·.op ≠ .phi)) i = none ∧
        instrFault? m f i = none := by
  induction is generalizing after with
  | nil => simp [instrsError?]
  | cons i is ih =>
    have hhead : instrsError? m f preds after (i :: is) = none ↔
        (placeFault? f preds is.isEmpty after i = none ∧ instrFault? m f i = none) ∧
          instrsError? m f preds (after || i.op ≠ .phi) is = none := by
      rw [instrsError?]
      cases placeFault? f preds is.isEmpty after i <;> cases instrFault? m f i <;> simp
    rw [hhead, ih]
    constructor
    · rintro ⟨hi, hrest⟩ pre j post he
      cases pre with
      | nil =>
        obtain ⟨rfl, rfl⟩ := List.cons.inj he
        simpa using hi
      | cons k pre =>
        obtain ⟨rfl, rfl⟩ := List.cons.inj he
        simpa [Bool.or_assoc] using hrest pre j post rfl
    · intro h
      refine ⟨by simpa using h [] i is rfl, fun pre j post he => ?_⟩
      simpa [Bool.or_assoc] using h (i :: pre) j post (by rw [he]; rfl)

theorem blockError?_eq_none :
    blockError? m f n b = none ↔
      b.instrs ≠ [] ∧ instrsError? m f (f.graph.preds n) false b.instrs = none := by
  by_cases h : b.instrs = [] <;> simp [blockError?, h]

theorem functionError?_eq_none :
    functionError? m f = none ↔ f.blocks ≠ [] ∧ (f.blocks.map (·.label)).Nodup ∧
      ∀ n b, f.blocks[n]? = some b →
        b.instrs ≠ [] ∧ instrsError? m f (f.graph.preds n) false b.instrs = none := by
  rw [functionError?]
  by_cases hne : f.blocks = []
  · simp [hne]
  · cases hr : firstRepeated? [] (f.blocks.map (·.label)) with
    | some l =>
      have : ¬(f.blocks.map (·.label)).Nodup := by
        intro h
        rw [firstRepeated?_eq_none.mpr ⟨h, by simp⟩] at hr
        cases hr
      simp [hne, this]
    | none =>
      have := (firstRepeated?_eq_none.mp hr).1
      simp only [List.isEmpty_iff, hne, if_false, ne_eq, not_false_eq_true, this, true_and]
      simp only [List.findSome?_eq_none_iff, Prod.forall, List.mem_zipIdx_iff_getElem?]
      refine ⟨fun h n b hb => ?_, fun h b n hb => ?_⟩
      · exact blockError?_eq_none.mp (h b n hb)
      · exact blockError?_eq_none.mpr (h n b hb)

theorem functionError?_of_verify (hm : verify m = .ok ())
    (hf : f ∈ m.functions) : functionError? m f = none := by
  have hnone : functionsError? m [] m.functions = none := by
    unfold verify at hm
    split at hm
    · cases hm
    · assumption
  generalize m.functions = fs, [] = seen at hf hnone
  induction fs generalizing seen with
  | nil => cases hf
  | cons g fs ih =>
    rw [functionsError?] at hnone
    split at hnone
    · cases hnone
    · rw [Option.orElse_eq_orElse, Option.orElse_eq_or, Option.or_eq_none_iff] at hnone
      obtain ⟨hg, hrest⟩ := hnone
      rcases List.mem_cons.mp hf with rfl | hf
      · exact hg
      · exact ih _ hf hrest

/-- In an accepted block a terminator is the last instruction. -/
theorem terminator_last (hf : functionError? m f = none)
    (hn : n < f.blocks.length) (h : i :: rest <:+ (f.block n).instrs)
    (hi : i.op.isTerminator = true) : rest = [] := by
  obtain ⟨pre, he⟩ := h
  have hb : f.blocks[n]? = some (f.block n) := by simp [Function.block, hn]
  have hblock := ((functionError?_eq_none.mp hf).2.2 n _ hb).2
  have hplace := (instrsError?_eq_none.mp hblock pre i rest he.symm).1
  unfold placeFault? at hplace
  split at hplace
  · cases hplace
  · rename_i hlast
    rw [hi, ne_eq, Decidable.not_not] at hlast
    exact List.isEmpty_iff.mp hlast.symm

/-! ### Branches -/

namespace Block

theorem mem_targets {b : Block} :
    l ∈ b.targets ↔ ∃ i, b.terminator? = some i ∧ l ∈ i.labels := by
  have hfold : ∀ (ls seen : List String),
      l ∈ ls.foldl (fun seen l => if seen.contains l then seen else seen ++ [l]) seen ↔
        l ∈ seen ∨ l ∈ ls := by
    intro ls
    induction ls with
    | nil => simp
    | cons k ls ih =>
      intro seen
      rw [List.foldl_cons, ih]
      split <;> grind
  unfold targets
  cases b.terminator? with
  | none => simp
  | some i => simp only [hfold, List.not_mem_nil, false_or, Option.some.injEq, exists_eq_left']

end Block

namespace Function

variable {f : Function}

theorem blockIdx?_lt (h : f.blockIdx? l = some n) : n < f.blocks.length :=
  (List.findIdx?_eq_some_iff_getElem.mp h).1

theorem blockIdx?_label (hl : (f.blocks.map (·.label)).Nodup) (h : k < f.blocks.length) :
    f.blockIdx? (f.label k) = some k := by
  have hk : f.block k = f.blocks[k] := by simp [block, h]
  rw [blockIdx?, List.findIdx?_eq_some_iff_getElem]
  refine ⟨h, by simp [label, hk], fun j hj => ?_⟩
  have hne := (List.pairwise_iff_getElem.mp hl) j k (by simp; omega) (by simpa using h) hj
  simpa [label, hk] using hne

theorem size_graph (f : Function) : f.graph.size = f.blocks.length := by
  simp [graph, Graph.size]

theorem mem_succs_graph :
    b ∈ f.graph.succs a ↔ ∃ l ∈ (f.block a).targets, f.blockIdx? l = some b := by
  have hdefault : (default : Block).targets = [] := rfl
  by_cases ha : a < f.blocks.length
  · simp [graph, Graph.succs, ha, block, List.mem_filterMap]
  · simp [graph, Graph.succs, ha, block, hdefault]

theorem closed_graph (f : Function) : f.graph.Closed := by
  intro a b hb
  obtain ⟨l, _, hl⟩ := mem_succs_graph.mp hb
  rw [size_graph]
  exact blockIdx?_lt hl

end Function

end BasicSSA.IL
