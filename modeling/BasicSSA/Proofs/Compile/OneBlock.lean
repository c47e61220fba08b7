import BasicSSA.Proofs.Compile.Outcome

/-!
# Functions of one block

Lowering numbers the definitions in a single block as the placing of phis does, so there phis change
no definition. They do change reads: lowering takes the value of a variable when it comes to the
variable, and the instruction that uses the value may come after another definition.
-/

namespace BasicSSA

namespace IL

/-! ### Last definitions -/

/-- Code in which every read names the last definition before it. -/
def withLastReads (env : Versions) : List Instr → List Instr
  | [] => []
  | i :: is =>
    { i with operands := i.operands.map (Value.use env) } ::
      withLastReads (i.definition?.toList ++ env) is

theorem exists_op_of_mem_withLastReads
    (h : i ∈ withLastReads env is) : ∃ j ∈ is, i.op = j.op := by
  induction is generalizing env with
  | nil => cases h
  | cons j is ih =>
    rcases List.mem_cons.mp h with rfl | h
    · exact ⟨j, List.mem_cons_self, rfl⟩
    · obtain ⟨k, hk, hop⟩ := ih h
      exact ⟨k, List.mem_cons_of_mem j hk, hop⟩

/-- Every read names the last definition before it. -/
def ReadsLast (env : Versions) (is : List Instr) : Prop :=
  ∀ pre i post x v type, is = pre ++ i :: post → .var x v type ∈ i.operands →
    v = Versions.of ((definitions pre).reverse ++ env) x

theorem Value.map_use_eq_self {vs : List Value} :
    vs.map (Value.use env) = vs ↔ ∀ x v type, .var x v type ∈ vs → v = env.of x := by
  constructor
  · intro h x v type hv
    have := (List.map_eq_map_iff.mp (h.trans (List.map_id vs).symm)) _ hv
    injection this with _ hv
    exact hv.symm
  · intro h
    refine (List.map_congr_left fun v hv => ?_).trans (List.map_id vs)
    cases v with
    | var x v type => exact congrArg (Value.var x · type) (h x v type hv).symm
    | _ => rfl

theorem reverse_definitions_cons (i : Instr) (is : List Instr) :
    (definitions (i :: is)).reverse = (definitions is).reverse ++ i.definition?.toList := by
  cases h : i.definition? <;> simp [definitions, h]

theorem readsLast_cons :
    ReadsLast env (i :: is) ↔ (∀ x v type, .var x v type ∈ i.operands → v = env.of x) ∧
      ReadsLast (i.definition?.toList ++ env) is := by
  constructor
  · intro h
    refine ⟨fun x v type hv => h [] i is x v type rfl hv, fun pre j post x v type he hv => ?_⟩
    have := h (i :: pre) j post x v type (by rw [he]; rfl) hv
    rwa [reverse_definitions_cons, List.append_assoc] at this
  · rintro ⟨hi, his⟩ pre j post x v type he hv
    cases pre with
    | nil =>
      obtain ⟨rfl, rfl⟩ := List.cons.inj he
      exact hi x v type hv
    | cons k pre =>
      obtain ⟨rfl, rfl⟩ := List.cons.inj he
      rw [reverse_definitions_cons, List.append_assoc]
      exact his pre j post x v type rfl hv

theorem withLastReads_eq_self {env : Versions} :
    withLastReads env is = is ↔ ReadsLast env is := by
  induction is generalizing env with
  | nil => simp [withLastReads, ReadsLast]
  | cons i is ih =>
    have hi : { i with operands := i.operands.map (Value.use env) } = i ↔
        i.operands.map (Value.use env) = i.operands := by
      cases i
      simp
    rw [withLastReads, List.cons.injEq, hi, ih, Value.map_use_eq_self, readsLast_cons]

/-- The definitions of each variable have the versions after those in `env`, in order. -/
def ConsecutiveFrom (env : Versions) (is : List Instr) : Prop :=
  ∀ pre i post x v t, is = pre ++ i :: post → i.result = some (.var x v t) →
    v = env.of x + pre.countP (·.defines x) + 1

theorem ConsecutiveFrom.head (h : ConsecutiveFrom env (i :: is))
    (hi : i.result = some (.var x v t)) : v = env.of x + 1 := by
  simpa using h [] i is x v t rfl hi

theorem ConsecutiveFrom.tail (h : ConsecutiveFrom env (i :: is)) :
    ConsecutiveFrom (i.definition?.toList ++ env) is := by
  intro pre j post x v t he hj
  have hv := h (i :: pre) j post x v t (by rw [he]; rfl) hj
  rw [hv, List.countP_cons]
  cases hr : i.result with
  | none =>
    simp [Instr.definition?, Instr.defines, Instr.definedVar?, hr]
  | some r =>
    cases r with
    | var y w s =>
      have hw := h.head hr
      simp only [Instr.definition?, Instr.defines, Instr.definedVar?, hr, Option.toList_some,
        List.singleton_append, Versions.of_cons, hw]
      by_cases hxy : x = y
      · simp [hxy]
        omega
      · simp [hxy, Ne.symm hxy]
    | _ => simp [Instr.definition?, Instr.defines, Instr.definedVar?, hr]

/-- Where definitions are numbered in order, renaming only changes reads. -/
theorem renameInstrs_consecutive {is : List Instr}
    (h : ConsecutiveFrom env is) (hfree : ∀ i ∈ is, i.op ≠ .phi)
    (henv : ∀ x, env'.of x = env.of x) (hlast : ∀ x, last.of x = env.of x) :
    (renameInstrs env' last is).1 = withLastReads env is := by
  induction is generalizing env env' last with
  | nil => rfl
  | cons i is ih =>
    obtain ⟨hi, his⟩ := List.forall_mem_cons.mp hfree
    have huse : Value.use env' = Value.use env := by
      funext v
      cases v <;> simp [Value.use, henv]
    rw [renameInstrs_cons, withLastReads]
    rcases renameInstr_cases env' last i with ⟨hvar, hdef, he⟩ | ⟨x, t, hvar, he⟩
    · have htail := h.tail
      rw [hdef] at htail ⊢
      rw [he, ih htail his henv hlast, renamedOperands, if_neg hi, huse]
    · obtain ⟨v, hv⟩ : ∃ v, i.result = some (.var x v t) := by
        unfold Instr.definedVar? at hvar
        split at hvar <;> simp_all
      have hnext : v = last.of x + 1 := by rw [hlast, h.head hv]
      have hdef : i.definition? = some (x, v) := by simp [Instr.definition?, hv]
      have htail := h.tail
      rw [hdef] at htail ⊢
      rw [he, ← hnext, ih htail his, renamedOperands, if_neg hi, huse, ← hv]
      · intro y
        simp only [Option.toList_some, List.singleton_append, Versions.of_cons, henv]
      · intro y
        simp only [Option.toList_some, List.singleton_append, Versions.of_cons, hlast]

/-! ### The first block -/

/-- Renaming starts in the first block, where nothing has a version yet. -/
theorem renamedInstrs_entry {f : Function} {g : Graph} (hg : g.Closed) (h0 : 0 < g.size)
    (hf : f.blocks.length = g.size) :
    f.renamedInstrs g.domTree 0 = (renameInstrs f.paramVersions [] (f.block 0).instrs).1 := by
  have hnodup := (numbering_renames hg h0 hf).nodup
  generalize hi : renameInstrs f.paramVersions [] (f.block 0).instrs = res
  obtain ⟨is, env, last⟩ := res
  have hmem : (0, is, env) ∈ (f.numbering g.domTree).done := by
    have hstep : ∀ c ∈ g.domTree.children 0, ∀ r, ∃ new, Renames f g env [c] r new
        (renameTree f g.domTree f.blocks.length env r c) := by
      intro c hc r
      have hc := (Graph.mem_children hg h0).mp hc
      have := hc.position_lt hg h0
      exact renameTree_renames hg h0 _ env r c hc.reachable (by omega)
    obtain ⟨new, h⟩ := foldl_renames (g.domTree.children 0) (Graph.nodup_children hg h0)
      (fun c hc => (Graph.mem_children hg h0).mp hc) hstep { last, done := [(0, is, env)] }
    have hdone : (f.numbering g.domTree).done = new ++ [(0, is, env)] := by
      rw [← h.done, Function.numbering, renameTree, hi]
    simp [hdone]
  rw [Function.renamedInstrs, lookup_of_mem hnodup hmem]
  rfl

theorem Versions.of_paramVersions (f : Function) (x : String) : f.paramVersions.of x = 0 := by
  unfold Function.paramVersions
  induction f.params with
  | nil => rfl
  | cons p ps ih => rw [List.map_cons, Versions.of_cons, ih, ite_self]

theorem fillPhis_of_phiFree {is : List Instr}
    (h : ∀ i ∈ is, i.op ≠ .phi) : fillPhis ends is = is := by
  cases is with
  | nil => rfl
  | cons i is => simp [fillPhis, h i]

/-- In a function of one block whose definitions are numbered in order, phis only change reads. -/
theorem Function.Ready.placePhis_of_consecutive {f : Function} (hf : f.Ready) (hentry : f.EntryUntargeted)
    (hone : f.blocks.length = 1) (hnum : Consecutive (f.block 0).instrs latest) :
    f.placePhis.1 =
      { f with blocks := [{ f.block 0 with instrs := withLastReads [] (f.block 0).instrs }] } := by
  have hn : 0 < f.blocks.length := by omega
  have hfree := hf.phiFree.instrs 0
  have hinstrs : f.withPhis.renamedInstrs f.graph.domTree 0 =
      withLastReads [] (f.block 0).instrs := by
    rw [renamedInstrs_entry f.closed_graph hf.pos (f.length_withPhis.trans f.size_graph.symm),
      hf.phiFree.block_withPhis hn, hf.phiVars_entry hentry, List.map_nil, List.nil_append]
    refine renameInstrs_consecutive (fun pre i post x v t he hi => ?_) hfree
      (Versions.of_paramVersions _) fun x => rfl
    rw [hnum.version pre i post x v t he hi]
    simp [Versions.of]
  have hblock : f.placePhis.1.block 0 =
      { f.block 0 with instrs := withLastReads [] (f.block 0).instrs } := by
    rw [hf.block_placePhis .entry, hinstrs, fillPhis_of_phiFree, label]
    intro i hi
    obtain ⟨j, hj, hop⟩ := exists_op_of_mem_withLastReads hi
    exact hop ▸ hfree j hj
  have hblocks : f.placePhis.1.blocks = [f.placePhis.1.block 0] := by
    have hlength : f.placePhis.1.blocks.length = 1 := by
      rw [← hone]
      simpa using congrArg List.length (labels_placePhis f)
    obtain ⟨b, hb⟩ := List.length_eq_one_iff.mp hlength
    rw [hb]
    simp [block, hb]
  rw [← hblock, ← hblocks, placePhis_eq hf.nonempty, rename_eq, withPhis_eq]

end IL

/-- The functions of one block in a lowered module are those before phis, but for the versions that
are read: phis let every read name the last definition before the instruction. They change nothing
if it does so already. -/
theorem Translates.placePhis_oneBlock (h : Translates tokens name p m) (hf : f ∈ m.functions)
    (hone : f.blocks.length = 1) :
    f.placePhis.1 =
        { f with blocks := [{ f.block 0 with instrs := IL.withLastReads [] (f.block 0).instrs }] } ∧
      (f.placePhis.1 = f ↔ IL.ReadsLast [] (f.block 0).instrs) := by
  have hbuilt := h.built hf
  obtain ⟨latest, hnum⟩ := (h.sound hf).numbered hone
  have heq := hbuilt.ready.placePhis_of_consecutive
    (hbuilt.entryUntargeted (Analysis.strict_policy h.named _)) hone hnum
  refine ⟨heq, ?_⟩
  rw [heq, ← IL.withLastReads_eq_self]
  obtain ⟨b, hb⟩ := List.length_eq_one_iff.mp hone
  have hblock : f.block 0 = b := by simp [IL.Function.block, hb]
  constructor
  · intro he
    have := congrArg (fun g => (g.block 0).instrs) he
    exact this
  · intro he
    rw [he, hblock, ← hb]

theorem placePhis_oneBlock_copy : ∃ tokens p m f, Translates tokens "main" p m ∧
    m.functions = [f] ∧ f.blocks.length = 1 ∧ IL.ReadsLast [] (f.block 0).instrs := by
  have hm : (module? 1 "main"
      "Sub S()\nDim y As Integer = 1\nDim x As Integer = y\nEnd Sub\n").map (fun m =>
        m.functions.map fun f => (f.blocks.length, decide (f.placePhis.1 = f))) =
      some [(1, true)] := by
    decide +kernel
  obtain ⟨tokens, p, m, -, -, h, heq⟩ := exists_of_module? hm
  obtain ⟨f, hf, he⟩ := List.map_eq_singleton_iff.mp heq
  obtain ⟨hone, hsame⟩ := Prod.mk.inj he
  refine ⟨tokens, p, m, f, h, hf, hone, ?_⟩
  exact (h.placePhis_oneBlock (by simp [hf]) hone).2.mp (of_decide_eq_true hsame)

/-- The value of a variable is taken before the variable is stepped, and used after. -/
def steppedRead : String :=
  "Sub S()\nDim y As Integer = 1\nDim x As Integer = y++\nEnd Sub\n"

theorem placePhis_ne_steppedRead : ∃ tokens p m f, tokenize steppedRead 1 = .ok tokens ∧
    Translates tokens "main" p m ∧ m.functions = [f] ∧ f.blocks.length = 1 ∧ f.placePhis.1 ≠ f := by
  have hm : (module? 1 "main" steppedRead).map (fun m => m.functions.map fun f =>
      (f.blocks.length, decide (f.placePhis.1 = f))) = some [(1, false)] := by
    decide +kernel
  obtain ⟨tokens, p, m, -, htokens, h, heq⟩ := exists_of_module? hm
  obtain ⟨f, hf, he⟩ := List.map_eq_singleton_iff.mp heq
  obtain ⟨hone, hsame⟩ := Prod.mk.inj he
  exact ⟨tokens, p, m, f, htokens, h, hf, hone, of_decide_eq_false hsame⟩

end BasicSSA
