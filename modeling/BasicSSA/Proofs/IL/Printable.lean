import BasicSSA.IL.Printer
import BasicSSA.Proofs.IL.Accepted
import Mathlib.Data.List.Basic

/-!
# Printing accepted modules

The verifier counts operands and labels operation by operation, and so does the printer. The two
differ at three operations: the verifier does not count the operands of a conditional branch and of
a store to a field, and it lets a switch have no target at all. Only such an instruction keeps an
accepted module from being printed (`text?_isSome_iff`).
-/

namespace BasicSSA.IL

/-- The parts that the verifier does not ask for are there. -/
def Instr.Supplied (i : Instr) : Prop :=
  match i.op with
  | .cbr => 1 ≤ i.operands.length
  | .fieldStore => 2 ≤ i.operands.length
  | .switch => 1 ≤ i.labels.length
  | _ => True

instance : DecidablePred Instr.Supplied := fun i => by
  unfold Instr.Supplied
  split <;> infer_instance

/-! ### Lists of operands and labels -/

theorem phiText?_isSome :
    (phiText? vs ls).isSome = true ↔ vs.length ≤ ls.length := by
  fun_induction phiText? vs ls with
  | case1 => simp
  | case2 => simp
  | case3 v vs l ls ih =>
    simp only [List.length_cons, Nat.add_le_add_iff_right, ← ih]
    cases phiText? vs ls <;> rfl

theorem casesText?_isSome :
    (casesText? vs ls).isSome = true ↔ ls.length ≤ vs.length := by
  fun_induction casesText? vs ls with
  | case1 => simp
  | case2 => simp
  | case3 v vs l ls ih =>
    simp only [List.length_cons, Nat.add_le_add_iff_right, ← ih]
    cases casesText? vs ls <;> rfl

theorem concatText?_isSome {f : α → Option String} {xs : List α} :
    (concatText? f xs).isSome = true ↔ ∀ x ∈ xs, (f x).isSome = true := by
  rw [concatText?, Option.isSome_map]
  induction xs with
  | nil => simp
  | cons x xs ih =>
    rw [List.forall_mem_cons, ← ih, List.mapM_cons]
    cases f x <;> cases xs.mapM f <;> simp

/-! ### Instructions -/

/-- Of an instruction without a fault all that the printer reads is there, if the uncounted parts
are. -/
theorem Instr.argsText?_isSome
    (h : instrFault? m f i = none) : i.argsText?.isSome = true ↔ i.Supplied := by
  cases hop : i.op with
  | br =>
    have hcount : i.labels.length = 1 :=
      Decidable.byContradiction fun hne => by simp [instrFault?, hop, hne] at h
    obtain ⟨l, hl⟩ := List.length_eq_one_iff.mp hcount
    simp [argsText?, Supplied, hop, hl]
  | cbr =>
    have hcount : i.labels.length = 2 :=
      Decidable.byContradiction fun hne => by simp [instrFault?, hop, hne] at h
    obtain ⟨yes, no, hl⟩ := List.length_eq_two.mp hcount
    cases hv : i.operands <;> simp [argsText?, Supplied, hop, hl, hv]
  | fieldStore =>
    match hv : i.operands with
    | [] | [v] | v :: w :: vs => simp [argsText?, Supplied, hop, hv]
  | phi =>
    have hcount : i.operands.length = i.labels.length :=
      Decidable.byContradiction fun hne => by simp [instrFault?, hop, hne] at h
    have hparts := phiText?_isSome.mpr (Nat.le_of_eq hcount)
    obtain ⟨parts, hparts⟩ := Option.isSome_iff_exists.mp hparts
    simp [argsText?, Supplied, hop, hparts]
  | switch =>
    have hcount : i.operands.length = i.labels.length :=
      Decidable.byContradiction fun hne => by simp [instrFault?, hop, hne] at h
    match hv : i.operands, hl : i.labels with
    | [], [] => simp [argsText?, Supplied, hop, hv, hl]
    | [], l :: ls | v :: vs, [] => simp [hv, hl] at hcount
    | v :: vs, l :: ls =>
      have hcases : ls.length ≤ vs.length := by
        simp only [hv, hl, List.length_cons] at hcount
        omega
      obtain ⟨cases, hcases⟩ := Option.isSome_iff_exists.mp (casesText?_isSome.mpr hcases)
      simp [argsText?, Supplied, hop, hv, hl, hcases]
  | _ => simp [argsText?, Supplied, hop]

theorem Instr.text?_isSome (i : Instr) : i.text?.isSome = i.argsText?.isSome := by
  cases h : i.argsText? <;> simp [text?, h]

/-! ### Modules -/

theorem Block.text?_isSome {b : Block} :
    b.text?.isSome = true ↔ ∀ i ∈ b.instrs, i.argsText?.isSome = true := by
  simp only [← Instr.text?_isSome, ← concatText?_isSome, text?]
  cases concatText? Instr.text? b.instrs <;> rfl

theorem Function.text?_isSome {f : Function} :
    f.text?.isSome = true ↔ ∀ b ∈ f.blocks, b.text?.isSome = true := by
  rw [← concatText?_isSome, text?]
  cases concatText? Block.text? f.blocks <;> rfl

theorem Module.text?_isSome {m : Module} :
    m.text?.isSome = true ↔ ∀ f ∈ m.functions, f.text?.isSome = true := by
  have hline (f : Function) : (do return "\n" ++ (← f.text?) : Option String).isSome =
      f.text?.isSome := by
    cases f.text? <;> rfl
  simp only [← hline, ← concatText?_isSome, text?]
  cases concatText? (fun f => do return "\n" ++ (← Function.text? f)) m.functions <;> rfl

/-- An accepted module has a text exactly if each conditional branch has its condition, each store
to a field its object and its value, and each switch its default target. -/
theorem text?_isSome_iff {m : Module} (h : verify m = .ok ()) :
    m.text?.isSome = true ↔
      ∀ f ∈ m.functions, ∀ b ∈ f.blocks, ∀ i ∈ b.instrs, i.Supplied := by
  simp only [Module.text?_isSome, Function.text?_isSome, Block.text?_isSome]
  refine forall₂_congr fun f hf => forall₂_congr fun b hb => forall₂_congr fun i hi => ?_
  obtain ⟨-, -, hblocks⟩ := functionError?_eq_none.mp (functionError?_of_verify h hf)
  obtain ⟨n, hn⟩ := List.getElem?_of_mem hb
  obtain ⟨pre, post, he⟩ := List.append_of_mem hi
  exact Instr.argsText?_isSome (instrsError?_eq_none.mp (hblocks n b hn).2 pre i post he).2

/-- A function with a conditional branch, a store to a field and a switch without cases. -/
def crossing : Module where
  functions :=
    [{ name := "Crossing"
       blocks :=
        [{ label := "entry"
           instrs := [{ op := .cbr, operands := [.bool true], labels := ["pick", "end"] }] },
         { label := "pick"
           instrs :=
            [{ op := .fieldStore, operands := [.null {}, .bool true], name := "f" },
             { op := .switch, operands := [.bool true], labels := ["end"] }] },
         { label := "end", instrs := [{ op := .ret }] }] }]

theorem crossing_isSome : verify crossing = .ok () ∧ crossing.text?.isSome = true := by
  have h : verify crossing = .ok () := by decide +kernel
  exact ⟨h, (text?_isSome_iff h).mpr (by decide +kernel)⟩

/-- A store to a field that lacks its operands is accepted and cannot be printed. -/
theorem bareFieldStore_unprintable :
    let m : Module :=
      { functions :=
          [{ name := "S"
             blocks := [{ label := "entry"
                          instrs := [{ op := .fieldStore, name := "f" }, { op := .ret }] }] }] }
    verify m = .ok () ∧ m.text? = none := by
  decide +kernel

end BasicSSA.IL
