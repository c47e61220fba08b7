import BasicSSA.Proofs.Lower.Written.Program

/-!
# The kinds of operands

The operands of each instruction are stored as its operation asks. The only exception is the test of
a `Case` where the subject of the `Select` is void: nothing is converted to void.
-/

namespace BasicSSA

open IL (Instr Module)

/-- Operations, comparisons, branches and returns have operands of the kinds that they ask for, unless
a void subject is compared with the value of a `Case`. -/
theorem operands_agree (h : (analyze p).isAccepted = true) (hl : lower (analyze p) name = .ok m)
    (hf : f ∈ m.functions) (hb : b ∈ f.blocks) (hi : i ∈ b.instrs) :
    i.Agrees f.returnType.kind ∨ (analyze p).TestsVoid i := by
  have hwritten := (analyze_settled h).written hl f hf
  exact (hwritten.instrs b hb i hi).1

/-- Some instruction of a module is one of those that a test finds. -/
def IL.Module.hasInstr (m : Module) (test : Instr → Bool) : Bool :=
  m.functions.any fun f => f.blocks.any fun b => b.instrs.any test

theorem IL.Module.exists_of_hasInstr {m : Module}
    (h : m.hasInstr test = true) :
    ∃ f ∈ m.functions, ∃ b ∈ f.blocks, ∃ i ∈ b.instrs, test i = true := by
  obtain ⟨f, hf, h⟩ := List.any_eq_true.mp h
  obtain ⟨b, hb, h⟩ := List.any_eq_true.mp h
  obtain ⟨i, hi, h⟩ := List.any_eq_true.mp h
  exact ⟨f, hf, b, hb, i, hi, h⟩

/-- A difference of numbers that are stored differently. -/
def mixedDifference : String :=
  "Function F(n As Long, k As Integer) As Double\nReturn n - k\nEnd Function\n"

theorem mixedDifference_agrees : ∃ tokens p m f b i, tokenize mixedDifference 1 = .ok tokens ∧
    Translates tokens "main" p m ∧ f ∈ m.functions ∧ b ∈ f.blocks ∧ i ∈ b.instrs ∧ i.op = .sub ∧
    (i.Agrees f.returnType.kind ∨ (analyze p).TestsVoid i) := by
  have hm : (module? 1 "main" mixedDifference).map (·.hasInstr (·.op = .sub)) = some true := by
    decide +kernel
  obtain ⟨tokens, p, m, -, htokens, h, hsub⟩ := exists_of_module? hm
  obtain ⟨f, hf, b, hb, i, hi, hop⟩ := Module.exists_of_hasInstr hsub
  exact ⟨tokens, p, m, f, b, i, htokens, h, hf, hb, hi, of_decide_eq_true hop,
    operands_agree h.accepted h.lowered hf hb hi⟩

/-- A `Select` whose subject is what a pointer to nothing leads to. -/
def voidSubject : String :=
  "Sub S(Of T)(v As T, p As Pointer To Void)\nSelect Case p^\nCase v\nEnd Select\nEnd Sub\n"

/-- The subject is void, and the value that it is compared with is an address. -/
theorem voidSubject_disagrees : ∃ tokens p m f b i, tokenize voidSubject 1 = .ok tokens ∧
    Translates tokens "main" p m ∧ f ∈ m.functions ∧ b ∈ f.blocks ∧ i ∈ b.instrs ∧
    i.op = .cmpEq ∧ ¬i.Agrees f.returnType.kind := by
  have hm : (module? 1 "main" voidSubject).map (·.hasInstr fun i =>
      i.op = .cmpEq && i.operands.map (·.type.kind) = [.void, .ptr]) = some true := by
    decide +kernel
  obtain ⟨tokens, p, m, -, htokens, h, htest⟩ := exists_of_module? hm
  obtain ⟨f, hf, b, hb, i, hi, htest⟩ := Module.exists_of_hasInstr htest
  simp only [Bool.and_eq_true, decide_eq_true_eq] at htest
  refine ⟨tokens, p, m, f, b, i, htokens, h, hf, hb, hi, htest.1, fun hagrees => ?_⟩
  rw [Instr.Agrees, htest.1] at hagrees
  obtain ⟨-, l, r, hoperands, hkinds⟩ := hagrees
  rw [hoperands] at htest
  obtain ⟨hl, hr⟩ : l.type.kind = .void ∧ r.type.kind = .ptr := by simpa using htest.2
  cases hl.symm.trans (hkinds.trans hr)

end BasicSSA
