import BasicSSA.Proofs.Lower.OperandKinds

/-!
# Ranges of constants

An integer in lowered code is zero, one, the number of a literal or a negative of these, so that no
step that makes a constant of another overflows 64 bits. The only other integers are numbers of
elements, which lowering computes in 64 bits: the product of the dimensions of an array wraps. An
integer is not always in the range of its type: a constant takes the type that it is converted to as
it is. Analysis sees to it that no `Long` literal is the value of a variable of 32 bits that is
declared with it, but `x += 3000000000` adds a constant to such a variable that does not fit.
-/

namespace BasicSSA

open IL (Value Function Instr Module)

/-- A number is that of a `Long` literal, apart from its sign. -/
def Analysis.WritesLong (a : Analysis) (n : Int) : Prop :=
  ∃ i l, .expr (.literal i (.long l)) ∈ a.nodes ∧ n.natAbs = l.val

theorem Analysis.Writes.fits {a : Analysis} (h : a.Writes n) :
    n.natAbs < 2 ^ 63 ∧ (n.natAbs < 2 ^ 31 ∨ a.WritesLong n) := by
  rcases h with h | ⟨i, l, hl, hnumber⟩
  · omega
  · obtain ⟨hlt, hnarrow⟩ := Literal.number?_lt hnumber
    refine ⟨hlt, ?_⟩
    cases l with
    | integer => exact .inl (hnarrow rfl)
    | long k => exact .inr ⟨i, k, hl, (Option.some.inj hnumber).symm⟩
    | _ => cases hnumber

theorem Policy.bears_of_built {f : Function} (hf : f.Built π) (hb : b ∈ f.blocks)
    (hi : i ∈ b.instrs) : π.Bears i :=
  (hf.instr hb hi).elim (·.1) (·.1)

/-- Every integer constant of a module fits into 64 bits. In the code of a function it fits into 32
bits, or it is a `Long` literal, or it is a number of elements, of 64 bits, that lowering computed
for an array. The value that a variable of 32 bits starts with fits. -/
theorem lower_integers (h : Translates tokens name p m) :
    (∀ f ∈ m.functions, ∀ b ∈ f.blocks, ∀ i ∈ b.instrs, ∀ n type, .int n type ∈ i.operands →
      (∃ k, i.Counts k ∧ (analyze p).Counts k ∧ .int n type = Value.long k) ∨
        n.natAbs < 2 ^ 63 ∧ (n.natAbs < 2 ^ 31 ∨ (analyze p).WritesLong n)) ∧
    ∀ g ∈ m.globals, ∀ n type, g.init = some (.int n type) →
      n.natAbs < 2 ^ 63 ∧ (type.kind = .i32 → n.natAbs < 2 ^ 31) := by
  have hm := Lower.lower_ok h.lowered h.ready.keeps
  refine ⟨fun f hf b hb i hi n type hn => ?_, fun g hg n type hn => ?_⟩
  · exact (Policy.bears_of_built (hm.built hf) hb hi n type hn).imp_right (·.fits)
  · rw [hm.globals] at hg
    obtain ⟨item, hitem, hglobal⟩ := List.mem_filterMap.mp hg
    cases item with
    | global i name init isConstant =>
      obtain ⟨x, hx, rfl⟩ := Option.map_eq_some_iff.mp hglobal
      obtain ⟨e, rfl, he⟩ := Option.bind_eq_some_iff.mp hn
      obtain ⟨j, l, -, hnumber, hnarrow⟩ := h.ready.constant hitem hx he
      obtain ⟨hlt, hlt'⟩ := Literal.number?_lt hnumber
      exact ⟨hlt, fun hk => hlt' (hnarrow hk)⟩
    | _ => cases hglobal

/-- A negative number that takes more than 32 bits, and one that does not. -/
def negatedLong : String :=
  "Dim g As Integer = -2147483647\nSub S()\nDim n As Long = -3000000000\nEnd Sub\n"

theorem lower_integers_negated : ∃ tokens p m, tokenize negatedLong 1 = .ok tokens ∧
    Translates tokens "main" p m ∧ (analyze p).WritesLong (-3000000000) ∧
    ∃ g ∈ m.globals, g.init = some (.int (-2147483647) ⟨.i32, "Integer"⟩) ∧
      (-2147483647 : Int).natAbs < 2 ^ 31 := by
  have hm : (module? 1 "main" negatedLong).map (fun m => m.hasInstr (fun i =>
      i.op = .assign && i.operands = [.int (-3000000000) .long]) && m.globals.any fun g =>
        g.init = some (.int (-2147483647) ⟨.i32, "Integer"⟩)) = some true := by
    decide +kernel
  obtain ⟨tokens, p, m, -, htokens, h, htest⟩ := exists_of_module? hm
  obtain ⟨hcode, hglobals⟩ := (Bool.and_eq_true _ _).mp htest
  obtain ⟨f, hf, b, hb, i, hi, htest⟩ := Module.exists_of_hasInstr hcode
  obtain ⟨g, hg, hinit⟩ := List.any_eq_true.mp hglobals
  obtain ⟨hfunctions, hvariables⟩ := lower_integers h
  simp only [Bool.and_eq_true, decide_eq_true_eq] at htest hinit
  have hlong : (analyze p).WritesLong (-3000000000) := by
    rcases hfunctions f hf b hb i hi (-3000000000) .long (by simp [htest.2]) with
      ⟨k, hcount, -⟩ | hfits
    · simp [Instr.Counts, htest.1] at hcount
    · exact hfits.2.resolve_left (by decide)
  exact ⟨tokens, p, m, htokens, h, hlong, g, hg, hinit, (hvariables g hg _ _ hinit).2 rfl⟩

/-- A `Long` literal is added to a variable of 32 bits. -/
def addedLong : String :=
  "Sub S()\nDim x As Integer = 1\nx += 3000000000\nEnd Sub\n"

theorem addedLong_overflows : ∃ tokens p m, tokenize addedLong 1 = .ok tokens ∧
    Translates tokens "main" p m ∧ ∃ f ∈ m.functions, ∃ b ∈ f.blocks, ∃ i ∈ b.instrs,
      .int 3000000000 ⟨.i32, "Integer"⟩ ∈ i.operands := by
  have hm : (module? 1 "main" addedLong).map (·.hasInstr fun i =>
      .int 3000000000 ⟨.i32, "Integer"⟩ ∈ i.operands) = some true := by
    decide +kernel
  obtain ⟨tokens, p, m, -, htokens, h, htest⟩ := exists_of_module? hm
  obtain ⟨f, hf, b, hb, i, hi, htest⟩ := Module.exists_of_hasInstr htest
  exact ⟨tokens, p, m, htokens, h, f, hf, b, hb, i, hi, of_decide_eq_true htest⟩

end BasicSSA
