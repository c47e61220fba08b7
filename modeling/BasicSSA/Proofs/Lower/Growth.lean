import BasicSSA.Lower.State

/-!
# Straight-line code

Most steps of lowering only add instructions to the end of the current block. `Straight` says so of
a step, with what its instructions may name and what its value is like; it is closed under the ways
to combine steps, so a step is straight if its parts are.
-/

namespace BasicSSA

open IL (Value Ty Kind Opcode Instr Block Function Module Build Builder)

/-! ### What code may name -/

/-- The kind of what a function of a return type gives, if it gives something. -/
def IL.Ty.returned? (t : Ty) : Option Kind :=
  if t.isVoid then none else some t.kind

/-- Integers with zero and one among them, and with their negatives. -/
structure ClosedInts (I : Int → Prop) : Prop where
  zero : I 0
  one : I 1
  neg : ∀ n, I n → I (-n)

/-- An instruction makes an array with a number of elements, or gives the address of the element
with a number. -/
def IL.Instr.Counts (i : Instr) (n : Int64) : Prop :=
  i.op = .call ∧ i.name = "rt_array_new" ∧ i.operands = [.long n] ∨
    i.op = .gep ∧ ∃ array, i.operands = [array, .long n]

/-- What code may do: the functions that it calls, those whose addresses are values, the variables
of the module that it stores to, of what kind a value is that it returns, if it returns one, the
integers that are constants in it and the numbers of elements. -/
structure Policy where
  calls : String → Prop
  addresses : String → Prop
  stores : String → Prop
  returns : Option Kind → Prop
  ints : Int → Prop
  counts : Int64 → Prop

namespace Policy

/-- An address that is a value is that of a permitted function, and an integer is permitted. -/
def Fits (π : Policy) : Value → Prop
  | .global name _ => π.addresses name
  | .int n _ => π.ints n
  | _ => True

/-- The integers among the operands are permitted, if they are not permitted numbers of elements. -/
def Bears (π : Policy) (i : Instr) : Prop :=
  ∀ n type, .int n type ∈ i.operands →
    (∃ k, i.Counts k ∧ π.counts k ∧ .int n type = Value.long k) ∨ π.ints n

/-- An instruction inside a block that names what it may, and has the parts that it needs. -/
def Allows (π : Policy) (i : Instr) : Prop :=
  π.Bears i ∧ match i.op with
  | .call => π.calls i.name
  | .store => ∃ a v, i.operands = [a, v] ∧ ∀ name type, a = .global name type → π.stores name
  | .assign => i.result.any Value.isVar = true ∧ i.operands.length = 1
  | .phi | .br | .cbr | .switch | .ret => False
  | op => (op.isBinary || op.isCompare) = true → i.operands.length = 2

variable {π : Policy}

theorem Allows.not_terminator (h : π.Allows i) : i.op.isTerminator = false := by
  obtain ⟨-, h⟩ := h
  split at h <;> simp_all [Opcode.isTerminator]

theorem bears_of_fits {i : Instr} (h : ∀ v ∈ i.operands, π.Fits v) : π.Bears i :=
  fun _ _ hn => .inr (h _ hn)

end Policy

/-! ### Blocks that grow -/

/-- An instruction without its result. -/
def IL.Instr.anonymous (i : Instr) : Instr :=
  { i with result := none }

theorem IL.Instr.op_eq_of_anonymous {i j : Instr} (h : i.anonymous = j.anonymous) : i.op = j.op :=
  have hop : i.anonymous.op = j.anonymous.op := congrArg Instr.op h
  hop

/-- A block with more code at its end. The result of an instruction may have been renamed since it
was added. -/
structure IL.Block.Grows (π : Policy) (b : Block) (code : List Instr) (b' : Block) : Prop where
  label : b'.label = b.label
  instrs : b'.instrs.map Instr.anonymous = b.instrs.map Instr.anonymous ++ code.map Instr.anonymous
  allowed : ∀ i ∈ code, π.Allows i
  kept : (∀ i ∈ b.instrs, π.Allows i) → ∀ i ∈ b'.instrs, π.Allows i
  closed : b.isTerminated = true → b' = b ∧ code = []

theorem IL.Block.isTerminated_iff {b : Block} :
    b.isTerminated = true ↔ ∃ i, b.instrs.getLast? = some i ∧ i.op.isTerminator = true := by
  simp [isTerminated, terminator?, Option.any_eq_true]

namespace IL.Block.Grows

variable {b : Block}

theorem refl (b : Block) : b.Grows π [] b :=
  ⟨rfl, by simp, by simp, fun h => h, fun _ => ⟨rfl, rfl⟩⟩

theorem trans (h₁ : b.Grows π c₁ b') (h₂ : b'.Grows π c₂ b'') : b.Grows π (c₁ ++ c₂) b'' where
  label := h₂.label.trans h₁.label
  instrs := by rw [h₂.instrs, h₁.instrs, List.map_append, List.append_assoc]
  allowed i hi := (List.mem_append.mp hi).elim (h₁.allowed i) (h₂.allowed i)
  kept h := h₂.kept (h₁.kept h)
  closed h := by
    obtain ⟨rfl, rfl⟩ := h₁.closed h
    obtain ⟨rfl, rfl⟩ := h₂.closed h
    exact ⟨rfl, rfl⟩

theorem push (hb : b.isTerminated = false) (hi : π.Allows i) :
    b.Grows π [i] { b with instrs := b.instrs ++ [i] } where
  label := rfl
  instrs := by simp
  allowed := by simpa using hi
  kept h j hj := by
    rcases List.mem_append.mp hj with hj | hj
    · exact h j hj
    · exact List.mem_singleton.mp hj ▸ hi
  closed h := by rw [hb] at h; cases h

theorem rename (hlast : b.instrs.getLast? = some i) (hop : i.op.isTerminator = false)
    (hi : π.Allows i → π.Allows { i with result := v }) :
    b.Grows π [] { b with instrs := b.instrs.dropLast ++ [{ i with result := v }] } where
  label := rfl
  instrs := by
    obtain ⟨is, he⟩ := List.getLast?_eq_some_iff.mp hlast
    simp [he, Instr.anonymous]
  allowed := by simp
  kept h j hj := by
    obtain ⟨is, he⟩ := List.getLast?_eq_some_iff.mp hlast
    rcases List.mem_append.mp hj with hj | hj
    · exact h j (List.dropLast_subset _ hj)
    · exact List.mem_singleton.mp hj ▸ hi (h i (by simp [he]))
  closed h := by
    obtain ⟨j, hj, hterm⟩ := isTerminated_iff.mp h
    rw [hlast] at hj
    cases hj
    rw [hop] at hterm
    cases hterm

theorem isTerminated_eq (h : b.Grows π code b') : b'.isTerminated = b.isTerminated := by
  cases hb : b.isTerminated with
  | true => rw [(h.closed hb).1, hb]
  | false =>
    refine Bool.eq_false_iff.mpr fun hb' => ?_
    obtain ⟨i, hi, hterm⟩ := isTerminated_iff.mp hb'
    have hlast := congrArg List.getLast? h.instrs
    rw [List.getLast?_append, List.getLast?_map, List.getLast?_map, List.getLast?_map, hi] at hlast
    cases hc : code.getLast? with
    | some j =>
      rw [hc] at hlast
      have hop : i.op = j.op := Instr.op_eq_of_anonymous (Option.some.inj hlast)
      have := (h.allowed j (List.mem_of_getLast? hc)).not_terminator
      rw [← hop, hterm] at this
      cases this
    | none =>
      rw [hc] at hlast
      obtain ⟨j, hj, he⟩ := Option.map_eq_some_iff.mp hlast.symm
      have hop : j.op = i.op := Instr.op_eq_of_anonymous he
      have := isTerminated_iff.mpr ⟨j, hj, hop ▸ hterm⟩
      rw [hb] at this
      cases this

end IL.Block.Grows

end BasicSSA
