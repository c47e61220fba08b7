import BasicSSA.IL.Phi

/-!
# Versions in straight-line code

Renaming instructions in order gives each definition a version above all versions given before, so
no version is given twice, and leaves at the end the version of the last definition of each
variable.
-/

namespace BasicSSA.IL

/-- The version that an instruction defines. -/
def Instr.definition? (i : Instr) : Option (String × Nat) :=
  match i.result with
  | some (.var x v _) => some (x, v)
  | _ => none

/-- The versions that instructions define. -/
def definitions (is : List Instr) : List (String × Nat) :=
  is.filterMap Instr.definition?

/-- Some instruction defines a variable. -/
def Defines (is : List Instr) (x : String) : Prop :=
  ∃ i ∈ is, ∃ t, i.definedVar? = some (x, t)

/-- An instruction defines a version of the variable that it defines. -/
theorem Instr.definition?_iff {i : Instr} :
    (∃ v, i.definition? = some (x, v)) ↔ ∃ t, i.definedVar? = some (x, t) := by
  unfold definedVar? definition?
  split <;> simp_all

theorem mem_definitions :
    d ∈ definitions is ↔ ∃ i ∈ is, i.definition? = some d :=
  List.mem_filterMap

theorem defines_iff_definitions {is : List Instr} : Defines is x ↔ ∃ v, (x, v) ∈ definitions is := by
  simp only [mem_definitions, Defines]
  constructor
  · rintro ⟨i, hi, h⟩
    obtain ⟨v, hv⟩ := Instr.definition?_iff.mpr h
    exact ⟨v, i, hi, hv⟩
  · rintro ⟨v, i, hi, h⟩
    exact ⟨i, hi, Instr.definition?_iff.mp ⟨v, h⟩⟩

theorem Block.defines_iff {b : Block} : b.defines x = true ↔ Defines b.instrs x := by
  simp [Block.defines, Defines, Option.any_eq_true]

namespace Versions

variable {env : Versions}

@[simp] theorem of_cons_self : Versions.of ((x, v) :: env) x = v := by
  simp [Versions.of]

theorem of_cons_ne (h : x ≠ y) : Versions.of ((y, v) :: env) x = env.of x := by
  simp [Versions.of, List.lookup_cons, beq_false_of_ne h]

theorem of_cons : Versions.of ((y, v) :: env) x = if x = y then v else env.of x := by
  split
  · subst_vars; exact of_cons_self
  · exact of_cons_ne ‹_›

end Versions

/-- The operands of an instruction after renaming. -/
def renamedOperands (env : Versions) (i : Instr) : List Value :=
  if i.op = .phi then i.operands else i.operands.map (Value.use env)

/-- Renaming an instruction gives its variable, if it defines one, the next version. -/
theorem renameInstr_cases (env last : Versions) (i : Instr) :
    (i.definedVar? = none ∧ i.definition? = none ∧
      renameInstr env last i = ({ i with operands := renamedOperands env i }, env, last)) ∨
    ∃ x t, i.definedVar? = some (x, t) ∧
      renameInstr env last i =
        ({ i with operands := renamedOperands env i,
                  result := some (.var x (last.of x + 1) t) },
          (x, last.of x + 1) :: env, (x, last.of x + 1) :: last) := by
  unfold renameInstr Instr.definedVar? Instr.definition?
  rcases hr : i.result with _ | v
  · exact .inl ⟨rfl, rfl, rfl⟩
  · cases v with
    | var x v t => exact .inr ⟨x, t, rfl, rfl⟩
    | _ => exact .inl ⟨rfl, rfl, rfl⟩

theorem renameInstrs_cons (env last : Versions) (i : Instr) (is : List Instr) :
    renameInstrs env last (i :: is) =
      ((renameInstr env last i).1 ::
        (renameInstrs (renameInstr env last i).2.1 (renameInstr env last i).2.2 is).1,
        (renameInstrs (renameInstr env last i).2.1 (renameInstr env last i).2.2 is).2) :=
  rfl

theorem renameInstrs_append (env last : Versions) (is js : List Instr) :
    renameInstrs env last (is ++ js) =
      ((renameInstrs env last is).1 ++
        (renameInstrs (renameInstrs env last is).2.1 (renameInstrs env last is).2.2 js).1,
        (renameInstrs (renameInstrs env last is).2.1 (renameInstrs env last is).2.2 js).2) := by
  induction is generalizing env last with
  | nil => rfl
  | cons i is ih => simp [renameInstrs_cons, ih]

theorem op_renameInstr (env last : Versions) (i : Instr) :
    (renameInstr env last i).1.op = i.op := by
  rcases renameInstr_cases env last i with ⟨_, _, h⟩ | ⟨_, _, _, h⟩ <;> rw [h]

theorem renameInstrs_ne_phi (env last : Versions) (h : ∀ i ∈ is, i.op ≠ .phi) :
    ∀ i ∈ (renameInstrs env last is).1, i.op ≠ .phi := by
  induction is generalizing env last with
  | nil => exact h
  | cons j is ih =>
    obtain ⟨hj, his⟩ := List.forall_mem_cons.mp h
    rw [renameInstrs_cons]
    exact List.forall_mem_cons.mpr ⟨by rwa [op_renameInstr], ih _ _ his⟩

/-- What renaming instructions does to versions: the versions given are new and differ, and at the
end each variable has the version of its last definition. -/
structure Numbered (env last : Versions) (is is' : List Instr) (env' last' : Versions) : Prop where
  last_le : ∀ x, last.of x ≤ last'.of x
  above : ∀ x v, (x, v) ∈ definitions is' → last.of x < v ∧ v ≤ last'.of x
  nodup : (definitions is').Nodup
  kept : ∀ x, ¬Defines is x → env'.of x = env.of x
  defined : ∀ x, Defines is x → (x, env'.of x) ∈ definitions is'
  defines : ∀ x, Defines is' x ↔ Defines is x

namespace Numbered

theorem nil (env last : Versions) : Numbered env last [] [] env last where
  last_le _ := Nat.le_refl _
  above := by simp [definitions]
  nodup := List.nodup_nil
  kept _ _ := rfl
  defined := by simp [Defines]
  defines _ := Iff.rfl

theorem single (env last : Versions) (i : Instr) :
    Numbered env last [i] [(renameInstr env last i).1] (renameInstr env last i).2.1
      (renameInstr env last i).2.2 := by
  rcases renameInstr_cases env last i with ⟨hvar, hdef, he⟩ | ⟨x, t, hvar, he⟩
  · rw [he]
    have hdefs : definitions [{ i with operands := renamedOperands env i }] = [] := by
      simpa [definitions, Instr.definition?] using hdef
    have hnone (y : String) : ¬Defines [i] y := by simp [Defines, hvar]
    refine ⟨fun _ => Nat.le_refl _, by simp [hdefs], by simp [hdefs], fun _ _ => rfl,
      fun y h => absurd h (hnone y), fun y => ?_⟩
    exact ⟨fun h => absurd (defines_iff_definitions.mp h) (by simp [hdefs]),
      fun h => absurd h (hnone y)⟩
  · rw [he]
    have hdefs : definitions [{ i with
        operands := renamedOperands env i,
        result := some (.var x (last.of x + 1) t) }] = [(x, last.of x + 1)] := rfl
    have hone (y : String) : Defines [i] y ↔ y = x := by
      simp [Defines, hvar, eq_comm]
    refine ⟨fun y => ?_, fun y v => ?_, ?_, fun y hy => ?_, fun y hy => ?_, fun y => ?_⟩
    · rw [Versions.of_cons]
      split
      · subst_vars; omega
      · exact Nat.le_refl _
    · rw [hdefs, List.mem_singleton, Prod.mk.injEq]
      rintro ⟨rfl, rfl⟩
      simp
    · simp [hdefs]
    · exact Versions.of_cons_ne fun h => hy ((hone y).mpr h)
    · cases (hone y).mp hy
      simp [hdefs]
    · rw [defines_iff_definitions, hdefs, hone]
      simp

theorem append (h₁ : Numbered env last is is' e l) (h₂ : Numbered e l js js' env' last') :
    Numbered env last (is ++ js) (is' ++ js') env' last' := by
  have hdefs : definitions (is' ++ js') = definitions is' ++ definitions js' :=
    List.filterMap_append ..
  have hsplit (ks ks' : List Instr) (x : String) :
      Defines (ks ++ ks') x ↔ Defines ks x ∨ Defines ks' x := by
    simp only [Defines, List.mem_append, or_and_right, exists_or]
  refine ⟨fun x => Nat.le_trans (h₁.last_le x) (h₂.last_le x), fun x v hv => ?_, ?_, fun x hx => ?_,
    fun x hx => ?_, fun x => ?_⟩
  · rw [hdefs] at hv
    rcases List.mem_append.mp hv with hv | hv
    · exact ⟨(h₁.above x v hv).1, Nat.le_trans (h₁.above x v hv).2 (h₂.last_le x)⟩
    · exact ⟨Nat.lt_of_le_of_lt (h₁.last_le x) (h₂.above x v hv).1, (h₂.above x v hv).2⟩
  · rw [hdefs]
    refine List.nodup_append.mpr ⟨h₁.nodup, h₂.nodup, ?_⟩
    rintro ⟨x, v⟩ hx _ hy rfl
    have := (h₁.above x v hx).2
    have := (h₂.above x v hy).1
    omega
  · rw [hsplit, not_or] at hx
    rw [h₂.kept x hx.2, h₁.kept x hx.1]
  · rw [hdefs, List.mem_append]
    by_cases hj : Defines js x
    · exact .inr (h₂.defined x hj)
    · rw [h₂.kept x hj]
      exact .inl (h₁.defined x (((hsplit ..).mp hx).resolve_right hj))
  · rw [hsplit, hsplit, h₁.defines, h₂.defines]

end Numbered

theorem renameInstrs_numbered (env last : Versions) (is : List Instr) :
    Numbered env last is (renameInstrs env last is).1 (renameInstrs env last is).2.1
      (renameInstrs env last is).2.2 := by
  induction is generalizing env last with
  | nil => exact .nil env last
  | cons i is ih => exact (Numbered.single env last i).append (ih _ _)

end BasicSSA.IL
