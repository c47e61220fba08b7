import BasicSSA.IL.Phi
import BasicSSA.Lower.Names

/-!
# Labels and versions

Labels that were made from hints tell their hints and numbers. The versions of a variable are
counted.
-/

namespace BasicSSA

namespace Lower

/-- Whether blocks may be named after a hint. No number in it is taken for one that is put behind
it. -/
def isHint (hint : String) : Bool :=
  hint ≠ "" && hint ≠ "entry" && hint.toList.all (!·.isDigit)

/-- The label with a number behind a hint. -/
def labelText (hint : String) (count : Nat) : String :=
  if count = 0 then hint else hint ++ "." ++ toString count

theorem isHint_iff : isHint hint = true ↔
    hint ≠ "" ∧ hint ≠ "entry" ∧ ∀ c ∈ hint.toList, c.isDigit = false := by
  simp [isHint, and_assoc]

theorem toList_labelText : (labelText hint count).toList =
    hint.toList ++ if count = 0 then [] else '.' :: Nat.toDigits 10 count := by
  unfold labelText
  split
  · simp
  · simp [toString, Nat.repr]

theorem takeWhile_labelText (count : Nat) (h : isHint hint = true) :
    (labelText hint count).toList.takeWhile (!·.isDigit) =
      hint.toList ++ if count = 0 then [] else ['.'] := by
  obtain ⟨-, -, hdigits⟩ := isHint_iff.mp h
  rw [toList_labelText, List.takeWhile_append_of_pos fun c hc => by simp [hdigits c hc]]
  congr 1
  split
  · rfl
  · cases hd : Nat.toDigits 10 count with
    | nil => exact absurd hd Nat.toDigits_ne_nil
    | cons d ds =>
      have : d.isDigit = true :=
        Nat.isDigit_of_mem_toDigits (by decide) (by decide) (hd ▸ List.mem_cons_self)
      simp [this]

theorem labelText_injective (h : isHint hint = true) (h' : isHint hint' = true)
    (he : labelText hint m = labelText hint' n) : hint = hint' ∧ m = n := by
  have hpre := takeWhile_labelText m h
  rw [he, takeWhile_labelText n h'] at hpre
  have hlist := congrArg String.toList he
  simp only [toList_labelText] at hlist
  by_cases hm : m = 0 <;> by_cases hn : n = 0
  · simp only [hm, hn, if_true, List.append_nil] at hlist
    exact ⟨String.toList_inj.mp hlist, by omega⟩
  · -- A number after a hint is not part of a hint.
    simp only [hm, hn, if_true, if_false, List.append_nil] at hpre hlist
    rw [← hpre] at hlist
    simp [Nat.toDigits_ne_nil] at hlist
  · simp only [hm, hn, if_true, if_false, List.append_nil] at hpre hlist
    rw [hpre] at hlist
    simp [Nat.toDigits_ne_nil] at hlist
  · simp only [hm, hn, if_false, List.append_cancel_right_eq] at hpre
    obtain rfl := String.toList_inj.mp hpre
    simp only [hm, hn, if_false, List.append_cancel_left_eq, List.cons.injEq, true_and] at hlist
    have hnumber := congrArg (Nat.ofDigitChars 10 · 0) hlist
    exact ⟨rfl, by simpa [Nat.ofDigitChars_ten_toDigits] using hnumber⟩

theorem labelText_ne_entry (h : isHint hint = true) : labelText hint count ≠ "entry" := by
  intro he
  obtain ⟨-, hentry, -⟩ := isHint_iff.mp h
  have hlist := congrArg String.toList he
  rw [toList_labelText] at hlist
  by_cases hc : count = 0
  · simp only [labelText, hc, if_true] at he
    exact hentry he
  · have hdot : '.' ∈ "entry".toList := by
      rw [← hlist]
      simp [hc]
    revert hdot
    decide

theorem labelText_ne_empty (h : isHint hint = true) : (labelText hint count).isEmpty = false := by
  obtain ⟨hne, -, -⟩ := isHint_iff.mp h
  unfold labelText
  split <;> simp [hne]

end Lower

namespace Names

variable {n : Names}

theorem fresh_keeps : ∃ used, (n.fresh b).2 = { n with used } := by
  unfold fresh
  split
  · exact ⟨_, rfl⟩
  · exact ⟨_, rfl⟩

theorem nameOf_of_lookup (h : n.varNames.lookup x = some name) :
    n.nameOf x w = (name, n) := by
  simp [nameOf, h]

/-- A variable has the name that was chosen, and so have those that were named before. -/
theorem lookup_nameOf :
    (n.nameOf x w).2.varNames.lookup x = some (n.nameOf x w).1 ∧
      ∀ y name, n.varNames.lookup y = some name →
        (n.nameOf x w).2.varNames.lookup y = some name := by
  cases h : n.varNames.lookup x with
  | some name => simp [nameOf_of_lookup h, h]
  | none =>
    simp only [nameOf, h]
    obtain ⟨used, hu⟩ := fresh_keeps (n := n) (b := w)
    refine ⟨by simp, fun y name hy => ?_⟩
    have hne : (y == x) = false := by
      refine beq_eq_false_iff_ne.mpr fun he => ?_
      rw [he, h] at hy
      cases hy
    rw [hu, List.lookup_cons, hne]
    exact hy

theorem nameOf_keeps : ∃ used varNames, (n.nameOf x w).2 = { n with used, varNames } := by
  unfold nameOf
  split
  · exact ⟨_, _, rfl⟩
  · obtain ⟨used, hu⟩ := fresh_keeps (n := n) (b := w)
    exact ⟨used, (x, (n.fresh w).1) :: n.varNames, by simp [hu]⟩

end Names

/-! ### Versions in one block -/

namespace IL

/-- Whether an instruction defines a variable. -/
def Instr.defines (i : Instr) (x : String) : Bool :=
  i.definedVar?.any (·.1 = x)

/-- The definitions of each variable have the versions from 1 on, in order. -/
structure Consecutive (instrs : List Instr) (latest : List (String × Nat)) : Prop where
  version : ∀ pre i post x v t, instrs = pre ++ i :: post → i.result = some (.var x v t) →
    v = pre.countP (·.defines x) + 1
  latest : ∀ x, (latest.lookup x).getD 0 = instrs.countP (·.defines x)

namespace Consecutive

variable {latest : List (String × Nat)}

theorem nil : Consecutive [] [] :=
  ⟨by simp, by simp⟩

theorem init (h : Consecutive (instrs ++ [i]) latest) (hi : i.definedVar? = none) :
    Consecutive instrs latest where
  version pre i' post x v t he := h.version pre i' (post ++ [i]) x v t (by simp [he])
  latest x := by simpa [Instr.defines, hi] using h.latest x

theorem push (h : Consecutive instrs latest) (hi : i.definedVar? = none) :
    Consecutive (instrs ++ [i]) latest where
  version pre i' post x v t he hr := by
    rcases List.eq_nil_or_concat post with rfl | ⟨post, last, rfl⟩
    · obtain ⟨rfl, rfl⟩ : instrs = pre ∧ i = i' := by simpa using List.append_inj' he rfl
      simp [Instr.definedVar?, hr] at hi
    · have he : instrs ++ [i] = (pre ++ i' :: post) ++ [last] := by simpa using he
      exact h.version pre i' post x v t (List.append_inj' he rfl).1 hr
  latest x := by simpa [Instr.defines, hi] using h.latest x

/-- An instruction that defines the next version of a variable. -/
theorem pushDefinition (h : Consecutive instrs latest)
    (hi : i.result = some (.var x ((latest.lookup x).getD 0 + 1) t)) :
    Consecutive (instrs ++ [i]) ((x, (latest.lookup x).getD 0 + 1) :: latest) where
  version pre i' post y v t' he hr := by
    rcases List.eq_nil_or_concat post with rfl | ⟨post, last, rfl⟩
    · obtain ⟨rfl, rfl⟩ : instrs = pre ∧ i = i' := by simpa using List.append_inj' he rfl
      rw [hi] at hr
      cases hr
      rw [h.latest]
    · have he : instrs ++ [i] = (pre ++ i' :: post) ++ [last] := by simpa using he
      exact h.version pre i' post y v t' (List.append_inj' he rfl).1 hr
  latest y := by
    have hy : i.defines y = decide (x = y) := by simp [Instr.defines, Instr.definedVar?, hi]
    rw [List.lookup_cons, List.countP_append, List.countP_singleton, hy, ← h.latest y]
    by_cases hxy : y = x
    · subst hxy
      simp
    · have : (y == x) = false := by simpa using hxy
      simp [this, Ne.symm hxy]

end Consecutive

end IL

end BasicSSA
