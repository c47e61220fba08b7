import Mathlib.Logic.Function.Basic
import BasicSSA.Proofs.Lower.Draft

/-!
# Certificates of definedness

A certificate gives for each block of a function what is defined whenever the block starts: its
variables by name, and its temporaries. It is a certificate if every use in a block has its
definition before it or is given for the block, and every jump leads to a block for which no more is
given than is defined at the jump. Temporaries have one definition each.
-/

namespace BasicSSA.IL

/-- What a value names in a function. Versions of a variable are not told apart. -/
inductive Key where
  | var (name : String)
  | temp (id : Nat)

def Value.key? : Value → Option Key
  | .var name _ _ => some (.var name)
  | .temp id _ => some (.temp id)
  | _ => none

theorem Value.key?_eq_none {v : Value} (h : v.isConstant = true) : v.key? = none := by
  cases v <;> first | rfl | cases h

/-- What an instruction defines. -/
def Instr.key? (i : Instr) : Option Key :=
  i.result.bind Value.key?

/-- The keys that are given for the blocks. -/
abbrev Given := Nat → Key → Prop

namespace Function

/-- The instruction at a place of a block. -/
def instr? (f : Function) (k j : Nat) : Option Instr :=
  (f.block k).instrs[j]?

/-- What is defined at the end of a block, as far as it has code. -/
def Out (A : Given) (f : Function) (k : Nat) (x : Key) : Prop :=
  A k x ∨ ∃ j i, f.instr? k j = some i ∧ i.key? = some x

/-- What is given for the blocks is defined there. All temporaries have numbers below `next`. -/
structure Certified (A : Given) (next : Nat) (f : Function) : Prop where
  entry : ∀ x, A 0 x → ∃ q ∈ f.params, x = .var q.name
  uses : ∀ k j i, f.instr? k j = some i → ∀ v ∈ i.operands, ∀ x, v.key? = some x →
    A k x ∨ ∃ j' i', j' < j ∧ f.instr? k j' = some i' ∧ i'.key? = some x
  edges : ∀ k j i, f.instr? k j = some i → ∀ l ∈ i.labels,
    ∃ k', k' < f.blocks.length ∧ f.label k' = l ∧ ∀ x, A k' x → f.Out A k x
  once : ∀ k j i k' j' i' t, f.instr? k j = some i → f.instr? k' j' = some i' →
    i.key? = some (.temp t) → i'.key? = some (.temp t) → k = k' ∧ j = j'
  below : ∀ k j i t, f.instr? k j = some i → i.key? = some (.temp t) → t < next
  belowGiven : ∀ k t, A k (.temp t) → t < next

variable {f : Function}

/-! ### Instructions of changed functions -/

theorem instr?_push (hn : n < f.blocks.length) :
    (f.push n i).instr? k j = some i' ↔
      f.instr? k j = some i' ∨ k = n ∧ j = (f.block n).instrs.length ∧ i' = i := by
  by_cases hk : k = n
  · subst hk
    simp only [instr?, block_push hn, List.getElem?_append]
    grind
  · simp [instr?, block_push_ne hk, hk]

theorem instr?_beyond (h : f.blocks.length ≤ k) : f.instr? k j = none := by
  simp only [instr?, block, List.getD_eq_getElem?_getD, List.getElem?_eq_none h, Option.getD_none]
  rfl

@[simp] theorem instr?_addBlock : (f.addBlock l).instr? k j = f.instr? k j := by
  by_cases hk : k < f.blocks.length
  · rw [instr?, block_addBlock hk, instr?]
  · rw [instr?_beyond (Nat.le_of_not_lt hk)]
    rcases Nat.lt_or_eq_of_le (Nat.le_of_not_lt hk) with hlt | rfl
    · exact instr?_beyond (by simp; omega)
    · simp [instr?]

@[simp] theorem label_addBlock_length : (f.addBlock l).label f.blocks.length = l := by
  simp [label]

theorem label_addBlock (hk : k < f.blocks.length) : (f.addBlock l).label k = f.label k := by
  rw [label, block_addBlock hk, label]

/-- The function where the last instruction of a block has another result. -/
def setResult (f : Function) (n : Nat) (last : Instr) (target : Value) : Function :=
  { f with blocks := f.blocks.modify n fun b =>
      { b with instrs := b.instrs.dropLast ++ [{ last with result := some target }] } }

@[simp] theorem length_setResult :
    (f.setResult n last target).blocks.length = f.blocks.length := by
  simp [setResult]

theorem block_setResult_ne (h : k ≠ n) : (f.setResult n last target).block k = f.block k := by
  simp [setResult, block, Ne.symm h]

theorem block_setResult (hn : n < f.blocks.length) :
    (f.setResult n last target).block n =
      { f.block n with
        instrs := (f.block n).instrs.dropLast ++ [{ last with result := some target }] } := by
  simp [setResult, block, hn]

@[simp] theorem label_setResult : (f.setResult n last target).label k = f.label k := by
  by_cases h : k = n
  · subst h
    by_cases hk : k < f.blocks.length
    · simp [label, block_setResult hk]
    · simp [label, setResult, block, hk]
  · simp [label, block_setResult_ne h]

/-- Only the last instruction of the block is another one. -/
theorem instr?_setResult (hn : n < f.blocks.length)
    (hlast : (f.block n).instrs.getLast? = some last) :
    (f.setResult n last target).instr? k j = some i' ↔
      if k = n ∧ j + 1 = (f.block n).instrs.length then i' = { last with result := some target }
      else f.instr? k j = some i' := by
  by_cases hk : k = n
  · subst hk
    obtain ⟨pre, hpre⟩ := List.getLast?_eq_some_iff.mp hlast
    simp only [instr?, block_setResult hn, hpre, List.dropLast_concat, List.getElem?_append]
    grind
  · simp [instr?, block_setResult_ne hk, hk]

/-! ### What is defined -/

theorem out_push (hn : n < f.blocks.length) :
    (f.push n i).Out A k x ↔ f.Out A k x ∨ k = n ∧ i.key? = some x := by
  simp only [Out, instr?_push hn]
  grind

@[simp] theorem out_addBlock : (f.addBlock l).Out A k x ↔ f.Out A k x := by
  simp [Out]

section

variable (hn : n < f.blocks.length) (hlast : (f.block n).instrs.getLast? = some last)

include hn hlast

/-- Only the temporary that the last instruction defined is no longer defined. -/
theorem out_setResult (hx : f.Out A k x)
    (hne : last.key? ≠ some x) : (f.setResult n last target).Out A k x := by
  refine hx.imp_right fun ⟨j, i, hi, hkey⟩ => ⟨j, i, (instr?_setResult hn hlast).mpr ?_, hkey⟩
  split
  · rename_i hj
    obtain ⟨rfl, hj⟩ := hj
    -- The instruction is the last one, which defines something else.
    obtain ⟨pre, hpre⟩ := List.getLast?_eq_some_iff.mp hlast
    simp only [instr?, hpre] at hi hj
    obtain rfl : j = pre.length := by simpa using hj
    obtain rfl : last = i := by simpa using hi
    exact absurd hkey hne
  · exact hi

theorem out_setResult_self (hkey : target.key? = some x) :
    (f.setResult n last target).Out A n x := by
  obtain ⟨pre, hpre⟩ := List.getLast?_eq_some_iff.mp hlast
  exact .inr ⟨pre.length, { last with result := some target },
    (instr?_setResult hn hlast).mpr (by simp [hpre]), by simp [Instr.key?, hkey]⟩

end

namespace Certified

/-- A new instruction uses what is defined, and jumps to blocks for which no more is given. Its
result is a variable or a new temporary. -/
theorem push (h : f.Certified A next) (hn : n < f.blocks.length) (hnext : next ≤ next')
    (huses : ∀ v ∈ i.operands, ∀ x, v.key? = some x → f.Out A n x)
    (hedges : ∀ l ∈ i.labels, ∃ k', k' < f.blocks.length ∧ f.label k' = l ∧
      ∀ x, A k' x → f.Out A n x)
    (hkey : ∀ t, i.key? = some (.temp t) → next ≤ t ∧ t < next') :
    (f.push n i).Certified A next' where
  entry := h.entry
  uses k j i' hi v hv x hx := by
    rcases (instr?_push hn).mp hi with hi | ⟨rfl, rfl, rfl⟩
    · refine (h.uses k j i' hi v hv x hx).imp_right fun ⟨j', i'', hj, hi'', hkey⟩ => ?_
      exact ⟨j', i'', hj, (instr?_push hn).mpr (.inl hi''), hkey⟩
    · refine (huses v hv x hx).imp_right fun ⟨j', i'', hi'', hkey⟩ => ?_
      exact ⟨j', i'', (List.getElem?_eq_some_iff.mp hi'').1, (instr?_push hn).mpr (.inl hi''), hkey⟩
  edges k j i' hi l hl := by
    have hedge : ∃ k', k' < f.blocks.length ∧ f.label k' = l ∧ ∀ x, A k' x → f.Out A k x := by
      rcases (instr?_push hn).mp hi with hi | ⟨rfl, rfl, rfl⟩
      · exact h.edges k j i' hi l hl
      · exact hedges l hl
    obtain ⟨k', hk', hlabel, hgiven⟩ := hedge
    exact ⟨k', by simpa using hk', by simpa using hlabel,
      fun x hx => (out_push hn).mpr (.inl (hgiven x hx))⟩
  once k j i₁ k' j' i₂ t hi₁ hi₂ hk₁ hk₂ := by
    have hold {k j i'} (hi : f.instr? k j = some i') (hk : i'.key? = some (.temp t)) :
        i.key? ≠ some (.temp t) := fun hnew =>
      absurd (h.below _ _ _ _ hi hk) (Nat.not_lt.mpr (hkey t hnew).1)
    rcases (instr?_push hn).mp hi₁ with h₁ | ⟨hk, hj, he₁⟩ <;>
      rcases (instr?_push hn).mp hi₂ with h₂ | ⟨hk', hj', he₂⟩
    · exact h.once k j i₁ k' j' i₂ t h₁ h₂ hk₁ hk₂
    · exact absurd (he₂ ▸ hk₂) (hold h₁ hk₁)
    · exact absurd (he₁ ▸ hk₁) (hold h₂ hk₂)
    · exact ⟨hk.trans hk'.symm, hj.trans hj'.symm⟩
  below k j i' t hi ht := by
    rcases (instr?_push hn).mp hi with hi | ⟨rfl, rfl, rfl⟩
    · exact Nat.lt_of_lt_of_le (h.below k j i' t hi ht) hnext
    · exact (hkey t ht).2
  belowGiven k t ht := Nat.lt_of_lt_of_le (h.belowGiven k t ht) hnext

/-- A new block may be given anything that is defined somewhere. -/
theorem addBlock (h : f.Certified A next) (hlen : f.blocks ≠ [])
    (hB : ∀ t, B (.temp t) → t < next) :
    (f.addBlock l).Certified (Function.update A f.blocks.length B) next := by
  have hlt {k j i} (hi : f.instr? k j = some i) : k < f.blocks.length :=
    Nat.lt_of_not_le fun hle => by simp [instr?_beyond hle] at hi
  have hsame {k j i} (hi : f.instr? k j = some i) :
      Function.update A f.blocks.length B k = A k :=
    Function.update_of_ne (Nat.ne_of_lt (hlt hi)) ..
  constructor
  case entry =>
    intro x hx
    have hne : (0 : Nat) ≠ f.blocks.length := fun h0 => hlen (List.length_eq_zero_iff.mp h0.symm)
    rw [Function.update_of_ne hne] at hx
    exact h.entry x hx
  case uses =>
    intro k j i hi v hv x hx
    rw [instr?_addBlock] at hi
    rw [hsame hi]
    simpa using h.uses k j i hi v hv x hx
  case edges =>
    intro k j i hi l' hl'
    rw [instr?_addBlock] at hi
    obtain ⟨k', hk', hlabel, hgiven⟩ := h.edges k j i hi l' hl'
    refine ⟨k', by simp; omega, by rwa [label_addBlock hk'], fun x hx => ?_⟩
    rw [Function.update_of_ne (Nat.ne_of_lt hk')] at hx
    exact (hgiven x hx).imp (fun h => by rwa [hsame hi]) (by simp)
  case once =>
    intro k j i k' j' i' t hi hi'
    exact h.once k j i k' j' i' t (by simpa using hi) (by simpa using hi')
  case below =>
    intro k j i t hi
    exact h.below k j i t (by simpa using hi)
  case belowGiven =>
    intro k t ht
    by_cases hk : k = f.blocks.length
    · subst hk
      exact hB t (by simpa using ht)
    · rw [Function.update_of_ne hk] at ht
      exact h.belowGiven k t ht

/-- The last instruction may define a variable in the place of a temporary that no block is given:
nothing uses it yet. -/
theorem setResult (h : f.Certified A next) (hn : n < f.blocks.length)
    (hlast : (f.block n).instrs.getLast? = some last) (hkey : last.key? = some (.temp t))
    (hgiven : ∀ k, ¬ A k (.temp t)) (htarget : target.key? = some (.var x)) :
    (f.setResult n last target).Certified A next := by
  obtain ⟨pre, hpre⟩ := List.getLast?_eq_some_iff.mp hlast
  have hlen : (f.block n).instrs.length = pre.length + 1 := by simp [hpre]
  have hlastAt : f.instr? n pre.length = some last := by simp [instr?, hpre]
  -- An instruction has the operands and the labels that one had at its place before.
  have hold {k j i} (hi : (f.setResult n last target).instr? k j = some i) :
      ∃ i₀, f.instr? k j = some i₀ ∧ i₀.operands = i.operands ∧ i₀.labels = i.labels ∧
        (i.key? = i₀.key? ∨ i.key? = some (.var x)) := by
    have hcase := (instr?_setResult hn hlast).mp hi
    split at hcase
    · rename_i hj
      obtain ⟨rfl, hj⟩ := hj
      obtain rfl : j = pre.length := by omega
      rw [hcase]
      exact ⟨last, hlastAt, rfl, rfl, .inr (by simp [Instr.key?, htarget])⟩
    · exact ⟨i, hcase, rfl, rfl, .inl rfl⟩
  have hout {k y} (hy : f.Out A k y) (hne : y ≠ .temp t) :
      (f.setResult n last target).Out A k y :=
    out_setResult hn hlast hy (by simpa [hkey] using Ne.symm hne)
  constructor
  case entry => exact h.entry
  case uses =>
    intro k j i hi v hv x hx
    obtain ⟨i₀, hi₀, hops, -, -⟩ := hold hi
    refine (h.uses k j i₀ hi₀ v (hops ▸ hv) x hx).imp_right fun ⟨j', i', hj, hi', hk⟩ => ?_
    refine ⟨j', i', hj, (instr?_setResult hn hlast).mpr ?_, hk⟩
    rw [if_neg ?_]
    · exact hi'
    · rintro ⟨rfl, hj'⟩
      have : j < (f.block k).instrs.length := (List.getElem?_eq_some_iff.mp hi₀).1
      omega
  case edges =>
    intro k j i hi l hl
    obtain ⟨i₀, hi₀, -, hlabels, -⟩ := hold hi
    obtain ⟨k', hk', hlabel, hgiven'⟩ := h.edges k j i₀ hi₀ l (hlabels ▸ hl)
    refine ⟨k', by simpa using hk', by simpa using hlabel, fun x hx => hout (hgiven' x hx) ?_⟩
    rintro rfl
    exact hgiven k' hx
  case once =>
    intro k j i k' j' i' t' hi hi' hk hk'
    obtain ⟨i₀, hi₀, -, -, hk₀⟩ := hold hi
    obtain ⟨i₁, hi₁, -, -, hk₁⟩ := hold hi'
    rw [hk] at hk₀
    rw [hk'] at hk₁
    exact h.once k j i₀ k' j' i₁ t' hi₀ hi₁ (hk₀.resolve_right (by simp)).symm (hk₁.resolve_right (by simp)).symm
  case below =>
    intro k j i t' hi hk
    obtain ⟨i₀, hi₀, -, -, hk₀⟩ := hold hi
    rw [hk] at hk₀
    exact h.below k j i₀ t' hi₀ (hk₀.resolve_right (by simp)).symm
  case belowGiven => exact h.belowGiven

/-- Nothing but the blocks and the parameters counts. -/
theorem congr {f' : Function} (h : f.Certified A next) (hb : f'.blocks = f.blocks)
    (hp : f'.params = f.params) : f'.Certified A next := by
  obtain ⟨name, returnType, params, locals, blocks⟩ := f
  obtain ⟨name', returnType', params', locals', blocks'⟩ := f'
  cases hb
  cases hp
  exact ⟨h.entry, h.uses, h.edges, h.once, h.below, h.belowGiven⟩

theorem belowOut (h : f.Certified A next) (hx : f.Out A k (.temp t)) : t < next := by
  rcases hx with hx | ⟨j, i, hi, hkey⟩
  · exact h.belowGiven k t hx
  · exact h.below k j i t hi hkey

end Certified

end Function

end BasicSSA.IL
