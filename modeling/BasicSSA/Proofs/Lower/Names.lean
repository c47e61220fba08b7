import BasicSSA.Proofs.Lower.Declarations
import BasicSSA.Proofs.Lower.Naming

/-!
# Names of variables

Every name that is given to a variable is free before, whatever the case of its letters: the search
for a number behind it ends, since only finitely many names are in use. So two variables never share
a name, and a function lists each of its variables once.

## Main definitions

* `Names.Apart`: the names of variables are all different, and so are those that a function lists.
-/

namespace BasicSSA

/-- The names of the parameters and the other variables of a function. -/
def IL.Function.slotNames (f : IL.Function) : List String :=
  (f.params ++ f.locals).map (·.name)

namespace Names

variable {n : Names}

/-! ### The search for a free name -/

theorem isUsed_iff : n.isUsed a = true ↔ foldCase a ∈ n.used.map (·.1) := by
  rw [isUsed, List.lookup_isSome_iff]
  simp

theorem numbered_injective (h : foldCase (numbered base i) = foldCase (numbered base j)) : i = j := by
  have hdigits (k : Nat) : (Nat.toDigits 10 k).map Char.toUpper = Nat.toDigits 10 k := by
    refine (List.map_congr_left fun c hc => ?_).trans (List.map_id _)
    have hdigit := Nat.isDigit_of_mem_toDigits (by decide) (by decide) hc
    simp only [Char.isDigit, Bool.and_eq_true, decide_eq_true_eq] at hdigit
    delta Char.toUpper
    rw [dif_neg fun h => absurd (UInt32.le_trans h.1 hdigit.2) (by decide), id]
  have hlist := String.ofList_injective h
  simp only [numbered, String.toList_append, List.map_append, List.append_assoc,
    List.append_cancel_left_eq, Nat.toString_eq_ofList_toDigits, String.toList_ofList,
    hdigits] at hlist
  have hnumber := congrArg (Nat.ofDigitChars 10 · 0) hlist
  simpa [Nat.ofDigitChars_ten_toDigits] using hnumber

/-- The search comes to a free name, unless all names that it looks at are in use. -/
theorem isUsed_freeNumberAux (fuel k : Nat) :
    n.isUsed (numbered base (n.freeNumberAux base fuel k)) = false ∨
      ∀ i < fuel, n.isUsed (numbered base (k + i)) = true := by
  induction fuel generalizing k with
  | zero => exact .inr (by simp)
  | succ fuel ih =>
    rw [freeNumberAux]
    split
    · rename_i hk
      refine (ih (k + 1)).imp_right fun hall i hi => ?_
      cases i with
      | zero => exact hk
      | succ i => exact Nat.add_right_comm k 1 i ▸ hall i (Nat.lt_of_succ_lt_succ hi)
    · rename_i hk
      exact .inl (Bool.eq_false_iff.mpr hk)

/-- The search looks at one number after the other, and passes those whose names are in use. -/
theorem isUsed_of_lt_freeNumberAux (fuel k : Nat) : k ≤ n.freeNumberAux base fuel k ∧
    ∀ j, k ≤ j → j < n.freeNumberAux base fuel k → n.isUsed (numbered base j) = true := by
  induction fuel generalizing k with
  | zero => exact ⟨Nat.le_refl k, fun j hj hlt => absurd hlt (Nat.not_lt.mpr hj)⟩
  | succ fuel ih =>
    rw [freeNumberAux]
    split
    · rename_i hk
      obtain ⟨hle, hall⟩ := ih (k + 1)
      refine ⟨Nat.le_of_succ_le hle, fun j hj hlt => ?_⟩
      rcases Nat.eq_or_lt_of_le hj with rfl | hj
      · exact hk
      · exact hall j hj hlt
    · exact ⟨Nat.le_refl k, fun j hj hlt => absurd hlt (Nat.not_lt.mpr hj)⟩

theorem length_of_numbered {keys : List String} (k : Nat)
    (h : ∀ i < count, foldCase (numbered base (k + i)) ∈ keys) : count ≤ keys.length := by
  induction count generalizing keys k with
  | zero => exact Nat.zero_le _
  | succ count ih =>
    have hfirst : foldCase (numbered base k) ∈ keys := h 0 (Nat.succ_pos count)
    have hrest := @ih (keys.erase (foldCase (numbered base k))) (k + 1) fun i hi => by
      refine (List.mem_erase_of_ne fun he => ?_).mpr ?_
      · have := numbered_injective he
        omega
      · exact Nat.add_right_comm k 1 i ▸ h (i + 1) (Nat.succ_lt_succ hi)
    rw [List.length_erase_of_mem hfirst] at hrest
    have := List.length_pos_of_mem hfirst
    omega

/-- A name with a number is found that is not in use. -/
theorem isUsed_freeNumber (n : Names) (base : String) (k : Nat) :
    n.isUsed (numbered base (n.freeNumber base k)) = false := by
  refine (isUsed_freeNumberAux _ k).resolve_right fun hall => ?_
  have hlength := length_of_numbered k fun i hi => isUsed_iff.mp (hall i hi)
  rw [List.length_map] at hlength
  omega

theorem isUsed_fresh (n : Names) (base : String) : n.isUsed (n.fresh base).1 = false ∧
    ∀ a, (n.fresh base).2.isUsed a = true ↔ n.isUsed a = true ∨ foldCase a = foldCase (n.fresh base).1 := by
  unfold fresh
  split
  · rename_i hnone
    refine ⟨by simp [isUsed, hnone], fun a => ?_⟩
    simp [isUsed_iff, or_comm]
  · rename_i next hnext
    refine ⟨n.isUsed_freeNumber base next, fun a => ?_⟩
    have hbase : foldCase base ∈ n.used.map (·.1) := isUsed_iff.mp (by simp [isUsed, hnext])
    simp only [isUsed_iff, List.map_cons, List.mem_cons]
    constructor
    · rintro (h | h | h)
      · exact .inr h
      · exact .inl (h ▸ hbase)
      · exact .inl h
    · rintro (h | h)
      · exact .inr (.inr h)
      · exact .inl h

/-! ### Names that differ -/

/-- No two variables have the same name, and neither have two of those that are listed: each of them
is the name of a variable, or that of none. What was declared is listed. Of the variables from the
number `k` on none is. -/
structure Apart (n : Names) (k : Nat) (ds : List Declaration) (listed : List String) : Prop where
  distinct : ∀ x y a b, n.varNames.lookup x = some a → n.varNames.lookup y = some b →
    foldCase a = foldCase b → x = y
  taken : ∀ x a, n.varNames.lookup x = some a → n.isUsed a = true
  nodup : (listed.map foldCase).Nodup
  used : ∀ a ∈ listed, n.isUsed a = true
  owned : ∀ a ∈ listed, (∃ x, n.varNames.lookup x = some a) ∨
    ∀ x b, n.varNames.lookup x = some b → foldCase b ≠ foldCase a
  free : ∀ x a, k ≤ x.index → n.varNames.lookup x = some a → ∀ b ∈ listed, foldCase b ≠ foldCase a
  declared : ∀ x, .new x ∈ ds → ∃ a ∈ listed, n.varNames.lookup x = some a
  own : ∀ a, .own a ∈ ds → a ∈ listed ∧
    ∀ x b, n.varNames.lookup x = some b → foldCase b ≠ foldCase a

/-- The names are apart, if what was declared so far is in order. -/
def Lists (n : Names) (ds : List Declaration) (listed : List String) : Prop :=
  ∀ hi, Declaration.InOrder 0 hi ds → n.Apart hi ds listed

/-- Names that are apart still are. -/
def Keeps (n n' : Names) : Prop :=
  ∀ k ds listed, n.Apart k ds listed → n'.Apart k ds listed

/-- Only the names of variables count, and the names in use. -/
theorem Keeps.alike (hv : n'.varNames = n.varNames) (hu : n'.used = n.used) : n.Keeps n' := by
  intro k ds listed h
  have hused (a : String) : n'.isUsed a = n.isUsed a := by rw [isUsed, hu, isUsed]
  exact ⟨by grind [h.distinct], by grind [h.taken], h.nodup, by grind [h.used], by grind [h.owned],
    by grind [h.free], by grind [h.declared], by grind [h.own]⟩

namespace Apart

theorem mono (h : n.Apart k ds listed) (hk : k ≤ k') : n.Apart k' ds listed :=
  { h with free := fun x a hx => h.free x a (Nat.le_trans hk hx) }

/-- Less was declared. It is not said of the variable of a `For` loop that it is listed. -/
theorem count (h : n.Apart k ds listed) (hds : ∀ d ∈ ds', d ∈ ds ∨ ∃ x, d = .counter x) :
    n.Apart k ds' listed :=
  { h with declared := by grind [h.declared], own := by grind [h.own] }

theorem ne_of_isUsed (ha : n.isUsed a = true) (hb : n.isUsed b = false) : foldCase a ≠ foldCase b := by
  intro he
  rw [isUsed, he, ← isUsed, hb] at ha
  cases ha

section

variable (h : n.Apart k ds listed)

include h

theorem list (ha : n.isUsed a = true)
    (hnew : ∀ b ∈ listed, foldCase b ≠ foldCase a)
    (howned : (∃ x, n.varNames.lookup x = some a ∧ x.index < k) ∨
      ∀ x b, n.varNames.lookup x = some b → foldCase b ≠ foldCase a) :
    n.Apart k ds (listed ++ [a]) := by
  refine ⟨h.distinct, h.taken, ?_, ?_, ?_, ?_, ?_, ?_⟩
  · grind [List.nodup_append, h.nodup]
  · grind [h.used]
  · grind [h.owned]
  · grind [h.free, h.distinct]
  · grind [h.declared]
  · grind [h.own]

theorem fresh (base : String) :
    (n.fresh base).2.Apart k ds listed ∧ (∀ b ∈ listed, foldCase b ≠ foldCase (n.fresh base).1) ∧
      ∀ x b, n.varNames.lookup x = some b → foldCase b ≠ foldCase (n.fresh base).1 := by
  obtain ⟨hnew, hused⟩ := n.isUsed_fresh base
  obtain ⟨used, hsame⟩ := fresh_keeps (n := n) (b := base)
  have hvars : (n.fresh base).2.varNames = n.varNames := by rw [hsame]
  refine ⟨⟨?_, ?_, h.nodup, ?_, ?_, ?_, ?_, ?_⟩, fun b hb => ne_of_isUsed (h.used b hb) hnew,
    fun x b hx => ne_of_isUsed (h.taken x b hx) hnew⟩
  · rw [hvars]
    exact h.distinct
  · grind [h.taken]
  · grind [h.used]
  · rw [hvars]
    exact h.owned
  · rw [hvars]
    exact h.free
  · rw [hvars]
    exact h.declared
  · rw [hvars]
    exact h.own

theorem hide (base : String) :
    (n.fresh base).2.Apart k ds (listed ++ [(n.fresh base).1]) := by
  obtain ⟨hfresh, hlisted, hvars⟩ := h.fresh base
  obtain ⟨used, hsame⟩ := fresh_keeps (n := n) (b := base)
  refine hfresh.list (((n.isUsed_fresh base).2 _).mpr (.inr rfl)) hlisted (.inr ?_)
  rw [hsame]
  exact hvars

theorem assign (hx : n.varNames.lookup x = none) (ha : n.isUsed a = true)
    (hlisted : ∀ b ∈ listed, foldCase b ≠ foldCase a)
    (hvars : ∀ y b, n.varNames.lookup y = some b → foldCase b ≠ foldCase a) :
    { n with varNames := (x, a) :: n.varNames }.Apart k ds listed := by
  have hlookup (y : SymbolId) : ((x, a) :: n.varNames).lookup y =
      if y = x then some a else n.varNames.lookup y := by
    rw [List.lookup_cons]
    split <;> simp_all
  refine ⟨?_, fun y b hy => ?_, h.nodup, h.used, ?_, ?_, ?_, ?_⟩
  · grind [h.distinct]
  · show n.isUsed b = true
    grind [h.taken]
  · grind [h.owned]
  · grind [h.free]
  · grind [h.declared]
  · grind [h.own]

theorem nameOf (x : SymbolId) (wanted : String) :
    (n.nameOf x wanted).2.Apart k ds listed ∧ (n.varNames.lookup x = none →
      ∀ b ∈ listed, foldCase b ≠ foldCase (n.nameOf x wanted).1) := by
  cases hx : n.varNames.lookup x with
  | some a => simpa [nameOf_of_lookup hx] using h
  | none =>
    obtain ⟨hfresh, hlisted, hvars⟩ := h.fresh wanted
    obtain ⟨used, hsame⟩ := fresh_keeps (n := n) (b := wanted)
    have hused := ((n.isUsed_fresh wanted).2 _).mpr (.inr rfl)
    simp only [Names.nameOf, hx]
    refine ⟨hfresh.assign ?_ hused hlisted ?_, fun _ => hlisted⟩
    all_goals rw [hsame]
    · exact hx
    · exact hvars

theorem declare (hx : k ≤ x.index ∨ n.varNames.lookup x = none)
    (hk : k ≤ k') (hlt : x.index < k') :
    (n.nameOf x wanted).2.Apart k' (ds ++ [.new x]) (listed ++ [(n.nameOf x wanted).1]) := by
  obtain ⟨hnamed, hnew⟩ := h.nameOf x wanted
  obtain ⟨hlookup, -⟩ := lookup_nameOf (n := n) (x := x) (w := wanted)
  have hlisted := (hnamed.mono hk).list (hnamed.taken x _ hlookup) (hx.elim
    (hnamed.free x _ · hlookup) hnew) (.inl ⟨x, hlookup, hlt⟩)
  exact { hlisted with declared := by grind [hlisted.declared], own := by grind [hlisted.own] }

end

end Apart

end Names

end BasicSSA
