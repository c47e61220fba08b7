import BasicSSA.Proofs.Analysis.Stmt
import BasicSSA.Proofs.Lower.Discipline
import Mathlib.Algebra.Ring.Nat

/-!
# Constants from literals

A variable that holds whole numbers is declared only with whole numbers of its own width or less. So
a constant integer that a literal gives is the number of the literal, also where it went through a
double: all integers of at most 53 binary digits are doubles.
-/

namespace BasicSSA

open IL (Value Ty)

/-! ### Integers as doubles -/

theorem roundQuotient_one (n : Nat) : roundQuotient n 1 = n := by
  simp [roundQuotient, Nat.mod_one]

theorem ratioLog2_one (h : n ≠ 0) : ratioLog2 n 1 = n.log2 := by
  simp [ratioLog2, show Nat.log2 1 = 0 from rfl, Nat.log2_self_le h]

theorem fst_dyadicRatio_zero (unit : Int) : (dyadicRatio 0 unit).1 = 0 := by
  unfold dyadicRatio
  split
  · exact Nat.zero_mul _
  · rfl

namespace BinaryFormat

/-- The pattern of an integer: its digits, shifted to 53 of them, and the scale. -/
theorem ofRatio_one (h0 : n ≠ 0) (h : n < 2 ^ 53) :
    double.ofRatio n 1 = n * 2 ^ (52 - n.log2) + (n.log2 + 1022) * 2 ^ 52 ∧
      2 ^ 52 ≤ n * 2 ^ (52 - n.log2) ∧ n * 2 ^ (52 - n.log2) < 2 ^ 53 ∧ n.log2 ≤ 52 := by
  have hlog : n.log2 < 53 := (Nat.log2_lt h0).mpr h
  have hpow : 2 ^ n.log2 * 2 ^ (52 - n.log2) = 2 ^ 52 := by
    rw [← Nat.pow_add, Nat.add_sub_cancel' (by omega)]
  have hle : 2 ^ 52 ≤ n * 2 ^ (52 - n.log2) :=
    hpow ▸ Nat.mul_le_mul_right _ (Nat.log2_self_le h0)
  have hlt : n * 2 ^ (52 - n.log2) < 2 ^ 53 := by
    calc n * 2 ^ (52 - n.log2) < 2 ^ (n.log2 + 1) * 2 ^ (52 - n.log2) :=
          Nat.mul_lt_mul_of_pos_right Nat.lt_log2_self (Nat.two_pow_pos _)
      _ = 2 ^ 52 * 2 := by rw [Nat.pow_succ, Nat.mul_right_comm, hpow]
      _ = 2 ^ 53 := rfl
  refine ⟨?_, hle, hlt, by omega⟩
  have hunit : max ((n.log2 : Int) - 52) (-1074) = n.log2 - 52 := by omega
  have hscale : ((n.log2 : Int) - 52 - -1074).toNat = n.log2 + 1022 := by omega
  have hmantissa : (if 0 ≤ (n.log2 : Int) - 52 then
      roundQuotient n (1 * 2 ^ ((n.log2 : Int) - 52).toNat)
      else roundQuotient (n * 2 ^ (-((n.log2 : Int) - 52)).toNat) 1) = n * 2 ^ (52 - n.log2) := by
    split
    · have heq : n.log2 = 52 := by omega
      simp [heq, roundQuotient_one]
    · rw [roundQuotient_one, show (-((n.log2 : Int) - 52)).toNat = 52 - n.log2 by omega]
  simp only [ofRatio, double, ratioLog2_one h0, Nat.pow_eq]
  rw [show ((53 : Nat) : Int) - 1 = 52 from rfl, hunit, hmantissa, hscale]
  simp only [Nat.reduceSub]
  omega

theorem decode_ofRatio (h0 : n ≠ 0) (h : n < 2 ^ 53) :
    double.decode (double.ofRatio n 1) = (n * 2 ^ (52 - n.log2), (n.log2 : Int) - 52) := by
  obtain ⟨hp, hle, hlt, -⟩ := ofRatio_one h0 h
  rw [hp]
  generalize n * 2 ^ (52 - n.log2) = m at hle hlt ⊢
  have hmod : (m + (n.log2 + 1022) * 2 ^ 52) % 2 ^ 52 = m - 2 ^ 52 := by omega
  have hdiv : (m + (n.log2 + 1022) * 2 ^ 52) / 2 ^ 52 = n.log2 + 1023 := by omega
  have hscale : n.log2 + 1023 ≠ 0 := by omega
  simp only [decode, double, Nat.pow_eq, Nat.reduceSub, hmod, hdiv, if_neg hscale]
  refine Prod.ext (Nat.sub_add_cancel hle) ?_
  dsimp only
  omega

end BinaryFormat

namespace Double

theorem magnitude_ofMagnitude (h : m < 2 ^ 63) : (ofMagnitude b m).magnitude = m := by
  have hlt : m + (if b then 2 ^ 63 else 0) < 2 ^ 64 := by
    split <;> omega
  rw [magnitude, ofMagnitude]
  simp only [UInt64.toNat_ofNat', Nat.pow_eq]
  rw [Nat.mod_eq_of_lt hlt]
  split <;> omega

theorem natAbs_truncate (d : Double) : d.truncate.natAbs = d.ratio.1 / d.ratio.2 := by
  unfold truncate
  dsimp only
  split
  · rw [Int.natAbs_neg, Int.natAbs_natCast]
  · rw [Int.natAbs_natCast]

theorem natAbs_truncate_neg (d : Double) : d.neg.truncate.natAbs = d.truncate.natAbs := by
  have hmagnitude : d.neg.magnitude = d.magnitude :=
    magnitude_ofMagnitude (Nat.mod_lt _ (Nat.two_pow_pos 63))
  rw [natAbs_truncate, natAbs_truncate, ratio, hmagnitude, ratio]

theorem natAbs_truncate_ofInt (h : n.natAbs < 2 ^ 53) : (ofInt n).truncate.natAbs = n.natAbs := by
  rw [natAbs_truncate, ofInt, ofRatio]
  generalize n.natAbs = n at h
  by_cases h0 : n = 0
  · have hdecode : BinaryFormat.double.decode 0 = (0, -1074) := rfl
    rw [if_pos h0, h0, ratio, magnitude_ofMagnitude (Nat.two_pow_pos 63), hdecode]
    dsimp only
    rw [fst_dyadicRatio_zero, Nat.zero_div]
  · obtain ⟨hp, hle, hlt, hlog⟩ := BinaryFormat.ofRatio_one h0 h
    rw [if_neg h0, ratio, magnitude_ofMagnitude (by omega), BinaryFormat.decode_ofRatio h0 h]
    dsimp only [dyadicRatio]
    split
    · have heq : n.log2 = 52 := by omega
      simp [heq]
    · rw [show (-((n.log2 : Int) - 52)).toNat = 52 - n.log2 by omega]
      exact Nat.mul_div_cancel n (Nat.two_pow_pos _)

end Double

/-! ### Literals -/

namespace Literal

theorem number?_lt {l : Literal} (h : l.number? = some n) :
    n < 2 ^ 63 ∧ (l.typeId = .integer → n < 2 ^ 31) := by
  have hinteger : maxInteger + 1 = 2 ^ 31 := rfl
  have hlong : maxLong + 1 = 2 ^ 63 := rfl
  cases l with
  | integer k =>
    cases h
    have hk := k.isLt
    omega
  | long k =>
    cases h
    exact ⟨hlong ▸ k.isLt, fun ht => by cases ht⟩
  | _ => cases h

theorem numeric?_eq_int (h : numeric? type d = some (.int k u)) :
    u = type ∧ type.isInteger = true ∧ k = d.truncate := by
  unfold numeric? at h
  split at h
  · cases h
  · split at h
    · cases h
      exact ⟨rfl, ‹_›, rfl⟩
    · cases h

/-- The constant that a literal of whole numbers gives has its number. -/
theorem constant?_eq_int {l : Literal} (h : l.constant? type negate = some (.int k u)) :
    u = type ∧ type.isInteger = true ∧ l.typeId.isNumeric = true ∧
      (l.typeId.isIntegral = true → l.number? = some k.natAbs) := by
  cases l with
  | integer n =>
    obtain ⟨hu, hi, rfl⟩ := numeric?_eq_int h
    have hn : ((n.val : Int)).natAbs < 2 ^ 53 := by
      have hlt := (number?_lt (l := integer n) rfl).2 rfl
      omega
    have habs := Double.natAbs_truncate_ofInt hn
    refine ⟨hu, hi, rfl, fun _ => congrArg some ?_⟩
    cases negate with
    | false => exact habs.symm
    | true => exact ((Double.natAbs_truncate_neg _).trans habs).symm
  | long n =>
    unfold constant? at h
    dsimp only at h
    split at h
    · rename_i hi
      cases h
      refine ⟨rfl, hi, rfl, fun _ => congrArg some ?_⟩
      split <;> simp
    · rename_i hi
      exact absurd (numeric?_eq_int h).2.1 hi
  | single x =>
    obtain ⟨hu, hi, -⟩ := numeric?_eq_int h
    exact ⟨hu, hi, rfl, fun hs => by cases hs⟩
  | double x =>
    obtain ⟨hu, hi, -⟩ := numeric?_eq_int h
    exact ⟨hu, hi, rfl, fun hs => by cases hs⟩
  | string | boolean | nothing =>
    unfold constant? at h
    dsimp only at h
    split at h <;> cases h

theorem constant?_ne_global {l : Literal} (h : l.constant? type negate = some v)
    (g : String) (t : Ty) : v ≠ .global g t := by
  rintro rfl
  unfold constant? numeric? at h
  cases l <;> dsimp only at h <;> repeat' split at h
  all_goals cases h

end Literal

/-- Where whole numbers are held, only such are taken, and none that is wider. -/
theorem TypeId.Takes.whole {c : Catalog} (h : t.Takes s) (hs : s.isNumeric = true)
    (hi : (c.lowered (some t)).isInteger = true) :
    s.isIntegral = true ∧ ((c.lowered (some t)).kind = .i32 → s = .integer) := by
  have hkind : t = .integer ∨ t = .long ∨ t = .char := by
    cases hk : t.kind? with
    | none =>
      simp only [Catalog.lowered, hk] at hi
      split at hi <;> cases hi
    | some kind =>
      simp only [Catalog.lowered, hk] at hi
      unfold kind? at hk
      repeat' split at hk
      all_goals cases hk
      all_goals first | cases hi; done | simp [*]
  obtain ⟨hchar, hle⟩ := h hs
  simp only [isNumeric, isIntegral, isFloating, Bool.or_eq_true, decide_eq_true_eq] at hs
  rcases hkind with rfl | rfl | rfl
  · have hle := hle rfl
    rcases hs with (rfl | rfl) | (rfl | rfl) <;> first | exact ⟨rfl, fun _ => rfl⟩ | cases hle
  · refine ⟨?_, fun hk => by cases hk⟩
    have hle := hle rfl
    rcases hs with (rfl | rfl) | (rfl | rfl) <;> first | rfl | (revert hle; decide)
  · exact absurd rfl hchar

/-- A constant is the one of a literal of the expression, which has the type of the expression. -/
theorem Expr.exists_of_constant? {e : Expr Note} (h : e.constant? type = some v) :
    ∃ i l negate, .expr (.literal i l) ∈ e.nodes ∧ l.constant? type negate = some v ∧
      ∀ s : AnalysisState, (∀ e', .expr e' ∈ e.nodes → s.Judges e') → e.typeId = l.typeId := by
  unfold Expr.constant? at h
  split at h
  · rename_i i l
    refine ⟨i, l, false, by simp [nodes], h, fun s hs => ?_⟩
    have hi : i.type = some l.typeId := hs (.literal i l) (by simp [nodes])
    simp [typeId, info, hi]
  · rename_i i j l
    refine ⟨j, l, true, by simp [nodes], h, fun s hs => ?_⟩
    have hj : j.type = some l.typeId := hs (.literal j l) (by simp [nodes])
    have hi : i.type = some (literal j l).typeId :=
      (hs (.unary i .neg (.literal j l)) (by simp [nodes])).1 (by decide)
    simp [typeId, info, hi, hj]
  · cases h

end BasicSSA
