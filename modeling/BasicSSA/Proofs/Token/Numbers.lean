import BasicSSA.Proofs.Token.LetterCase
import Mathlib.Algebra.Ring.Nat

/-!
# Number tokens

A `Numeral` is written with digits, a fraction and an exponent, of which only the digits must be
there. A token that starts with a digit is the longest numeral at its place, with a type letter if
one follows that does not start a word. A whole number without the letter `F` has the type that
its value asks for.
-/

namespace BasicSSA

variable {ds : List Char}

/-! ### How numbers are written -/

/-- At least one digit. -/
def Digits (cs : List Char) : Prop :=
  cs ≠ [] ∧ ∀ c ∈ cs, c.isDigit

/-- Nothing, or a point and digits. -/
def Fraction (cs : List Char) : Prop :=
  cs = [] ∨ ∃ ds, Digits ds ∧ cs = '.' :: ds

/-- Nothing, or a mark, a sign that may be left out, and digits. -/
def Exponent (cs : List Char) : Prop :=
  cs = [] ∨ ∃ mark sign ds, (mark = 'e' ∨ mark = 'E') ∧ sign ∈ [[], ['+'], ['-']] ∧ Digits ds ∧
    cs = mark :: sign ++ ds

/-- Digits, a fraction and an exponent. -/
def Numeral (cs : List Char) : Prop :=
  ∃ whole fraction exponent, Digits whole ∧ Fraction fraction ∧ Exponent exponent ∧
    cs = whole ++ fraction ++ exponent

/-- The longest text of some form at the head of a text. -/
structure Longest (P : List Char → Prop) (text cs : List Char) : Prop where
  head : cs <+: text
  form : P cs
  longest : ∀ ds, ds <+: text → P ds → ds.length ≤ cs.length

/-- The type letter at the head of a text, if one stands there and no word goes on after it. Only
whole numbers have the letter `L`. -/
def typeLetter (whole : Bool) : List Char → List Char
  | [] => []
  | c :: rest =>
    if (c ∈ ['f', 'F'] ∨ whole ∧ c ∈ ['l', 'L']) ∧ ¬ rest.head?.any isWordChar then [c] else []

/-- The value of digits by their places. -/
def decimalValue : List Char → Nat
  | [] => 0
  | c :: cs => digitValue c * 10 ^ cs.length + decimalValue cs

/-- A token is the number at the head of a text. -/
def IsNumber (text : List Char) (t : Token) : Prop :=
  ∃ numeral rest, text = numeral ++ rest ∧ Longest Numeral text numeral ∧
    let whole := numeral.all Char.isDigit
    let letter := typeLetter whole rest
    let n := decimalValue numeral
    t.lexeme.toList = numeral ++ letter ∧
    (whole → letter ≠ ['f'] → letter ≠ ['F'] →
      if letter = [] ∧ n ≤ 2 ^ 31 - 1 then t.kind = .integer ∧ t.value = some (.integer n)
      else if n ≤ 2 ^ 63 - 1 then t.kind = .long ∧ t.value = some (.long n)
      else t.kind = .double)

/-! ### Values -/

theorem digitsValue_eq (cs : List Char) : digitsValue cs = decimalValue cs := by
  have hfold (n : Nat) : cs.foldl (fun n c => 10 * n + digitValue c) n =
      n * 10 ^ cs.length + decimalValue cs := by
    induction cs generalizing n with
    | nil => simp [decimalValue]
    | cons c cs ih =>
      rw [List.foldl_cons, ih, decimalValue, List.length_cons, Nat.pow_succ]
      grind
  rw [digitsValue, hfold, Nat.zero_mul, Nat.zero_add]

namespace Lexer

/-! ### Parts of a number -/

theorem digits_takeWhile (h : c.isDigit) (cs : List Char) :
    Digits (c :: cs.takeWhile Char.isDigit) :=
  ⟨by simp, by simpa using ⟨h, fun d hd => List.all_eq_true.mp List.all_takeWhile d hd⟩⟩

/-- Digits at the head of a text are no more than those that are taken. -/
theorem length_le_takeWhile (h : ∀ c ∈ ds, c.isDigit) (rest : List Char) :
    ds.length ≤ ((ds ++ rest).takeWhile Char.isDigit).length := by
  rw [List.takeWhile_append_of_pos h, List.length_append]
  exact Nat.le_add_right ..

theorem takeWhile_digits (h : ∀ c ∈ ds, c.isDigit) (hrest : rest.head?.any Char.isDigit = false) :
    (ds ++ rest).takeWhile Char.isDigit = ds ∧ (ds ++ rest).dropWhile Char.isDigit = rest := by
  rw [List.takeWhile_append_of_pos h, List.dropWhile_append_of_pos h]
  cases rest with
  | nil => simp
  | cons c rest => simp_all

theorem spanFraction_point (h : d.isDigit) : spanFraction ('.' :: d :: cs) =
    ('.' :: (d :: cs).takeWhile Char.isDigit, (d :: cs).dropWhile Char.isDigit) := by
  rw [spanFraction, if_pos h]

theorem fraction_spanFraction (cs : List Char) : Fraction (spanFraction cs).1 := by
  unfold spanFraction
  split
  · split
    · rename_i d rest hd
      rw [List.takeWhile_cons_of_pos hd]
      exact .inr ⟨_, digits_takeWhile hd _, rfl⟩
    · exact .inl rfl
  · exact .inl rfl

theorem exponent_spanExponent (cs : List Char) : Exponent (spanExponent cs).1 := by
  unfold spanExponent
  split
  · rename_i mark d rest
    split
    · rename_i hmark
      have hmark : mark = 'e' ∨ mark = 'E' := by simpa using hmark
      split
      · rename_i hd
        rw [List.takeWhile_cons_of_pos hd]
        exact .inr ⟨mark, [], _, hmark, by simp, digits_takeWhile hd _, rfl⟩
      · split
        · rename_i hsign
          obtain ⟨hd, e, he, hdigit⟩ : (d = '+' ∨ d = '-') ∧ ∃ e, rest.head? = some e ∧ e.isDigit := by
            simpa [Option.any_eq_true] using hsign
          obtain ⟨rest, rfl⟩ := List.head?_eq_some_iff.mp he
          rw [List.takeWhile_cons_of_pos hdigit]
          exact .inr ⟨mark, [d], _, hmark, by simpa using hd, digits_takeWhile hdigit _, rfl⟩
        · exact .inl rfl
    · exact .inl rfl
  · exact .inl rfl

theorem spanFraction_append_of (hf : Fraction cs) (hdigit : rest.head?.any Char.isDigit = false)
    (hpoint : rest.head? ≠ some '.') : spanFraction (cs ++ rest) = (cs, rest) := by
  rcases hf with rfl | ⟨ds, ⟨hne, hds⟩, rfl⟩
  · rw [List.nil_append]
    unfold spanFraction
    split
    · exact absurd rfl hpoint
    · rfl
  · obtain ⟨d, ds, rfl⟩ := List.exists_cons_of_ne_nil hne
    obtain ⟨htake, hdrop⟩ := takeWhile_digits hds hdigit
    rw [List.cons_append, List.cons_append, spanFraction_point (hds d List.mem_cons_self),
      ← List.cons_append, htake, hdrop]

theorem length_le_spanFraction (hf : Fraction cs) (rest : List Char) :
    cs.length ≤ (spanFraction (cs ++ rest)).1.length := by
  rcases hf with rfl | ⟨ds, ⟨hne, hds⟩, rfl⟩
  · exact Nat.zero_le _
  · obtain ⟨d, ds, rfl⟩ := List.exists_cons_of_ne_nil hne
    rw [List.cons_append, List.cons_append, spanFraction_point (hds d List.mem_cons_self)]
    exact Nat.succ_le_succ (length_le_takeWhile hds rest)

theorem length_le_spanExponent (he : Exponent cs) (rest : List Char) :
    cs.length ≤ (spanExponent (cs ++ rest)).1.length := by
  rcases he with rfl | ⟨mark, sign, ds, hmark, hsign, ⟨hne, hds⟩, rfl⟩
  · exact Nat.zero_le _
  · obtain ⟨d, ds, rfl⟩ := List.exists_cons_of_ne_nil hne
    have hd : d.isDigit := hds d List.mem_cons_self
    have hlength := length_le_takeWhile hds rest
    have hmark : mark == 'e' || mark == 'E' := by simpa using hmark
    have hdigits : sign = [] ∨ ∃ c, sign = [c] ∧ c.isDigit = false ∧ (c == '+' || c == '-') := by
      simp only [List.mem_cons, List.not_mem_nil, or_false] at hsign
      rcases hsign with rfl | rfl | rfl
      · exact .inl rfl
      · exact .inr ⟨'+', rfl, rfl, rfl⟩
      · exact .inr ⟨'-', rfl, rfl, rfl⟩
    rcases hdigits with rfl | ⟨c, rfl, hc, hplus⟩
    · simp only [List.cons_append, List.nil_append, spanExponent, hmark, hd, if_true]
      exact Nat.succ_le_succ hlength
    · simp only [List.cons_append, List.nil_append, spanExponent, hmark, hc, hplus, hd, if_true,
        List.head?_cons, Option.any_some, Bool.and_true, Bool.false_eq_true, if_false]
      exact Nat.succ_le_succ (Nat.succ_le_succ hlength)

theorem numeral_append (c : Char) (cs : List Char) :
    let fraction := spanFraction (cs.dropWhile Char.isDigit)
    c :: cs.takeWhile Char.isDigit ++ fraction.1 ++ (spanExponent fraction.2).1 ++
      (spanExponent fraction.2).2 = c :: cs := by
  dsimp only
  rw [List.append_assoc, spanExponent_append, List.append_assoc, spanFraction_append,
    List.cons_append, List.takeWhile_append_dropWhile]

/-- The numeral at the head of a text that starts with a digit. -/
theorem longest_numeral (hc : c.isDigit) :
    let fraction := spanFraction (cs.dropWhile Char.isDigit)
    Longest Numeral (c :: cs)
      (c :: cs.takeWhile Char.isDigit ++ fraction.1 ++ (spanExponent fraction.2).1) where
  head := ⟨_, numeral_append c cs⟩
  form := ⟨_, _, _, digits_takeWhile hc cs, fraction_spanFraction _, exponent_spanExponent _, rfl⟩
  longest := by
    rintro _ ⟨rest, htext⟩ ⟨whole, fraction, exponent, hwhole, hfraction, hexponent, rfl⟩
    have htake : (c :: cs).takeWhile Char.isDigit = c :: cs.takeWhile Char.isDigit :=
      List.takeWhile_cons_of_pos hc
    have hdrop : (c :: cs).dropWhile Char.isDigit = cs.dropWhile Char.isDigit :=
      List.dropWhile_cons_of_pos hc
    rw [List.append_assoc, List.append_assoc] at htext
    rw [← htake, ← hdrop, ← htext]
    simp only [List.length_append]
    by_cases hempty : fraction ++ exponent = []
    · obtain ⟨rfl, rfl⟩ := List.append_eq_nil_iff.mp hempty
      have hlength := length_le_takeWhile hwhole.2 ([] ++ ([] ++ rest))
      simp only [List.length_nil]
      omega
    · -- what follows the digits is a point or a mark, so they are all of the digits
      have hstop : (fraction ++ (exponent ++ rest)).head?.any Char.isDigit = false := by
        rcases hfraction with rfl | ⟨ds, -, rfl⟩
        · rcases hexponent with rfl | ⟨mark, sign, ds, rfl | rfl, -, -, rfl⟩
          · exact absurd rfl hempty
          · rfl
          · rfl
        · rfl
      obtain ⟨htake, hdrop⟩ := takeWhile_digits hwhole.2 hstop
      rw [htake, hdrop]
      by_cases he : exponent = []
      · have hlength := length_le_spanFraction hfraction (exponent ++ rest)
        simp only [he, List.length_nil]
        rw [he] at hlength
        omega
      · have hmark : (exponent ++ rest).head?.any Char.isDigit = false ∧
            (exponent ++ rest).head? ≠ some '.' := by
          rcases hexponent with rfl | ⟨mark, sign, ds, rfl | rfl, -, -, rfl⟩
          · exact absurd rfl he
          · exact ⟨rfl, by simp⟩
          · exact ⟨rfl, by simp⟩
        have hlength := length_le_spanExponent hexponent rest
        rw [spanFraction_append_of hfraction hmark.1 hmark.2]
        dsimp only
        omega

/-! ### Number tokens -/

/-- A numeral is whole if it has neither a fraction nor an exponent. -/
theorem all_isDigit_iff (hw : Digits whole) (hf : Fraction fraction) (he : Exponent exponent) :
    (whole ++ fraction ++ exponent).all Char.isDigit = (fraction.isEmpty && exponent.isEmpty) := by
  have hall : whole.all Char.isDigit = true := List.all_eq_true.mpr hw.2
  rw [List.all_append, List.all_append, hall, Bool.true_and]
  congr 1
  · rcases hf with rfl | ⟨ds, -, rfl⟩ <;> rfl
  · rcases he with rfl | ⟨mark, sign, ds, rfl | rfl, -, -, rfl⟩ <;> rfl

theorem spanSuffix_cases (whole : Bool) (cs : List Char) :
    spanSuffix (!whole) cs = none ∧ typeLetter whole cs = [] ∨
    ∃ c rest, typeLetter whole cs = [c] ∧
      (c ∈ ['f', 'F'] ∧ spanSuffix (!whole) cs = some (c, .single, rest) ∨
        c ∈ ['l', 'L'] ∧ spanSuffix (!whole) cs = some (c, .long, rest)) := by
  have hcode : 'f'.toNat = 102 ∧ 'F'.toNat = 70 ∧ 'l'.toNat = 108 ∧ 'L'.toNat = 76 := by decide
  have hf (c : Char) : c.toUpper = 'F' ↔ c ∈ ['f', 'F'] := by
    simp only [List.mem_cons, List.not_mem_nil, or_false, ← Char.toNat_inj, toNat_toUpper]
    split <;> omega
  have hl (c : Char) : c.toUpper = 'L' ↔ c ∈ ['l', 'L'] := by
    simp only [List.mem_cons, List.not_mem_nil, or_false, ← Char.toNat_inj, toNat_toUpper]
    split <;> omega
  cases cs with
  | nil => exact .inl ⟨rfl, rfl⟩
  | cons c cs =>
    simp only [spanSuffix, typeLetter, beq_iff_eq, Bool.and_eq_true, Bool.not_not, hf, hl]
    by_cases hword : cs.head?.any isWordChar
    · simp [hword]
    · by_cases hsingle : c ∈ ['f', 'F']
      · exact .inr ⟨c, cs, by simp [hword, hsingle], .inl ⟨hsingle, by simp [hword, hsingle]⟩⟩
      · by_cases hlong : c ∈ ['l', 'L'] ∧ whole
        · refine .inr ⟨c, cs, if_pos ⟨.inr hlong.symm, hword⟩, .inr ⟨hlong.1, ?_⟩⟩
          rw [if_neg hword, if_neg hsingle, if_pos hlong]
        · rw [if_neg hword, if_neg hsingle, if_neg hlong]
          exact .inl ⟨rfl, if_neg fun h => h.1.elim hsingle fun h => hlong h.symm⟩

/-- The type and the value of a whole number without the letter `F`. -/
theorem numberValue_whole (hsuffix : suffix ≠ some .single) (hletter : letter = [] ↔ suffix = none) :
    let n := decimalValue cs
    let v := numberValue cs false suffix
    if letter = [] ∧ n ≤ 2 ^ 31 - 1 then v.1 = .integer ∧ v.2 = .integer n
    else if n ≤ 2 ^ 63 - 1 then v.1 = .long ∧ v.2 = .long n
    else v.1 = .double := by
  have hlong : suffix = some .long ↔ suffix ≠ none := by
    rcases suffix with _ | _ | _ <;> simp_all
  have hmaxInteger : maxInteger = 2 ^ 31 - 1 := rfl
  have hmaxLong : maxLong = 2 ^ 63 - 1 := rfl
  simp only [numberValue, digitsValue_eq, if_neg hsuffix, hletter, Bool.false_or, gt_iff_lt,
    decide_eq_true_eq, Bool.or_eq_true, hlong, hmaxInteger, hmaxLong]
  generalize decimalValue cs = n
  split
  · rename_i h
    rw [if_neg (by omega), if_neg (not_or.mpr ⟨fun hne => hne h.1, by omega⟩)]
    exact ⟨rfl, rfl⟩
  · rename_i h
    split
    · rw [if_neg (by omega), if_pos ((Decidable.not_and_iff_or_not.mp h).imp_right Nat.lt_of_not_le)]
      exact ⟨rfl, rfl⟩
    · rw [if_pos (by omega)]

/-- A number is the longest numeral with its type letter, and stands for what they say. -/
theorem scanNumber_eq (hc : c.isDigit) (cs : List Char) : ∃ numeral rest, c :: cs = numeral ++ rest ∧
    Longest Numeral (c :: cs) numeral ∧
    let s := scanNumber c cs
    let letter := spanSuffix (!numeral.all Char.isDigit) rest
    let v := numberValue numeral (!numeral.all Char.isDigit) (letter.map (·.2.1))
    s.lexeme = numeral ++ letter.elim [] ([·.1]) ∧ s.kind = v.1 ∧ s.value = some v.2 := by
  have hall := all_isDigit_iff (digits_takeWhile hc cs)
    (fraction_spanFraction (cs.dropWhile Char.isDigit))
    (exponent_spanExponent (spanFraction (cs.dropWhile Char.isDigit)).2)
  refine ⟨_, _, (numeral_append c cs).symm, longest_numeral hc, ?_⟩
  simp only [hall, scanNumber]
  cases spanSuffix _ _ with
  | none => exact ⟨(List.append_nil _).symm, rfl, rfl⟩
  | some r => exact ⟨rfl, rfl, rfl⟩

theorem scan_digit (hc : c.isDigit) : scan (c :: cs) = .ok (scanNumber c cs) := by
  have hne (d : Char) (hd : d.isDigit = false) : c ≠ d := fun h => by simp [h, hd] at hc
  rw [scan_plain ⟨hne '\n' rfl, fun h => absurd h (hne '\r' rfl), fun h => absurd h (hne '$' rfl)⟩,
    scanFrom, if_neg (by simpa using hne '\'' rfl), if_neg (by simpa using hne '#' rfl), if_pos hc]

theorem isNumber_scanNumber (hc : c.isDigit) (cs : List Char) (loc : Loc) :
    IsNumber (c :: cs) ((scanNumber c cs).token loc) := by
  obtain ⟨numeral, rest, htext, hlongest, hlexeme, hkind, hvalue⟩ := scanNumber_eq hc cs
  refine ⟨numeral, rest, htext, hlongest, ?_⟩
  simp only [Scanned.token_lexeme, Scanned.token_kind, Scanned.token_value, String.toList_ofList,
    hlexeme, hkind, hvalue, Option.some.injEq]
  rcases spanSuffix_cases (numeral.all Char.isDigit) rest with
    ⟨hspan, hletter⟩ | ⟨c, after, hletter, ⟨hc, hspan⟩ | ⟨-, hspan⟩⟩
  · rw [hspan, hletter]
    refine ⟨rfl, fun hwhole _ _ => ?_⟩
    rw [hwhole]
    exact numberValue_whole (by simp) (by simp)
  · rw [hspan, hletter]
    refine ⟨rfl, fun _ hf hF => ?_⟩
    simp_all
  · rw [hspan, hletter]
    refine ⟨rfl, fun hwhole _ _ => ?_⟩
    rw [hwhole]
    exact numberValue_whole (by simp) (by simp)

end Lexer

open Lexer in
/-- A token that starts with a digit is a number at its place. -/
theorem tokenize_number (h : tokenize source file = .ok ts) (ht : t ∈ ts)
    (hdigit : t.lexeme.toList.head?.any Char.isDigit) :
    ∃ before text, source.toList = before ++ text ∧ t.loc = .after file before ∧ IsNumber text t := by
  obtain ⟨loc, rfl⟩ | ⟨before, text, s, hsource, -, hs, hheads, rfl⟩ := exists_scan_of_mem h ht
  · simp [Token.endAt] at hdigit
  · refine ⟨before, text, hsource, rfl, ?_⟩
    obtain ⟨c, lexeme, hc⟩ := List.exists_cons_of_ne_nil hheads.nonempty
    have htext := hheads.append
    rw [hc, List.cons_append] at htext
    have hc : c.isDigit := by simpa [hc] using hdigit
    rw [← htext, scan_digit hc] at hs
    have hnumber := isNumber_scanNumber hc (lexeme ++ s.rest) (.after file before)
    rwa [Except.ok.inj hs, htext] at hnumber

/-- Zeros may lead a number, and one that does not fit in 32 bits is long. A point that no digit
follows is not part of it. -/
theorem tokenize_number_zeros :
    let t : Token := { kind := .long, lexeme := "0002147483648", value := some (.long 2147483648),
                       loc := ⟨1, 1, 1⟩ }
    (∃ ts, tokenize "0002147483648." 1 = .ok ts ∧ t ∈ ts) ∧
      ∃ before text, "0002147483648.".toList = before ++ text ∧ t.loc = .after 1 before ∧
        IsNumber text t := by
  intro t
  have hmem : (tokenize "0002147483648." 1).toOption.any (t ∈ ·) := by decide +kernel
  cases h : tokenize "0002147483648." 1 with
  | error e =>
    rw [h] at hmem
    cases hmem
  | ok ts =>
    rw [h] at hmem
    have ht : t ∈ ts := of_decide_eq_true hmem
    exact ⟨⟨ts, rfl, ht⟩, tokenize_number h ht (by decide +kernel)⟩

end BasicSSA
