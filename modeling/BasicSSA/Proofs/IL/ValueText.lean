import BasicSSA.IL.Value
import BasicSSA.Proofs.Types.Spelling
import BasicSSA.Token.Lexer

/-!
# Texts of values

The text of a value tells which value it is (`text_unambiguous`). Its first character tells the
form; a dot ends the name of a variable, so names must not hold one; and the start of an escaped
text tells its first character (`firstOf_escapeChar`).
-/

namespace BasicSSA.IL

/-! ### Constant texts -/

/-- Every quote of a text follows a backslash that escapes it. -/
def quotesEscaped : List Char → Bool
  | [] => true
  | '\\' :: _ :: rest => quotesEscaped rest
  | c :: rest => c != '"' && quotesEscaped rest

/-- The number of a digit in upper case. -/
def hexValue (c : Char) : Nat :=
  if c.isDigit then c.toNat - '0'.toNat else c.toNat - 'A'.toNat + 10

/-- The character that the start of an escaped text stands for. -/
def firstOf : List Char → Option Char
  | '\\' :: 'x' :: a :: b :: _ => some (Char.ofNat (16 * hexValue a + hexValue b))
  | '\\' :: c :: _ => some (Lexer.decodeEscape c)
  | c :: _ => some c
  | [] => none

theorem upperHexDigit_facts : ∀ n < 16, hexValue (upperHexDigit n) = n ∧
    upperHexDigit n ≠ '\\' ∧ upperHexDigit n ≠ '"' ∧
      32 ≤ (upperHexDigit n).toNat ∧ (upperHexDigit n).toNat ≠ 127 := by
  decide

/-- How a character is written: after a backslash, by its code, or as it is. -/
theorem escapeChar_cases (c : Char) :
    (∃ d, escapeChar c = ['\\', d] ∧ d ≠ 'x' ∧ Lexer.decodeEscape d = c ∧ 32 ≤ d.toNat ∧
      d.toNat ≠ 127) ∨
    (∃ m < 16, ∃ n < 16, escapeChar c = ['\\', 'x', upperHexDigit m, upperHexDigit n] ∧
      c = Char.ofNat (16 * m + n)) ∨
    escapeChar c = [c] ∧ c ≠ '\\' ∧ c ≠ '"' ∧ 32 ≤ c.toNat ∧ c.toNat ≠ 127 := by
  unfold escapeChar
  split
  case h_6 hslash hquote _ _ _ =>
    split
    · rename_i h
      simp only [Bool.or_eq_true, decide_eq_true_eq] at h
      refine .inr (.inl ⟨c.toNat / 16, by omega, c.toNat % 16, by omega, rfl, ?_⟩)
      rw [Nat.div_add_mod, Char.ofNat_toNat]
    · rename_i h
      simp only [Bool.or_eq_true, decide_eq_true_eq, not_or, Nat.not_lt] at h
      exact .inr (.inr ⟨rfl, hslash, hquote, h⟩)
  all_goals exact .inl ⟨_, rfl, by decide⟩

theorem firstOf_escapeChar (c : Char) (rest : List Char) :
    firstOf (escapeChar c ++ rest) = some c := by
  rcases escapeChar_cases c with ⟨d, h, hx, hd, -⟩ | ⟨m, hm, n, hn, h, hc⟩ | ⟨h, hslash, -⟩
  · simp [h, firstOf, hx, hd]
  · rw [h, hc]
    simp [firstOf, (upperHexDigit_facts m hm).1, (upperHexDigit_facts n hn).1]
  · simp [h, firstOf, hslash]

theorem flatMap_escapeChar_injective {cs ds : List Char}
    (h : cs.flatMap escapeChar = ds.flatMap escapeChar) : cs = ds := by
  induction cs generalizing ds with
  | nil =>
    cases ds with
    | nil => rfl
    | cons d ds => cases (congrArg firstOf h).trans (firstOf_escapeChar d _)
  | cons c cs ih =>
    cases ds with
    | nil => cases (firstOf_escapeChar c _).symm.trans (congrArg firstOf h)
    | cons d ds =>
      rw [List.flatMap_cons, List.flatMap_cons] at h
      obtain rfl : c = d := by simpa [firstOf_escapeChar] using congrArg firstOf h
      rw [ih (List.append_cancel_left h)]

theorem escapeText_injective (h : escapeText s = escapeText t) : s = t :=
  String.toList_inj.mp (flatMap_escapeChar_injective (String.ofList_inj.mp h))

theorem printable_of_mem_escapeChar (hc : c ∈ escapeChar d) : 32 ≤ c.toNat ∧ c.toNat ≠ 127 := by
  rcases escapeChar_cases d with ⟨e, h, -, -, he⟩ | ⟨m, hm, n, hn, h, -⟩ | ⟨h, -, -, hd⟩
  · simp only [h, List.mem_cons, List.not_mem_nil, or_false] at hc
    rcases hc with rfl | rfl
    · decide
    · exact he
  · simp only [h, List.mem_cons, List.not_mem_nil, or_false] at hc
    rcases hc with rfl | rfl | rfl | rfl
    · decide
    · decide
    · exact (upperHexDigit_facts m hm).2.2.2
    · exact (upperHexDigit_facts n hn).2.2.2
  · rw [h, List.mem_singleton] at hc
    exact hc ▸ hd

theorem quotesEscaped_escapeChar (c : Char) (rest : List Char) :
    quotesEscaped (escapeChar c ++ rest) = quotesEscaped rest := by
  rcases escapeChar_cases c with ⟨d, h, -⟩ | ⟨m, hm, n, hn, h, -⟩ | ⟨h, hslash, hquote, -⟩
  · rw [h]
    rfl
  · obtain ⟨-, hm, hm', -⟩ := upperHexDigit_facts m hm
    obtain ⟨-, hn, hn', -⟩ := upperHexDigit_facts n hn
    simp [h, quotesEscaped, hm, hn, bne_iff_ne.mpr hm', bne_iff_ne.mpr hn']
  · simp [h, quotesEscaped, hslash, hquote]

theorem quotesEscaped_escapeText (s : String) : quotesEscaped (escapeText s).toList = true := by
  rw [escapeText, String.toList_ofList]
  induction s.toList with
  | nil => rfl
  | cons c cs ih => rw [List.flatMap_cons, quotesEscaped_escapeChar, ih]

/-! ### Numbers -/

theorem toDigits_injective (h : Nat.toDigits 10 m = Nat.toDigits 10 n) : m = n := by
  simpa [Nat.ofDigitChars_ten_toDigits] using congrArg (Nat.ofDigitChars 10 · 0) h

theorem isDigit_of_mem_toDigits (h : c ∈ Nat.toDigits 10 n) : c.isDigit = true :=
  Nat.isDigit_of_mem_toDigits (by decide) (by decide) h

/-! ### Values -/

namespace Value

/-- Values whose texts are compared: all but floats, and variables without a dot in their name. -/
def Plain : Value → Prop
  | var name .. => '.' ∉ name.toList
  | float .. => False
  | _ => True

/-- What follows the name in the text of a variable. -/
def versionText (name : String) (version : Nat) : List Char :=
  if version = 0 && !isTempName name then [] else '.' :: Nat.toDigits 10 version

theorem toList_text_var : (var x n t).text.toList = '%' :: (x.toList ++ versionText x n) := by
  by_cases h : n = 0 && !isTempName x <;> simp [text, versionText, h]

theorem toList_text_temp : (temp n t).text.toList = '%' :: 't' :: Nat.toDigits 10 n := by
  simp [text]

theorem toList_text_int : (int n t).text.toList =
    if 0 ≤ n then Nat.toDigits 10 n.toNat else '-' :: Nat.toDigits 10 (-n).toNat := by
  by_cases h : 0 ≤ n <;> simp [text, Int.repr_eq_if, h]

theorem var_eq_of_text (hx : '.' ∉ x.toList) (hy : '.' ∉ y.toList)
    (h : (var x m s).text = (var y n t).text) : x = y ∧ m = n := by
  have h := congrArg String.toList h
  rw [toList_text_var, toList_text_var, List.cons.injEq] at h
  obtain ⟨-, h⟩ := h
  unfold versionText at h
  split at h <;> split at h
  · simp_all [String.toList_inj]
  · exact absurd (by rw [← List.append_nil x.toList, h]; simp) hx
  · exact absurd (by rw [← List.append_nil y.toList, ← h]; simp) hy
  · obtain ⟨hname, hversion⟩ := split_of_not_mem h hx hy
    exact ⟨String.toList_inj.mp hname, toDigits_injective hversion⟩

/-- A variable is never written like a temporary. -/
theorem var_ne_temp_text : (var x m s).text ≠ (temp n t).text := by
  intro h
  have h := congrArg String.toList h
  rw [toList_text_var, toList_text_temp, List.cons.injEq] at h
  obtain ⟨-, h⟩ := h
  have hdigits : ∀ c ∈ Nat.toDigits 10 n, c.isDigit = true := fun c => isDigit_of_mem_toDigits
  unfold versionText at h
  split at h
  · rename_i hbare
    have htemp : isTempName x = true := by
      rw [List.append_nil] at h
      cases hd : Nat.toDigits 10 n with
      | nil => exact absurd hd Nat.toDigits_ne_nil
      | cons d ds => simpa [isTempName, h, hd] using hdigits
    simp [htemp] at hbare
  · have hdot : '.' ∈ 't' :: Nat.toDigits 10 n := h ▸ by simp
    rcases List.mem_cons.mp hdot with hdot | hdot
    · cases hdot
    · cases hdigits _ hdot

theorem int_eq_of_text (h : (int m s).text = (int n t).text) : m = n := by
  have h := congrArg String.toList h
  have hsign (k : Nat) : '-' ∉ Nat.toDigits 10 k := fun hmem => by
    cases isDigit_of_mem_toDigits hmem
  rw [toList_text_int, toList_text_int] at h
  split at h <;> split at h
  · have := toDigits_injective h
    omega
  · exact absurd (h ▸ List.mem_cons_self) (hsign m.toNat)
  · exact absurd (h ▸ List.mem_cons_self) (hsign n.toNat)
  · have := toDigits_injective (List.cons.inj h).2
    omega

/-- What the first character of a text tells: one character stands for all numbers, and one for both
truth values. -/
def lead (c : Char) : Char :=
  if c.isDigit || c = '-' then '0' else if c = 'f' then 't' else c

/-- What the first character of the text of a value tells. -/
def mark : Value → Char
  | var .. | temp .. => '%'
  | int .. | float .. => '0'
  | bool _ => 't'
  | str _ => '"'
  | global .. => '@'
  | null _ => 'n'

theorem lead_text {v : Value} (h : v.Plain) : v.text.toList.head?.map lead = some v.mark := by
  cases v with
  | var => rw [toList_text_var]; rfl
  | temp => rw [toList_text_temp]; rfl
  | int n t =>
    rw [toList_text_int]
    split
    · cases hd : Nat.toDigits 10 n.toNat with
      | nil => exact absurd hd Nat.toDigits_ne_nil
      | cons d ds =>
        have hdigit : d.isDigit = true := isDigit_of_mem_toDigits (hd ▸ List.mem_cons_self)
        simp [lead, hdigit, mark]
    · rfl
  | float => exact h.elim
  | bool b => cases b <;> rfl
  | str | global | null => simp [text, mark, lead]

theorem same_of_text {v w : Value} (hv : v.Plain) (hw : w.Plain) (h : v.text = w.text) :
    v.same w = true := by
  have hmark : v.mark = w.mark := by
    simpa [lead_text hv, lead_text hw] using congrArg (·.toList.head?.map lead) h
  cases v <;> cases w
  case var.var => simpa [same] using var_eq_of_text hv hw h
  case var.temp => exact absurd h var_ne_temp_text
  case temp.var => exact absurd h.symm var_ne_temp_text
  case temp.temp =>
    have h := congrArg String.toList h
    rw [toList_text_temp, toList_text_temp] at h
    simpa [same] using toDigits_injective (List.cons.inj (List.cons.inj h).2).2
  case int.int => simpa [same] using int_eq_of_text h
  case bool.bool a b => cases a <;> cases b <;> simp_all [same, text]
  case str.str => simpa [same] using escapeText_injective (by simpa [text] using h)
  case global.global => simpa [same, text] using h
  case null.null => rfl
  all_goals first | exact hv.elim | exact hw.elim | simp [mark] at hmark

theorem text_of_same {v w : Value} (hv : v.Plain) (h : v.same w = true) : v.text = w.text := by
  cases v <;> cases w
  case float.float => exact hv.elim
  all_goals simp_all [same, text]

end Value

/-- Values have the same text exactly if they are the same, and a constant text stands in quotes
without a quote that ends it early and without control characters. -/
theorem text_unambiguous :
    (∀ v w : Value, v.Plain → w.Plain → (v.text = w.text ↔ v.same w = true)) ∧
    ∀ s : String, ∃ inner, (Value.str s).text = "\"" ++ inner ++ "\"" ∧
      quotesEscaped inner.toList = true ∧
      ∀ c ∈ inner.toList, 32 ≤ c.toNat ∧ c.toNat ≠ 127 := by
  refine ⟨fun v w hv hw => ⟨Value.same_of_text hv hw, Value.text_of_same hv⟩, fun s => ?_⟩
  refine ⟨escapeText s, rfl, quotesEscaped_escapeText s, fun c hc => ?_⟩
  rw [escapeText, String.toList_ofList] at hc
  obtain ⟨d, -, hd⟩ := List.mem_flatMap.mp hc
  exact printable_of_mem_escapeChar hd

theorem text_of_temporaryName : (Value.var "t1" 0 {}).text = "%t1.0" ∧
    (Value.var "t1" 0 {}).text ≠ (Value.temp 1 {}).text := by
  refine ⟨by decide +kernel, fun h => ?_⟩
  cases (text_unambiguous.1 (.var "t1" 0 {}) (.temp 1 {}) (by simp [Value.Plain]) trivial).mp h

end BasicSSA.IL
