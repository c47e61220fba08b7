import BasicSSA.Proofs.Token.Lossless

/-!
# Letter case

A text in upper case has the tokens of the text, each in upper case: whether a character starts,
continues or ends a token does not depend on its case, and words are looked up in upper case.
-/

namespace BasicSSA

variable {c : Char}

/-! ### Characters -/

theorem toNat_toUpper (c : Char) : c.toUpper.toNat =
    if 97 ≤ c.toNat ∧ c.toNat ≤ 122 then c.toNat - 32 else c.toNat := by
  have hle : 'a'.val ≤ c.val ∧ c.val ≤ 'z'.val ↔ 97 ≤ c.toNat ∧ c.toNat ≤ 122 := Iff.rfl
  delta Char.toUpper
  split
  · rename_i h
    rw [if_pos (hle.mp h)]
    have hsub : ('A'.val - 'a'.val).toNat = 2 ^ 32 - 32 := by decide
    have hcode := hle.mp h
    simp only [Char.toNat, UInt32.toNat_add, hsub] at hcode ⊢
    omega
  · rename_i h
    rw [if_neg (mt hle.mpr h)]

theorem isAlpha_iff (c : Char) : c.isAlpha ↔
    65 ≤ c.toNat ∧ c.toNat ≤ 90 ∨ 97 ≤ c.toNat ∧ c.toNat ≤ 122 := by
  delta Char.isAlpha Char.isUpper Char.isLower
  simp only [Bool.or_eq_true, decide_eq_true_eq, Bool.and_eq_true]
  exact Iff.rfl

theorem isDigit_iff (c : Char) : c.isDigit ↔ 48 ≤ c.toNat ∧ c.toNat ≤ 57 := by
  simp only [Char.isDigit, Bool.and_eq_true, decide_eq_true_eq]
  exact Iff.rfl

@[simp] theorem toUpper_isAlpha (c : Char) : c.toUpper.isAlpha = c.isAlpha := by
  rw [Bool.eq_iff_iff, isAlpha_iff, isAlpha_iff, toNat_toUpper]
  split <;> omega

@[simp] theorem toUpper_isDigit (c : Char) : c.toUpper.isDigit = c.isDigit := by
  rw [Bool.eq_iff_iff, isDigit_iff, isDigit_iff, toNat_toUpper]
  split <;> omega

@[simp] theorem toUpper_toUpper (c : Char) : c.toUpper.toUpper = c.toUpper := by
  rw [← Char.toNat_inj, toNat_toUpper, toNat_toUpper]
  split <;> simp
  omega

/-- A character that is no letter has no other case. -/
theorem toUpper_eq_iff (hd : d.isAlpha = false) : c.toUpper = d ↔ c = d := by
  rw [Bool.eq_false_iff, ne_eq, isAlpha_iff] at hd
  rw [← Char.toNat_inj, ← Char.toNat_inj, toNat_toUpper]
  split <;> omega

@[simp] theorem toUpper_beq (hd : d.isAlpha = false) : (c.toUpper == d) = (c == d) := by
  rw [Bool.eq_iff_iff, beq_iff_eq, beq_iff_eq, toUpper_eq_iff hd]

theorem toUpper_of_isDigit (h : c.isDigit) : c.toUpper = c := by
  rw [isDigit_iff] at h
  rw [← Char.toNat_inj, toNat_toUpper, if_neg (by omega)]

@[simp] theorem toUpper_isWordChar (c : Char) : isWordChar c.toUpper = isWordChar c := by
  simp [isWordChar, Char.isAlphanum]

@[simp] theorem toUpper_isWordStart (c : Char) : isWordStart c.toUpper = isWordStart c := by
  simp [isWordStart]

/-! ### Texts -/

/-- A text in upper case. -/
def upper (cs : List Char) : List Char :=
  cs.map Char.toUpper

@[simp] theorem upper_nil : upper [] = [] := rfl

@[simp] theorem upper_cons : upper (c :: cs) = c.toUpper :: upper cs := rfl

@[simp] theorem upper_append : upper (cs ++ ds) = upper cs ++ upper ds :=
  List.map_append

@[simp] theorem length_upper : (upper cs).length = cs.length :=
  List.length_map _

@[simp] theorem isEmpty_upper : (upper cs).isEmpty = cs.isEmpty :=
  List.isEmpty_map

@[simp] theorem drop_upper : (upper cs).drop n = upper (cs.drop n) :=
  List.map_drop.symm

theorem foldCase_ofList (cs : List Char) : foldCase (String.ofList cs) = String.ofList (upper cs) := by
  simp [foldCase, upper]

@[simp] theorem foldCase_upper (cs : List Char) :
    foldCase (String.ofList (upper cs)) = foldCase (String.ofList cs) := by
  rw [foldCase_ofList, foldCase_ofList]
  congr 1
  simp [upper]

theorem upper_of_isDigit (h : ∀ c ∈ cs, c.isDigit) : upper cs = cs :=
  (List.map_congr_left fun c hc => toUpper_of_isDigit (h c hc)).trans (List.map_id _)

section

variable {p : Char → Bool} (hp : ∀ c, p c.toUpper = p c)

include hp

theorem takeWhile_upper (cs : List Char) : (upper cs).takeWhile p = upper (cs.takeWhile p) := by
  rw [upper, List.takeWhile_map, show p ∘ Char.toUpper = p from funext hp]
  rfl

theorem dropWhile_upper (cs : List Char) : (upper cs).dropWhile p = upper (cs.dropWhile p) := by
  rw [upper, List.dropWhile_map, show p ∘ Char.toUpper = p from funext hp]
  rfl

theorem any_head?_upper (cs : List Char) : (upper cs).head?.any p = cs.head?.any p := by
  cases cs with
  | nil => rfl
  | cons c cs => simp [hp]

end

theorem head?_upper (hd : d.isAlpha = false) : (upper cs).head? = some d ↔ cs.head? = some d := by
  cases cs with
  | nil => simp
  | cons c cs => simp [toUpper_eq_iff hd]

theorem skip_upper (loc : Loc) (cs : List Char) : loc.skip (upper cs) = loc.skip cs := by
  induction cs generalizing loc with
  | nil => rfl
  | cons c cs ih =>
    have hc : loc.advance c.toUpper = loc.advance c := by
      simp only [Loc.advance, toUpper_eq_iff (d := '\n') rfl]
    calc loc.skip (upper (c :: cs))
      _ = (loc.advance c.toUpper).skip (upper cs) := rfl
      _ = loc.skip (c :: cs) := by rw [hc, ih]; rfl

namespace Lexer

theorem spanBlanks_upper (cs : List Char) :
    spanBlanks (upper cs) = (upper (spanBlanks cs).1, upper (spanBlanks cs).2) := by
  induction cs with
  | nil => rfl
  | cons c cs ih =>
    have hreturn : ((upper cs).head? != some '\n') = (cs.head? != some '\n') := by
      rw [Bool.eq_iff_iff, bne_iff_ne, bne_iff_ne, ne_eq, ne_eq, head?_upper rfl]
    rw [upper_cons, spanBlanks, spanBlanks, hreturn]
    simp only [toUpper_beq (d := ' ') rfl, toUpper_beq (d := '\t') rfl, toUpper_beq (d := '\r') rfl]
    split
    · simp [ih]
    · rfl

theorem compoundEnd_upper (cs : List Char) : compoundEnd (upper cs) =
    (compoundEnd cs).map fun (more, block, rest) => (upper more, block, upper rest) := by
  unfold compoundEnd
  rw [takeWhile_upper (by simp)]
  dsimp only
  rw [length_upper, drop_upper, takeWhile_upper toUpper_isWordChar, length_upper, drop_upper,
    foldCase_upper, isEmpty_upper]
  split
  · rfl
  · split <;> simp

theorem spanFraction_upper (cs : List Char) :
    spanFraction (upper cs) = (upper (spanFraction cs).1, upper (spanFraction cs).2) := by
  rcases cs with _ | ⟨c, _ | ⟨d, cs⟩⟩
  · rfl
  · simp [spanFraction]
  · by_cases hc : c = '.'
    · have hdot : '.'.toUpper = '.' := rfl
      rw [hc, upper_cons, upper_cons, hdot, spanFraction, spanFraction, toUpper_isDigit, ← upper_cons,
        takeWhile_upper toUpper_isDigit, dropWhile_upper toUpper_isDigit]
      split <;> rfl
    · have hc' : c.toUpper ≠ '.' := by rwa [ne_eq, toUpper_eq_iff rfl]
      simp [spanFraction, hc, hc']

theorem exponentMark_upper (c : Char) :
    (c.toUpper == 'e' || c.toUpper == 'E') = (c == 'e' || c == 'E') := by
  rw [Bool.eq_iff_iff]
  simp only [Bool.or_eq_true, beq_iff_eq, ← Char.toNat_inj, toNat_toUpper]
  have he : 'e'.toNat = 101 ∧ 'E'.toNat = 69 := by decide
  rw [he.1, he.2]
  split <;> omega

theorem spanExponent_upper (cs : List Char) :
    spanExponent (upper cs) = (upper (spanExponent cs).1, upper (spanExponent cs).2) := by
  rcases cs with _ | ⟨c, _ | ⟨d, cs⟩⟩
  · rfl
  · rfl
  · rw [upper_cons, upper_cons, spanExponent, spanExponent]
    simp only [exponentMark_upper, toUpper_isDigit, toUpper_beq (d := '+') rfl,
      toUpper_beq (d := '-') rfl, any_head?_upper toUpper_isDigit, ← upper_cons,
      takeWhile_upper toUpper_isDigit, dropWhile_upper toUpper_isDigit]
    split
    · split
      · rfl
      · split <;> rfl
    · rfl

theorem spanSuffix_upper (isFloat : Bool) (cs : List Char) : spanSuffix isFloat (upper cs) =
    (spanSuffix isFloat cs).map fun (letter, suffix, rest) => (letter.toUpper, suffix, upper rest) := by
  cases cs with
  | nil => rfl
  | cons c cs =>
    rw [upper_cons, spanSuffix, spanSuffix, any_head?_upper toUpper_isWordChar, toUpper_toUpper]
    split
    · rfl
    · split
      · rfl
      · split <;> rfl

theorem slash_upper (h : ∀ d rest, c = '\\' → cs = d :: rest → False) :
    ∀ d rest, c.toUpper = '\\' → upper cs = d :: rest → False := by
  intro d rest hc hcs
  cases cs with
  | nil => cases hcs
  | cons e cs => exact h e cs ((toUpper_eq_iff rfl).mp hc) rfl

theorem spanString_upper (cs : List Char) :
    (spanString (upper cs)).map (fun r => (r.1, r.2.2)) =
      (spanString cs).map fun r => (upper r.1, upper r.2.2) := by
  have hslash : '\\'.toUpper = '\\' := rfl
  fun_induction spanString cs with
  | case1 => rfl
  | case2 c cs ih =>
    have h := congrArg (Option.map fun r => ('\\' :: c.toUpper :: r.1, r.2)) ih
    rw [upper_cons, upper_cons, hslash, spanString]
    simpa [Function.comp_def, hslash] using h
  | case3 c cs hescape hc =>
    rw [upper_cons, spanString.eq_3 _ _ (slash_upper hescape), toUpper_beq rfl, if_pos hc]
    rfl
  | case4 c cs hescape hc ih =>
    have h := congrArg (Option.map fun r => (c.toUpper :: r.1, r.2)) ih
    rw [upper_cons, spanString.eq_3 _ _ (slash_upper hescape), toUpper_beq rfl, if_neg hc]
    simpa [Function.comp_def] using h

theorem spanInterpolated_upper (depth : Nat) (quoted : Bool) (cs : List Char) :
    spanInterpolated depth quoted (upper cs) =
      (spanInterpolated depth quoted cs).map fun (body, rest) => (upper body, upper rest) := by
  have hslash : '\\'.toUpper = '\\' := rfl
  fun_induction spanInterpolated depth quoted cs with
  | case1 => rfl
  | case2 depth quoted c cs ih =>
    rw [upper_cons, upper_cons, hslash, spanInterpolated, ih]
    simp [Function.comp_def, hslash]
  | case3 depth quoted c cs hescape hc =>
    rw [upper_cons, spanInterpolated.eq_3 _ _ _ _ (slash_upper hescape), toUpper_beq rfl, if_pos hc]
    rfl
  | case4 depth quoted c cs hescape hc =>
    rename_i ih
    rw [upper_cons, spanInterpolated.eq_3 _ _ _ _ (slash_upper hescape)]
    simp only [toUpper_beq (d := '"') rfl, toUpper_beq (d := '{') rfl, toUpper_beq (d := '}') rfl]
    rw [if_neg hc, ih]
    simp [Function.comp_def]

theorem pairMark_of_isAlpha (h : c.isAlpha ∨ d.isAlpha) : pairMark c d = none := by
  unfold pairMark
  split <;> simp_all

theorem singleMark_of_isAlpha (h : c.isAlpha) : singleMark c = none := by
  unfold singleMark
  split <;> simp_all

theorem pairMark_upper (c d : Char) : pairMark c.toUpper d.toUpper = pairMark c d := by
  by_cases h : c.isAlpha ∨ d.isAlpha
  · rw [pairMark_of_isAlpha h, pairMark_of_isAlpha (by simpa using h)]
  · have hself (c : Char) (hc : c.isAlpha = false) : c.toUpper = c := (toUpper_eq_iff hc).mpr rfl
    rw [hself c (by simp_all), hself d (by simp_all)]

theorem singleMark_upper (c : Char) : singleMark c.toUpper = singleMark c := by
  by_cases h : c.isAlpha
  · rw [singleMark_of_isAlpha h, singleMark_of_isAlpha (by simpa using h)]
  · rw [(toUpper_eq_iff (by simpa using h)).mpr rfl]

theorem spanMark_upper (cs : List Char) :
    spanMark (upper cs) = (spanMark cs).map fun (m, rest) => (m, upper rest) := by
  cases cs with
  | nil => rfl
  | cons c cs =>
    have hpair : (upper cs).head?.bind (pairMark c.toUpper) = cs.head?.bind (pairMark c) := by
      cases cs with
      | nil => rfl
      | cons d cs => exact pairMark_upper c d
    rw [upper_cons, spanMark, spanMark, hpair, singleMark_upper]
    split
    · cases cs <;> rfl
    · simp [Function.comp_def]

/-! ### Tokens -/

/-- The second token is the first one in upper case, and so is what follows it. -/
structure Scanned.Raised (s t : Scanned) : Prop where
  kind : t.kind = s.kind
  lexeme : t.lexeme = upper s.lexeme
  rest : t.rest = upper s.rest

theorem spanLine_upper (kind : TokenKind) (c : Char) (cs : List Char) :
    (spanLine kind c cs).Raised (spanLine kind c.toUpper (upper cs)) := by
  have hline (c : Char) : (c.toUpper != '\n' && c.toUpper != '\r') = (c != '\n' && c != '\r') := by
    simp [bne]
  exact ⟨rfl, congrArg _ (takeWhile_upper hline cs), dropWhile_upper hline cs⟩

theorem scanWord_upper (c : Char) (cs : List Char) :
    (scanWord c cs).Raised (scanWord c.toUpper (upper cs)) := by
  simp only [scanWord, takeWhile_upper toUpper_isWordChar, dropWhile_upper toUpper_isWordChar,
    ← upper_cons, foldCase_upper, compoundEnd_upper]
  split
  · exact ⟨rfl, rfl, rfl⟩
  · exact ⟨rfl, rfl, rfl⟩
  · cases compoundEnd (cs.dropWhile isWordChar) with
    | none => exact ⟨rfl, rfl, rfl⟩
    | some r => exact ⟨rfl, upper_append.symm, rfl⟩
  · exact ⟨rfl, rfl, rfl⟩

/-- The kind of a number depends on its digits only if it is whole. -/
theorem numberValue_upper (h : isFloat = false → ∀ c ∈ cs, c.isDigit) (suffix : Option Suffix) :
    (numberValue (upper cs) isFloat suffix).1 = (numberValue cs isFloat suffix).1 := by
  cases isFloat with
  | false => rw [upper_of_isDigit (h rfl)]
  | true =>
    unfold numberValue
    simp only [Bool.true_or, if_true]
    split <;> rfl

theorem scanNumber_upper (hc : c.isDigit) (cs : List Char) :
    (scanNumber c cs).Raised (scanNumber c.toUpper (upper cs)) := by
  have hdigits (fraction exponent : List Char) (h : (!(fraction.isEmpty && exponent.isEmpty)) = false) :
      ∀ d ∈ c :: cs.takeWhile Char.isDigit ++ fraction ++ exponent, d.isDigit := by
    obtain ⟨rfl, rfl⟩ : fraction = [] ∧ exponent = [] := by simpa using h
    simpa using ⟨hc, fun d hd => List.all_eq_true.mp List.all_takeWhile d hd⟩
  simp only [scanNumber, takeWhile_upper toUpper_isDigit, dropWhile_upper toUpper_isDigit,
    ← upper_cons, spanFraction_upper, spanExponent_upper, isEmpty_upper, spanSuffix_upper,
    ← upper_append]
  cases spanSuffix _ _ with
  | none => exact ⟨numberValue_upper (hdigits _ _) none, rfl, rfl⟩
  | some r => exact ⟨numberValue_upper (hdigits _ _) (some r.2.1), by simp, rfl⟩

/-- The same problem, or tokens that differ in case. -/
def Raises : Except LexProblem Scanned → Except LexProblem Scanned → Prop
  | .ok s, .ok t => s.Raised t
  | .error problem, .error problem' => problem = problem'
  | _, _ => False

theorem Plain.upper (h : Plain c cs) : Plain c.toUpper (upper cs) where
  newline := mt (toUpper_eq_iff rfl).mp h.newline
  carriage hc := mt (head?_upper rfl).mp (h.carriage ((toUpper_eq_iff rfl).mp hc))
  dollar hc := mt (head?_upper rfl).mp (h.dollar ((toUpper_eq_iff rfl).mp hc))

theorem upper_text (m : Mark) : upper m.text.toList = m.text.toList := by
  cases m <;> rfl

theorem scanFrom_upper (c : Char) (cs : List Char) :
    Raises (scanFrom c cs) (scanFrom c.toUpper (upper cs)) := by
  have hmark := spanMark_upper (c :: cs)
  rw [upper_cons] at hmark
  rw [scanFrom, scanFrom, toUpper_beq rfl, toUpper_beq rfl, toUpper_beq rfl, toUpper_isDigit,
    toUpper_isWordStart, hmark]
  split
  · exact spanLine_upper ..
  split
  · exact spanLine_upper ..
  split
  · rename_i hdigit
    exact scanNumber_upper hdigit cs
  split
  · exact scanWord_upper c cs
  split
  · have hstring := spanString_upper cs
    revert hstring
    cases spanString cs <;> cases spanString (upper cs) <;> intro hstring
    · rfl
    · cases hstring
    · cases hstring
    · obtain ⟨hlexeme, hrest⟩ := Prod.mk.inj (Option.some.inj hstring)
      exact ⟨rfl, congrArg _ hlexeme, hrest⟩
  · cases spanMark (c :: cs) with
    | none => exact ⟨rfl, rfl, rfl⟩
    | some r => exact ⟨rfl, (upper_text r.1).symm, rfl⟩

theorem scan_upper (cs : List Char) : Raises (scan cs) (scan (upper cs)) := by
  cases cs with
  | nil => exact ⟨rfl, rfl, rfl⟩
  | cons c cs =>
    by_cases hline : c = '\n'
    · subst hline
      exact ⟨rfl, rfl, rfl⟩
    by_cases hreturn : c = '\r' ∧ cs.head? = some '\n'
    · obtain ⟨rfl, hhead⟩ := hreturn
      obtain ⟨rest, rfl⟩ := List.head?_eq_some_iff.mp hhead
      exact ⟨rfl, rfl, rfl⟩
    by_cases hdollar : c = '$' ∧ cs.head? = some '"'
    · obtain ⟨rfl, hhead⟩ := hdollar
      obtain ⟨rest, rfl⟩ := List.head?_eq_some_iff.mp hhead
      have hopening : upper ('$' :: '"' :: rest) = '$' :: '"' :: upper rest := rfl
      rw [hopening, scan, scan, spanInterpolated_upper]
      cases spanInterpolated 0 false rest with
      | none => rfl
      | some r => exact ⟨rfl, by simp, rfl⟩
    · have hplain : Plain c cs := ⟨hline, not_and.mp hreturn, not_and.mp hdollar⟩
      rw [scan_plain hplain, upper_cons, scan_plain hplain.upper]
      exact scanFrom_upper c cs

/-- The place of a token and how it is written, in a list of tokens or up to a problem. -/
def outline (f : String → String) (r : Except LexError (List Token)) :
    Except LexError (List (TokenKind × Loc × String)) :=
  List.map (fun t => (t.kind, t.loc, f t.lexeme)) <$> r

theorem Scanned.Raised.token {s t : Scanned} (h : s.Raised t) (loc : Loc) :
    ((t.token loc).kind, (t.token loc).loc, (t.token loc).lexeme) =
      ((s.token loc).kind, (s.token loc).loc, foldCase (s.token loc).lexeme) := by
  simp [h.kind, h.lexeme, foldCase_ofList]

theorem tokens_upper (fuel : Nat) (loc : Loc) (cs : List Char) :
    outline id (tokens fuel loc (upper cs)) = outline foldCase (tokens fuel loc cs) := by
  induction fuel generalizing loc cs with
  | zero =>
    have hscan := scan_upper (spanBlanks cs).2
    rw [tokens, tokens, spanBlanks_upper]
    dsimp only
    rw [skip_upper]
    revert hscan
    cases scan (spanBlanks cs).2 <;> cases scan (upper (spanBlanks cs).2) <;> intro hscan
    · cases hscan
      rfl
    · exact hscan.elim
    · exact hscan.elim
    · exact congrArg (fun t => Except.ok [t]) (hscan.token _)
  | succ fuel ih =>
    have hscan := scan_upper (spanBlanks cs).2
    rw [tokens, tokens, spanBlanks_upper]
    dsimp only
    rw [skip_upper]
    revert hscan
    cases scan (spanBlanks cs).2 <;> cases scan (upper (spanBlanks cs).2) <;> intro hscan
    · cases hscan
      rfl
    · exact hscan.elim
    · exact hscan.elim
    · rename_i s t
      dsimp only
      rw [hscan.kind, hscan.lexeme, hscan.rest, skip_upper]
      split
      · exact congrArg (fun t => Except.ok [t]) (hscan.token _)
      · have hrest := ih ((loc.skip (spanBlanks cs).1).skip s.lexeme) s.rest
        revert hrest
        cases tokens fuel _ s.rest <;> cases tokens fuel _ (upper s.rest) <;> intro hrest
        · exact hrest
        · cases hrest
        · cases hrest
        · exact congrArg Except.ok (List.cons_eq_cons.mpr ⟨hscan.token _, Except.ok.inj hrest⟩)

end Lexer

/-- Letter case does not matter to tokens: the upper case of a text has the same problem at the same
place, or tokens of the same kinds at the same places, spelled in upper case. -/
theorem tokenize_foldCase (source : String) (file : Nat) :
    List.map (fun t => (t.kind, t.loc, t.lexeme)) <$> tokenize (foldCase source) file =
      List.map (fun t => (t.kind, t.loc, foldCase t.lexeme)) <$> tokenize source file := by
  have h := Lexer.tokens_upper source.toList.length (.start file) source.toList
  rw [tokenize, tokenize, foldCase, String.toList_ofList, List.length_map]
  exact h

end BasicSSA
