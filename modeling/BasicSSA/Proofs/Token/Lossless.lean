import BasicSSA.Token.Lexer

/-!
# Nothing of a text is lost in its tokens

`Lexer.Covers` says how a text is read: lexemes in order, with gaps of blanks between them, each
token at the position of its first character. `tokenize_covers` says that a text that has tokens is
covered by them, and that a text that has none is covered up to a literal without its closing quote.
-/

namespace BasicSSA

namespace Loc

/-- The position after a text from the start of a file: one line for each newline, one column for
each character since the last of them. -/
def after (file : Nat) (text : List Char) : Loc where
  file
  line := 1 + text.count '\n'
  column := 1 + (text.reverse.takeWhile (· ≠ '\n')).length

variable {file : Nat}

@[simp] theorem skip_nil {l : Loc} : l.skip [] = l := rfl

@[simp] theorem skip_append {l : Loc} : l.skip (cs ++ ds) = (l.skip cs).skip ds :=
  List.foldl_append

theorem advance_after : (after file text).advance c = after file (text ++ [c]) := by
  unfold advance after
  by_cases hc : c = '\n'
  · simp [hc]
    omega
  · simp [hc]
    omega

@[simp] theorem skip_after : (after file text).skip cs = after file (text ++ cs) := by
  induction cs generalizing text with
  | nil => simp
  | cons c cs ih =>
    calc (after file text).skip (c :: cs)
      _ = ((after file text).advance c).skip cs := rfl
      _ = after file (text ++ c :: cs) := by rw [advance_after, ih, List.append_assoc]; rfl

theorem precedes_trans {a b c : Loc} (h : a.precedes b) (h' : b.precedes c) : a.precedes c := by
  simp only [precedes, Bool.or_eq_true, decide_eq_true_eq, Bool.and_eq_true, beq_iff_eq] at *
  omega

theorem precedes_advance {l : Loc} : l.precedes (l.advance c) := by
  unfold precedes advance
  split <;> simp

theorem precedes_after (h : cs ≠ []) : (after file text).precedes (after file (text ++ cs)) := by
  induction cs generalizing text with
  | nil => exact absurd rfl h
  | cons c cs ih =>
    have hfirst : (after file text).precedes (after file (text ++ [c])) :=
      advance_after ▸ precedes_advance
    by_cases hcs : cs = []
    · exact hcs ▸ hfirst
    · have hrest : (after file (text ++ [c])).precedes (after file (text ++ [c] ++ cs)) := ih hcs
      rw [List.append_assoc] at hrest
      exact precedes_trans hfirst hrest

end Loc

namespace Lexer

namespace Scanned

variable {s : Scanned}

@[simp] theorem token_kind : (s.token loc).kind = s.kind := rfl

@[simp] theorem token_lexeme : (s.token loc).lexeme = String.ofList s.lexeme := rfl

@[simp] theorem token_value : (s.token loc).value = s.value := rfl

@[simp] theorem token_loc : (s.token loc).loc = loc := rfl

end Scanned

/-! ### Blanks -/

/-- A gap before the rest of a text: spaces, tabs, and carriage returns that no newline follows. -/
def IsGap (gap rest : List Char) : Prop :=
  ∀ before c after, gap = before ++ c :: after →
    c = ' ' ∨ c = '\t' ∨ c = '\r' ∧ (after ++ rest).head? ≠ some '\n'

theorem IsGap.nil : IsGap [] rest := by
  intro before c after h
  simp at h

theorem IsGap.cons (h : IsGap gap rest)
    (hc : c = ' ' ∨ c = '\t' ∨ c = '\r' ∧ (gap ++ rest).head? ≠ some '\n') :
    IsGap (c :: gap) rest := by
  intro before d after heq
  cases before with
  | nil =>
    cases heq
    exact hc
  | cons b before =>
    cases heq
    exact h before d after rfl

/-- Of the rest of a text only the first character matters. -/
theorem IsGap.congr (h : IsGap gap rest) (hr : rest.head? = rest'.head?) : IsGap gap rest' := by
  intro before c after heq
  rw [List.head?_append, ← hr, ← List.head?_append]
  exact h before c after heq

theorem spanBlanks_append (cs : List Char) : (spanBlanks cs).1 ++ (spanBlanks cs).2 = cs := by
  induction cs with
  | nil => rfl
  | cons c rest ih =>
    unfold spanBlanks
    split
    · simpa using ih
    · rfl

theorem isGap_spanBlanks (cs : List Char) : IsGap (spanBlanks cs).1 (spanBlanks cs).2 := by
  induction cs with
  | nil => exact .nil
  | cons c rest ih =>
    unfold spanBlanks
    split
    · rename_i hc
      refine ih.cons ?_
      rw [spanBlanks_append]
      simpa [or_assoc] using hc
    · exact .nil

/-- No blank is left at the head of a text after its blanks. -/
theorem spanBlanks_idem (cs : List Char) :
    spanBlanks (spanBlanks cs).2 = ([], (spanBlanks cs).2) := by
  induction cs with
  | nil => rfl
  | cons c rest ih =>
    by_cases hc : (c == ' ' || c == '\t' || (c == '\r' && rest.head? != some '\n')) = true
    · rwa [spanBlanks, if_pos hc]
    · rw [spanBlanks, if_neg hc, spanBlanks, if_neg hc]

/-! ### Words, numbers and marks -/

theorem takeWhile_append_drop (p : Char → Bool) (cs : List Char) :
    cs.takeWhile p ++ cs.drop (cs.takeWhile p).length = cs := by
  induction cs with
  | nil => rfl
  | cons c cs ih =>
    rw [List.takeWhile_cons]
    split
    · simpa using ih
    · rfl

theorem compoundEnd_append (h : compoundEnd cs = some (more, block, rest)) : more ++ rest = cs := by
  unfold compoundEnd at h
  dsimp only at h
  split at h
  · cases h
  · split at h
    · cases h
      rw [List.append_assoc, takeWhile_append_drop, takeWhile_append_drop]
    · cases h

theorem scanWord_append (c : Char) (cs : List Char) :
    (scanWord c cs).lexeme ++ (scanWord c cs).rest = c :: cs := by
  unfold scanWord
  dsimp only
  split
  · simp
  · simp
  · split
    · rename_i hend
      simp [compoundEnd_append hend]
    · simp
  · simp

theorem spanFraction_append (cs : List Char) : (spanFraction cs).1 ++ (spanFraction cs).2 = cs := by
  unfold spanFraction
  split
  · split <;> simp
  · rfl

theorem spanExponent_append (cs : List Char) : (spanExponent cs).1 ++ (spanExponent cs).2 = cs := by
  unfold spanExponent
  split
  · split
    · split
      · simp
      · split <;> simp
    · rfl
  · rfl

theorem spanSuffix_append (h : spanSuffix isFloat cs = some (c, suffix, rest)) : c :: rest = cs := by
  unfold spanSuffix at h
  split at h
  · split at h
    · cases h
    · split at h
      · cases h
        rfl
      · split at h
        · cases h
          rfl
        · cases h
  · cases h

theorem scanNumber_append (c : Char) (cs : List Char) :
    (scanNumber c cs).lexeme ++ (scanNumber c cs).rest = c :: cs := by
  have hcs : cs.takeWhile Char.isDigit ++ ((spanFraction (cs.dropWhile Char.isDigit)).1 ++
      ((spanExponent (spanFraction (cs.dropWhile Char.isDigit)).2).1 ++
        (spanExponent (spanFraction (cs.dropWhile Char.isDigit)).2).2)) = cs := by
    rw [spanExponent_append, spanFraction_append, List.takeWhile_append_dropWhile]
  unfold scanNumber
  dsimp only
  split
  · rename_i hsuffix
    simp [spanSuffix_append hsuffix, hcs]
  · simp [hcs]

theorem text_of_pairMark (h : pairMark c d = some m) : m.text.toList = [c, d] := by
  unfold pairMark at h
  split at h <;> cases h <;> rfl

theorem text_of_singleMark (h : singleMark c = some m) : m.text.toList = [c] := by
  unfold singleMark at h
  split at h <;> cases h <;> rfl

theorem spanMark_append (h : spanMark cs = some (m, rest)) : m.text.toList ++ rest = cs := by
  unfold spanMark at h
  split at h
  · cases h
  · split at h
    · rename_i hpair
      cases h
      obtain ⟨d, hd, hm⟩ := Option.bind_eq_some_iff.mp hpair
      obtain ⟨rest, rfl⟩ := List.head?_eq_some_iff.mp hd
      rw [text_of_pairMark hm]
      rfl
    · obtain ⟨m, hm, heq⟩ := Option.map_eq_some_iff.mp h
      cases heq
      rw [text_of_singleMark hm]
      rfl

theorem Mark.text_ne_nil (m : Mark) : m.text.toList ≠ [] := by
  cases m <;> decide

/-! ### Literals -/

theorem spanString_append (h : spanString cs = some (lexeme, value, rest)) :
    lexeme ++ rest = cs := by
  fun_induction spanString cs generalizing lexeme value rest with
  | case1 => cases h
  | case2 c cs ih | case4 c cs _ _ ih =>
    obtain ⟨⟨body, value, rest⟩, hbody, heq⟩ := Option.map_eq_some_iff.mp h
    cases heq
    simp [ih hbody]
  | case3 c cs _ hc =>
    cases h
    rfl

theorem spanInterpolated_append (h : spanInterpolated depth quoted cs = some (body, rest)) :
    body ++ '"' :: rest = cs := by
  fun_induction spanInterpolated depth quoted cs generalizing body rest with
  | case1 => cases h
  | case2 depth quoted c cs ih =>
    obtain ⟨⟨body, rest⟩, hbody, heq⟩ := Option.map_eq_some_iff.mp h
    cases heq
    simp [ih hbody]
  | case3 depth quoted c cs _ hc =>
    cases h
    simp only [Bool.and_eq_true, beq_iff_eq] at hc
    rw [hc.1]
    rfl
  | case4 depth quoted c cs =>
    rename_i ih
    obtain ⟨⟨body, rest⟩, hbody, heq⟩ := Option.map_eq_some_iff.mp h
    cases heq
    simp [ih hbody]

/-- Where the text inside a literal stands: after a backslash, and at some depth of braces, there
inside or outside of a quoted text. -/
structure Inside where
  escaped : Bool := false
  depth : Nat := 0
  quoted : Bool := false
  deriving DecidableEq

/-- The place after one more character. Only in an interpolated string braces nest. -/
def Inside.next (interpolated : Bool) (s : Inside) (c : Char) : Inside :=
  if s.escaped then { s with escaped := false }
  else if c = '\\' then { s with escaped := true }
  else if c = '"' then { s with quoted := !s.quoted }
  else if interpolated && !s.quoted && c = '{' then { s with depth := s.depth + 1 }
  else if interpolated && !s.quoted && c = '}' then { s with depth := s.depth - 1 }
  else s

/-- How a literal with a problem starts, and whether it is interpolated. -/
def openingOf : LexProblem → List Char × Bool
  | .unterminatedString => (['"'], false)
  | .unterminatedInterpolation => (['$', '"'], true)

/-- A text starts with a literal that does not end: every quote after its opening is escaped or
stands inside braces. -/
def Unclosed (problem : LexProblem) (text : List Char) : Prop :=
  ∃ rest, text = (openingOf problem).1 ++ rest ∧ ∀ body after, rest = body ++ '"' :: after →
    let s := body.foldl (Inside.next (openingOf problem).2) {}
    s.escaped ∨ 0 < s.depth

theorem escaped_of_spanString (h : spanString cs = none) {body after : List Char}
    (hcs : cs = body ++ '"' :: after) :
    (body.foldl (Inside.next false) { quoted }).escaped := by
  fun_induction spanString cs generalizing body quoted with
  | case1 => simp at hcs
  | case2 c cs ih =>
    rcases body with _ | ⟨b, _ | ⟨b', body⟩⟩
    · simp at hcs
    · cases hcs
      rfl
    · cases hcs
      have hrest := @ih quoted (by simpa using h) body rfl
      exact hrest
  | case3 c cs _ hc => cases h
  | case4 c cs hslash hc ih =>
    cases body with
    | nil =>
      cases hcs
      simp at hc
    | cons b body =>
      cases hcs
      have hb : c ≠ '\\' := by
        rintro rfl
        rcases body with _ | ⟨b, body⟩ <;> exact hslash _ _ rfl rfl
      have hq : c ≠ '"' := by simpa using hc
      have hrest := @ih quoted (by simpa using h) body rfl
      simpa [Inside.next, hb, hq] using hrest

/-- Apart from backslashes, the braces and quotes are counted as the end of the string is searched. -/
theorem inside_next_of_ne (hc : c ≠ '\\') : Inside.next true { depth, quoted } c =
    { depth := if quoted then depth else if c == '{' then depth + 1
        else if c == '}' then depth - 1 else depth
      quoted := if c == '"' then !quoted else quoted } := by
  by_cases hq : c = '"'
  · simp [Inside.next, hq]
  · by_cases hl : c = '{'
    · cases quoted <;> simp [Inside.next, hl]
    · by_cases hr : c = '}' <;> cases quoted <;> simp [Inside.next, hq, hc, hl, hr]

theorem inside_of_spanInterpolated (h : spanInterpolated depth quoted cs = none)
    {body after : List Char} (hcs : cs = body ++ '"' :: after) :
    let s := body.foldl (Inside.next true) { depth, quoted }
    s.escaped ∨ 0 < s.depth := by
  fun_induction spanInterpolated depth quoted cs generalizing body with
  | case1 => simp at hcs
  | case2 depth quoted c cs ih =>
    rcases body with _ | ⟨b, _ | ⟨b', body⟩⟩
    · simp at hcs
    · cases hcs
      exact .inl rfl
    · cases hcs
      have hrest := @ih (by simpa using h) body rfl
      exact hrest
  | case3 depth quoted c cs _ hc => cases h
  | case4 depth quoted c cs hslash hc quoted' =>
    rename_i depth' ih
    cases body with
    | nil =>
      cases hcs
      exact .inr (Nat.pos_of_ne_zero (by simpa using hc))
    | cons b body =>
      cases hcs
      have hb : c ≠ '\\' := by
        rintro rfl
        rcases body with _ | ⟨b, body⟩ <;> exact hslash _ _ rfl rfl
      rw [List.foldl_cons, inside_next_of_ne hb]
      exact @ih (by simpa using h) body rfl

/-! ### The token at the head of a text -/

/-- What is known of a token at the head of a text. -/
structure Heads (s : Scanned) (text : List Char) : Prop where
  append : s.lexeme ++ s.rest = text
  nonempty : s.lexeme ≠ []
  notEnd : s.kind ≠ .endOfFile
  /-- An interpolated string is its body in quotes. -/
  body : s.kind = .interpolated → ∀ body, s.value = some (.text body) →
    s.lexeme = '$' :: '"' :: body.toList ++ ['"']

theorem heads_spanLine (hend : kind ≠ .endOfFile) (hbody : kind ≠ .interpolated) :
    Heads (spanLine kind c cs) (c :: cs) where
  append := by simp [spanLine]
  nonempty := by simp [spanLine]
  notEnd := hend
  body h := absurd h hbody

theorem wordKind_isWord (upper : String) : (wordKind upper).isWord := by
  unfold wordKind
  split
  · rfl
  · split
    · rfl
    · split <;> rfl

theorem heads_scanWord (c : Char) (cs : List Char) : Heads (scanWord c cs) (c :: cs) := by
  have hword := wordKind_isWord (foldCase (String.ofList (c :: cs.takeWhile isWordChar)))
  have happend := scanWord_append c cs
  unfold scanWord at happend ⊢
  dsimp only at happend ⊢
  split at happend
  · exact ⟨happend, by simp, by simp, by simp⟩
  · exact ⟨happend, by simp, by simp, by simp⟩
  · split at happend <;> exact ⟨happend, by simp, by simp, by simp⟩
  · refine ⟨happend, by simp, fun h => ?_, fun h => ?_⟩ <;>
    · dsimp only at h
      rw [h] at hword
      cases hword

theorem heads_scanNumber (c : Char) (cs : List Char) : Heads (scanNumber c cs) (c :: cs) := by
  have hvalue (digits : List Char) (isFloat : Bool) (suffix : Option Suffix) :
      (numberValue digits isFloat suffix).1 ≠ .endOfFile ∧
        (numberValue digits isFloat suffix).1 ≠ .interpolated := by
    unfold numberValue
    dsimp only
    split
    · simp
    · split
      · simp
      · split <;> simp
  have hkind : (scanNumber c cs).kind ≠ .endOfFile ∧ (scanNumber c cs).kind ≠ .interpolated := by
    unfold scanNumber
    dsimp only
    split <;> exact hvalue ..
  refine ⟨scanNumber_append c cs, ?_, hkind.1, fun h => absurd h hkind.2⟩
  unfold scanNumber
  dsimp only
  split <;> simp

/-- What is found at the head of a text: a token, or a literal that does not end. -/
def Finds (text : List Char) : Except LexProblem Scanned → Prop
  | .ok s => Heads s text
  | .error problem => Unclosed problem text

/-- A text starts with neither a newline nor an interpolated string. -/
structure Plain (c : Char) (cs : List Char) : Prop where
  newline : c ≠ '\n'
  carriage : c = '\r' → cs.head? ≠ some '\n'
  dollar : c = '$' → cs.head? ≠ some '"'

theorem scan_plain (h : Plain c cs) : scan (c :: cs) = scanFrom c cs := by
  unfold scan
  split
  · contradiction
  · rename_i heq
    exact absurd (List.cons.inj heq).1 h.newline
  · rename_i heq
    cases heq
    exact absurd rfl (h.carriage rfl)
  · rename_i heq
    cases heq
    exact absurd rfl (h.dollar rfl)
  · rename_i heq
    cases heq
    rfl

theorem scanFrom_finds (c : Char) (cs : List Char) : Finds (c :: cs) (scanFrom c cs) := by
  unfold scanFrom
  split
  · exact heads_spanLine (by simp) (by simp)
  split
  · exact heads_spanLine (by simp) (by simp)
  split
  · exact heads_scanNumber c cs
  split
  · exact heads_scanWord c cs
  split
  · rename_i hquote
    have hc : c = '"' := by simpa using hquote
    split
    · rename_i lexeme value after hspan
      exact ⟨by simp [hc, spanString_append hspan], by simp, by simp, by simp⟩
    · rename_i hspan
      exact ⟨cs, by simp [openingOf, hc], fun body after h => .inl (escaped_of_spanString hspan h)⟩
  split
  · rename_i mark after hmark
    exact ⟨spanMark_append hmark, Mark.text_ne_nil mark, by simp, by simp⟩
  · exact ⟨rfl, by simp, by simp, by simp⟩

theorem scan_finds (c : Char) (cs : List Char) : Finds (c :: cs) (scan (c :: cs)) := by
  unfold scan
  split
  · contradiction
  · rename_i heq
    cases heq
    exact ⟨rfl, by simp, by simp, by simp⟩
  · rename_i heq
    cases heq
    exact ⟨rfl, by simp, by simp, by simp⟩
  · rename_i rest heq
    rw [heq]
    split
    · rename_i body after hspan
      exact ⟨by simp [spanInterpolated_append hspan], by simp, by simp, by simp⟩
    · rename_i hspan
      exact ⟨rest, rfl, fun body after => inside_of_spanInterpolated hspan⟩
  · rename_i heq
    rw [heq]
    exact scanFrom_finds ..

/-! ### The tokens of a text -/

/-- Tokens cover a text from the start of a file: it is their lexemes in order with gaps before
them, and each token stands at the position of its first character. -/
inductive Covers (file : Nat) : List Char → List Token → Prop
  | nil : Covers file [] []
  | snoc : Covers file text ts → IsGap gap t.lexeme.toList → t.lexeme ≠ "" →
    t.kind ≠ .endOfFile → t.loc = .after file (text ++ gap) →
    Covers file (text ++ gap ++ t.lexeme.toList) (ts ++ [t])

theorem Covers.notEnd (h : Covers file text ts) : ∀ t ∈ ts, t.kind ≠ .endOfFile := by
  induction h with
  | nil => simp
  | snoc _ _ _ hend _ ih =>
    intro t ht
    rcases List.mem_append.mp ht with ht | ht
    · exact ih t ht
    · rw [List.mem_singleton.mp ht]
      exact hend

theorem Covers.precedes (h : Covers file text ts) (ht : t ∈ ts) :
    t.loc.precedes (.after file (text ++ rest)) := by
  induction h generalizing rest with
  | nil => simp at ht
  | @snoc text ts gap u _ _ hne _ hloc ih =>
    rcases List.mem_append.mp ht with ht | ht
    · rw [List.append_assoc, List.append_assoc]
      exact ih ht
    · rw [List.mem_singleton.mp ht, hloc, List.append_assoc]
      refine Loc.precedes_after fun h => hne ?_
      simpa using (List.append_eq_nil_iff.mp h).1

theorem Covers.increasing (h : Covers file text ts) : ts.Pairwise (·.loc.precedes ·.loc) := by
  induction h with
  | nil => exact .nil
  | snoc hcovers _ _ _ hloc ih =>
    refine List.pairwise_append.mpr ⟨ih, List.pairwise_singleton .., fun t ht u hu => ?_⟩
    rw [List.mem_singleton.mp hu, hloc]
    exact hcovers.precedes ht

/-- How far the tokens of a text go: up to its end, or up to a literal that does not end. -/
def Reaches (file : Nat) (source : List Char) (us : List Token) :
    Except LexError (List Token) → Prop
  | .ok ts => ∃ vs eof text gap, ts = vs ++ [eof] ∧ source = text ++ gap ∧
      Covers file text (us ++ vs) ∧ IsGap gap [] ∧
      eof.kind = .endOfFile ∧ eof.lexeme = "" ∧ eof.loc = .after file source
  | .error e => ∃ vs text gap literal, source = text ++ gap ++ literal ∧
      Covers file text (us ++ vs) ∧ IsGap gap literal ∧
      e.loc = .after file (text ++ gap) ∧ Unclosed e.problem literal

/-- What the tokens after one token reach, all of them reach. -/
theorem Reaches.cons (h : Reaches file source (us ++ [t]) r) :
    Reaches file source us ((t :: ·) <$> r) := by
  cases r with
  | error e =>
    obtain ⟨vs, text, gap, literal, hsource, hcovers, hrest⟩ := h
    exact ⟨t :: vs, text, gap, literal, hsource, by simpa using hcovers, hrest⟩
  | ok ts =>
    obtain ⟨vs, eof, text, gap, rfl, hsource, hcovers, hrest⟩ := h
    exact ⟨t :: vs, eof, text, gap, rfl, hsource, by simpa using hcovers, hrest⟩

section Step

variable (hblanks : spanBlanks cs = (blanks, rest))

include hblanks

theorem tokens_nil (hrest : rest = []) : tokens fuel loc cs = .ok [.endAt (loc.skip blanks)] := by
  unfold tokens
  rw [hblanks, hrest]
  cases fuel <;> rfl

theorem tokens_error (hscan : scan rest = .error problem) :
    tokens fuel loc cs = .error ⟨problem, loc.skip blanks⟩ := by
  unfold tokens
  rw [hblanks]
  dsimp only
  rw [hscan]

theorem tokens_cons (hscan : scan rest = .ok s) (hs : s.kind ≠ .endOfFile) :
    tokens (fuel + 1) loc cs =
      (s.token (loc.skip blanks) :: ·) <$> tokens fuel (loc.skip (blanks ++ s.lexeme)) s.rest := by
  rw [tokens, hblanks]
  dsimp only
  rw [hscan, Loc.skip_append]
  dsimp only
  rw [if_neg hs]
  cases tokens fuel ((loc.skip blanks).skip s.lexeme) s.rest <;> rfl

end Step

/-- Tokens are read one after another: what holds of the token at the end and is kept by a token in
front of others holds of all. -/
theorem tokens_induct {P : Loc → List Char → List Token → Prop}
    (nil : ∀ loc gap, P loc gap [.endAt (loc.skip gap)])
    (cons : ∀ loc gap s text ts, spanBlanks text = ([], text) → scan text = .ok s → Heads s text →
      P (loc.skip (gap ++ s.lexeme)) s.rest ts → P loc (gap ++ text) (s.token (loc.skip gap) :: ts))
    (h : tokens fuel loc cs = .ok ts) (hfuel : cs.length ≤ fuel) : P loc cs ts := by
  induction fuel generalizing loc cs ts with
  | zero =>
    obtain rfl : cs = [] := List.length_eq_zero_iff.mp (Nat.le_zero.mp hfuel)
    cases h
    exact nil loc []
  | succ fuel ih =>
    have hcs := spanBlanks_append cs
    have hidem := spanBlanks_idem cs
    rcases hblanks : spanBlanks cs with ⟨blanks, _ | ⟨c, rest⟩⟩
    all_goals rw [hblanks] at hcs hidem
    · rw [tokens_nil hblanks rfl] at h
      cases h
      exact hcs ▸ (List.append_nil blanks).symm ▸ nil loc blanks
    · have hfinds := scan_finds c rest
      cases hscan : scan (c :: rest) with
      | error problem =>
        rw [tokens_error hblanks hscan] at h
        cases h
      | ok s =>
        rw [hscan] at hfinds
        have hs : Heads s (c :: rest) := hfinds
        rw [tokens_cons hblanks hscan hs.notEnd] at h
        cases hmore : tokens fuel (loc.skip (blanks ++ s.lexeme)) s.rest with
        | error e =>
          rw [hmore] at h
          cases h
        | ok more =>
          rw [hmore] at h
          cases h
          have hlength : s.rest.length ≤ fuel := by
            have hlex := List.length_pos_iff.mpr hs.nonempty
            rw [← hcs, ← hs.append] at hfuel
            simp only [List.length_append] at hfuel
            omega
          exact hcs ▸ cons loc blanks s (c :: rest) more hidem hscan hs (ih hmore hlength)

/-- Every token is the end of the text or is found at its place, where no blank stands. -/
theorem exists_scan_of_mem (h : tokenize source file = .ok ts) (ht : t ∈ ts) :
    (∃ loc, t = .endAt loc) ∨ ∃ before text s, source.toList = before ++ text ∧
      spanBlanks text = ([], text) ∧ scan text = .ok s ∧ Heads s text ∧
      t = s.token (.after file before) := by
  refine tokens_induct (P := fun loc cs ts => ∀ before, source.toList = before ++ cs →
      loc = .after file before → t ∈ ts → (∃ loc, t = .endAt loc) ∨ ∃ before text s,
        source.toList = before ++ text ∧ spanBlanks text = ([], text) ∧ scan text = .ok s ∧
        Heads s text ∧ t = s.token (.after file before))
    (fun loc gap before hsource hloc ht => .inl ⟨_, List.mem_singleton.mp ht⟩)
    (fun loc gap s text ts hidem hs hheads ih before hsource hloc ht => ?_) h (Nat.le_refl _)
    [] rfl rfl ht
  rcases List.mem_cons.mp ht with rfl | ht
  · exact .inr ⟨before ++ gap, text, s, by simp [hsource], hidem, hs, hheads, by simp [hloc]⟩
  · refine ih (before ++ (gap ++ s.lexeme)) ?_ (by rw [hloc, Loc.skip_after]) ht
    rw [hsource, ← hheads.append]
    simp

theorem tokens_reaches (hcovers : Covers file text us) (hfuel : cs.length ≤ fuel) :
    Reaches file (text ++ cs) us (tokens fuel (.after file text) cs) := by
  induction fuel generalizing text us cs with
  | zero =>
    obtain rfl : cs = [] := List.length_eq_zero_iff.mp (Nat.le_zero.mp hfuel)
    exact ⟨[], _, text, [], rfl, rfl, by simpa using hcovers, .nil, rfl, rfl, by simp⟩
  | succ fuel ih =>
    have hgap := isGap_spanBlanks cs
    have hcs := spanBlanks_append cs
    rcases hblanks : spanBlanks cs with ⟨blanks, _ | ⟨c, rest⟩⟩
    all_goals
      rw [hblanks] at hgap hcs
    · rw [tokens_nil hblanks rfl, ← hcs]
      exact ⟨[], _, text, blanks, rfl, by simp, by simpa using hcovers, hgap, rfl, rfl,
        by simp [Token.endAt]⟩
    · have hfinds := scan_finds c rest
      cases hscan : scan (c :: rest) with
      | error problem =>
        rw [hscan] at hfinds
        rw [tokens_error hblanks hscan, ← hcs]
        exact ⟨[], text, blanks, c :: rest, by simp, by simpa using hcovers, hgap, by simp, hfinds⟩
      | ok s =>
        rw [hscan] at hfinds
        have hs : Heads s (c :: rest) := hfinds
        have hgap : IsGap blanks s.lexeme := by
          refine hgap.congr ?_
          obtain ⟨d, ds, hd⟩ := List.exists_cons_of_ne_nil hs.nonempty
          rw [← hs.append, hd]
          rfl
        have hsnoc : Covers file (text ++ blanks ++ s.lexeme)
            (us ++ [s.token (.after file (text ++ blanks))]) := by
          have h := hcovers.snoc (t := s.token (.after file (text ++ blanks))) (by simpa using hgap)
            (by simpa using hs.nonempty) hs.notEnd rfl
          simpa using h
        have hlength : s.rest.length ≤ fuel := by
          have hlex := List.length_pos_iff.mpr hs.nonempty
          rw [← hcs, ← hs.append] at hfuel
          simp only [List.length_append] at hfuel
          omega
        have hrest := (ih hsnoc hlength).cons
        rw [tokens_cons hblanks hscan hs.notEnd, ← hcs, ← hs.append]
        simpa only [Loc.skip_after, List.append_assoc] using hrest

end Lexer

open Lexer in
/-- Tokens keep a text whole. If a text has tokens, it is their lexemes with gaps of blanks between
them, each token at its position, and the last one, and no other, marks its end. If it has none,
the error is at the start of a literal that does not end. -/
theorem tokenize_covers (source : String) (file : Nat) :
    match tokenize source file with
    | .ok ts => ∃ us eof text gap, ts = us ++ [eof] ∧ source.toList = text ++ gap ∧
        Covers file text us ∧ IsGap gap [] ∧
        (∀ t ∈ us, t.kind ≠ .endOfFile) ∧ eof.kind = .endOfFile ∧ eof.lexeme = "" ∧
        eof.loc = .after file source.toList ∧ ts.Pairwise (·.loc.precedes ·.loc)
    | .error e => ∃ us text gap literal, source.toList = text ++ gap ++ literal ∧
        Covers file text us ∧ IsGap gap literal ∧
        e.loc = .after file (text ++ gap) ∧ Unclosed e.problem literal := by
  have h : Reaches file ([] ++ source.toList) [] (tokenize source file) :=
    tokens_reaches .nil (Nat.le_refl _)
  split
  · rename_i ts hts
    rw [hts] at h
    obtain ⟨us, eof, text, gap, rfl, hsource, hcovers, hgap, hkind, hlexeme, hloc⟩ := h
    have hincreasing : (us ++ [eof]).Pairwise (·.loc.precedes ·.loc) := by
      refine List.pairwise_append.mpr
        ⟨hcovers.increasing, List.pairwise_singleton .., fun t ht u hu => ?_⟩
      rw [List.mem_singleton.mp hu, hloc, hsource]
      exact hcovers.precedes ht
    exact ⟨us, eof, text, gap, rfl, hsource, hcovers, hgap, hcovers.notEnd, hkind, hlexeme, hloc,
      hincreasing⟩
  · rename_i e he
    rw [he] at h
    exact h

end BasicSSA
