import BasicSSA.Diagnostic
import BasicSSA.Proofs.Token.Lossless
import Mathlib.Data.List.Induction

/-!
# Marks under tokens

The lexer counts lines as it reads, and a diagnostic prints the line that it finds by searching the
text. Both agree: the mark of a diagnostic at a token stands under the first character of the token
(`marks_token`).
-/

namespace BasicSSA

/-! ### The line at a position -/

/-- The line after a line. -/
theorem dropLines_succ (h : dropLines n cs = some (line ++ '\n' :: rest)) (hline : '\n' ∉ line) :
    dropLines (n + 1) cs = some rest := by
  induction n generalizing cs with
  | zero =>
    cases h
    have hne : ∀ c ∈ line, (c != '\n') = true := by
      intro c hc
      simpa using fun h : c = '\n' => hline (h ▸ hc)
    simp [dropLines, List.dropWhile_append_of_pos hne]
  | succ n ih =>
    rw [dropLines] at h ⊢
    split at h
    · cases h
    · exact ih h

/-- The lines before a position end where the column of the position is counted from. -/
theorem exists_line_after (file : Nat) (before rest : List Char) :
    ∃ line, dropLines ((Loc.after file before).line - 1) (before ++ rest) = some (line ++ rest) ∧
      '\n' ∉ line ∧ (Loc.after file before).column - 1 = line.length := by
  induction before using List.reverseRecOn generalizing rest with
  | nil => exact ⟨[], by simp [Loc.after, dropLines]⟩
  | append_singleton before c ih =>
    obtain ⟨line, hline, hne, hcolumn⟩ := ih (c :: rest)
    rw [← Loc.advance_after, List.append_assoc, List.singleton_append]
    by_cases hc : c = '\n'
    · subst hc
      refine ⟨[], ?_, by simp, by simp [Loc.advance]⟩
      have hpos : 1 ≤ (Loc.after file before).line := Nat.le_add_right ..
      simpa [Loc.advance, Nat.sub_add_cancel hpos] using dropLines_succ hline hne
    · have hpos : 1 ≤ (Loc.after file before).column := Nat.le_add_right ..
      refine ⟨line ++ [c], by simpa [Loc.advance, hc] using hline, ?_, ?_⟩
      · simpa [hne] using Ne.symm hc
      · simp [Loc.advance, hc, ← hcolumn, Nat.sub_add_cancel hpos]

theorem getElem?_dropReturn (hc : c ≠ '\r') :
    (dropReturn (line ++ c :: rest))[line.length]? = some c := by
  unfold dropReturn
  split
  · rename_i hlast
    rcases rest.eq_nil_or_concat with rfl | ⟨rest, d, rfl⟩
    · simp [hc] at hlast
    · have hconcat : line ++ c :: rest.concat d = (line ++ c :: rest) ++ [d] := by simp
      rw [hconcat, List.dropLast_concat]
      simp
  · simp

/-- The line at a position holds the character there, unless it is part of the end of the line. -/
theorem lineText_after (file : Nat) (before rest : List Char) (hn : c ≠ '\n') (hr : c ≠ '\r') :
    (lineText (before ++ c :: rest) (Loc.after file before).line)[(Loc.after file before).column - 1]? =
      some c := by
  obtain ⟨line, hline, hne, hcolumn⟩ := exists_line_after file before (c :: rest)
  have hall : ∀ d ∈ line, (d != '\n') = true := by
    intro d hd
    simpa using fun h : d = '\n' => hne (h ▸ hd)
  have hpos : (Loc.after file before).line ≠ 0 := by simp [Loc.after]
  rw [lineText, if_neg hpos, hline, hcolumn]
  dsimp only
  rw [List.takeWhile_append_of_pos hall, List.takeWhile_cons_of_pos (by simpa using hn)]
  exact getElem?_dropReturn hr

/-! ### The first character of a token -/

/-- Only a newline starts with a character that ends a line. -/
theorem Lexer.ne_of_scan (hblanks : spanBlanks (c :: rest) = ([], c :: rest))
    (hscan : scan (c :: rest) = .ok s) (hs : s.kind ≠ .newline) : c ≠ '\n' ∧ c ≠ '\r' := by
  refine ⟨?_, ?_⟩
  · rintro rfl
    cases hscan
    exact hs rfl
  · rintro rfl
    by_cases hrest : rest.head? = some '\n'
    · obtain ⟨rest, rfl⟩ := List.head?_eq_some_iff.mp hrest
      cases hscan
      exact hs rfl
    · simp [spanBlanks, hrest] at hblanks

/-- A diagnostic prints its line unless that is empty. -/
theorem Diagnostic.exists_annotated {d : Diagnostic} {sources : Sources}
    (h : sources.line d.loc.file d.loc.line ≠ "") (code : String) :
    ∃ message, d.annotated code sources =
      message ++ "\n" ++ sources.line d.loc.file d.loc.line ++ "\n" ++ d.marks ++ "\n" := by
  simp only [annotated, beq_iff_eq, h, if_false, ← String.append_assoc]
  exact ⟨_, rfl⟩

/-- A diagnostic at a token, other than the end of a line or of the text, prints the line of the
token and under it a mark below the first character of the token. -/
theorem marks_token {sources : Sources} {d : Diagnostic} (h : tokenize source file = .ok ts)
    (ht : t ∈ ts) (hline : t.kind ≠ .newline) (hend : t.kind ≠ .endOfFile)
    (hsource : sources.texts.lookup file = some source) (hd : d.loc = t.loc) (code : String) :
    ∃ c message n,
      t.lexeme.toList.head? = some c ∧ 0 < t.loc.column ∧
      (sources.line t.loc.file t.loc.line).toList[t.loc.column - 1]? = some c ∧
      d.annotated code sources =
        message ++ "\n" ++ sources.line t.loc.file t.loc.line ++ "\n" ++ d.marks ++ "\n" ∧
      d.marks = repeatChar ' ' (t.loc.column - 1) ++ repeatChar '^' (n + 1) := by
  obtain ⟨loc, rfl⟩ | ⟨before, text, s, htext, hblanks, hscan, hheads, rfl⟩ :=
    Lexer.exists_scan_of_mem h ht
  · exact absurd rfl hend
  obtain ⟨c, lexeme, hc⟩ := List.exists_cons_of_ne_nil hheads.nonempty
  have happend := hheads.append
  rw [hc, List.cons_append] at happend
  rw [← happend] at hblanks hscan htext
  obtain ⟨hn, hr⟩ := Lexer.ne_of_scan hblanks hscan hline
  have hat := lineText_after file before (lexeme ++ s.rest) hn hr
  have hprinted : (sources.line file (Loc.after file before).line).toList =
      lineText (before ++ c :: (lexeme ++ s.rest)) (Loc.after file before).line := by
    rw [Sources.line, hsource]
    simp [htext]
  rw [← hprinted] at hat
  rw [Lexer.Scanned.token_loc] at hd ⊢
  have hne : sources.line d.loc.file d.loc.line ≠ "" := by
    intro h
    rw [hd] at h
    have h : sources.line file (Loc.after file before).line = "" := h
    simp [h] at hat
  obtain ⟨message, hmessage⟩ := d.exists_annotated hne code
  have hcolumn : 0 < (Loc.after file before).column := Nat.add_pos_left Nat.one_pos _
  refine ⟨c, message, d.length - 1, by simp [hc], hcolumn, hat, hd ▸ hmessage, ?_⟩
  rw [← hd, Diagnostic.marks]
  congr 2
  split <;> omega

/-- The token after a string of two lines and a carriage return that no newline follows. -/
theorem marks_token_lines :
    let source := "x = \"a\r\nb\"\r+ y\r\n"
    let t : Token := { kind := .mark .plus, lexeme := "+", loc := ⟨1, 2, 4⟩ }
    let sources : Sources := { texts := [(1, source)] }
    let d : Diagnostic := { severity := .error, message := "", loc := t.loc }
    (∃ ts, tokenize source 1 = .ok ts ∧ t ∈ ts) ∧
    ∃ c message n, t.lexeme.toList.head? = some c ∧ 0 < t.loc.column ∧
      (sources.line 1 2).toList[3]? = some c ∧
      d.annotated "B0001" sources =
        message ++ "\n" ++ sources.line 1 2 ++ "\n" ++ d.marks ++ "\n" ∧
      d.marks = repeatChar ' ' 3 ++ repeatChar '^' (n + 1) := by
  intro source t sources d
  have hmem : (tokenize source 1).toOption.any (t ∈ ·) := by decide +kernel
  cases h : tokenize source 1 with
  | error e => simp [h, Except.toOption] at hmem
  | ok ts =>
    have ht : t ∈ ts := by simpa [h, Except.toOption] using hmem
    exact ⟨⟨ts, rfl, ht⟩, marks_token h ht (by decide) (by decide) rfl rfl "B0001"⟩

end BasicSSA
