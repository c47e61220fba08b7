import BasicSSA.Proofs.Token.Lossless
import BasicSSA.Syntax.Printer
import Mathlib.Logic.IsEmpty.Defs

/-!
# Printed string literals

A string literal is printed in quotes, with an escape for each character that would not stand for
itself there. Read as source text, what is printed is one token, which stands for the string.
-/

namespace BasicSSA

/-- A character stands for itself between quotes, or is written as an escape that is read as it. -/
theorem escapeChar_cases (c : Char) :
    (∃ d, escapeChar c = ['\\', d] ∧ Lexer.decodeEscape d = c) ∨
      escapeChar c = [c] ∧ c ≠ '"' ∧ c ≠ '\\' := by
  unfold escapeChar
  split
  · exact .inl ⟨'n', rfl, rfl⟩
  · exact .inl ⟨'r', rfl, rfl⟩
  · exact .inl ⟨'t', rfl, rfl⟩
  · exact .inl ⟨'"', rfl, rfl⟩
  · exact .inl ⟨'\\', rfl, rfl⟩
  · rename_i hquote hslash
    exact .inr ⟨rfl, hquote, hslash⟩

namespace Lexer

theorem spanString_escaped : spanString ('\\' :: d :: cs) =
    (spanString cs).map fun (lexeme, value, after) =>
      ('\\' :: d :: lexeme, decodeEscape d :: value, after) := by
  rw [spanString]

theorem spanString_plain (hquote : c ≠ '"') (hslash : c ≠ '\\') : spanString (c :: cs) =
    (spanString cs).map fun (lexeme, value, after) => (c :: lexeme, c :: value, after) := by
  rw [spanString.eq_def]
  split
  · contradiction
  · rename_i heq
    exact absurd (List.cons.inj heq).1 hslash
  · rename_i heq
    cases heq
    rw [if_neg (by simpa using hquote)]

/-- What is written between quotes is read back up to the closing quote. -/
theorem spanString_escape (text rest : List Char) :
    spanString (text.flatMap escapeChar ++ '"' :: rest) =
      some (text.flatMap escapeChar ++ ['"'], text, rest) := by
  induction text with
  | nil => rfl
  | cons c text ih =>
    rw [List.flatMap_cons]
    rcases escapeChar_cases c with ⟨d, hd, hc⟩ | ⟨hself, hquote, hslash⟩
    · rw [hd]
      simp only [List.cons_append, List.nil_append]
      rw [spanString_escaped, ih, Option.map_some, hc]
    · rw [hself]
      simp only [List.cons_append, List.nil_append]
      rw [spanString_plain hquote hslash, ih, Option.map_some]

theorem scan_string (h : spanString cs = some (lexeme, value, rest)) :
    scan ('"' :: cs) = .ok
      { kind := .string, lexeme := '"' :: lexeme, value := some (.text (String.ofList value)),
        rest := rest } := by
  simp [scan, scanFrom, h, isWordStart]

end Lexer

open Lexer in
/-- A printed string literal is one token: a string, spelled as it was printed, that stands for the
string of the literal. -/
theorem tokenize_string {α : Type} (info : α) (s : String) (file : Nat) :
    let text := (Expr.literal info (.string s)).text
    tokenize text file = .ok
      [{ kind := .string, lexeme := text, value := some (.text s), loc := .start file },
        { kind := .endOfFile, lexeme := "", loc := .after file text.toList }] := by
  have hscan := scan_string (spanString_escape s.toList [])
  have hblanks (cs : List Char) : spanBlanks ('"' :: cs) = ([], '"' :: cs) := rfl
  have hstart : Loc.start file = .after file [] := rfl
  simp only [Expr.text, Literal.text, quoteText, tokenize, String.toList_ofList,
    List.cons_append, List.length_cons]
  rw [tokens_cons (hblanks _) hscan (by simp), tokens_nil rfl rfl, hstart]
  simp [Scanned.token, Token.endAt, spanBlanks, Functor.map, Except.map]

end BasicSSA
