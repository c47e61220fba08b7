import BasicSSA.Parser.Expr
import BasicSSA.Proofs.Token.Lossless
import Mathlib.Algebra.Ring.Nat

/-!
# Texts inside of interpolated strings

Each expression of an interpolated string is shorter than the string, and so are all the tokens of
the expression together. The `nesting` of a stream bounds how deep expressions nest in it.
-/

namespace BasicSSA

namespace Interpolation

/-- All expressions among some parts are shorter than `n`. -/
def Shorter (n : Nat) (parts : List Piece) : Prop :=
  ∀ source, .expr source ∈ parts → source.length < n

namespace Shorter

theorem addText (h : Shorter n done) : Shorter n (addText open_ done) := by
  intro source hs
  unfold Interpolation.addText at hs
  split at hs
  · exact h source hs
  · split at hs
    · simp only [List.mem_cons, reduceCtorEq, false_or] at hs
      exact h source (List.mem_cons_of_mem _ hs)
    · simp only [List.mem_cons, reduceCtorEq, false_or] at hs
      exact h source hs

theorem addExpr (h : Shorter n done) (hopen : open_.length < n) :
    Shorter n (addExpr open_ done) := by
  intro source hs
  unfold Interpolation.addExpr at hs
  split at hs
  · exact h source hs
  · rcases List.mem_cons.mp hs with hs | hs
    · cases hs
      simpa using hopen
    · exact h source hs

theorem reverse (h : Shorter n done) : Shorter n done.reverse :=
  fun source hs => h source (List.mem_reverse.mp hs)

/-- What is read of a body of length `n` and what is left of it. An open expression has lost at
least its brace. -/
def Fits (n : Nat) : Mode → List Char → Prop
  | .text _, rest => rest.length ≤ n
  | .expr _ _ open_, rest => open_.length + rest.length < n

theorem pieces (h : Shorter n done) (hfits : Fits n mode cs) : Shorter n (pieces mode done cs) := by
  fun_induction Interpolation.pieces mode done cs with
  | case1 => exact h.addText.reverse
  | case2 => exact (h.addExpr (by simpa [Fits] using hfits)).reverse
  | case4 =>
    rename_i ih
    exact ih h.addText (by simp only [Fits, List.length_cons, List.length_nil] at hfits ⊢; omega)
  | case10 =>
    rename_i ih
    refine ih (h.addExpr ?_) ?_ <;> simp only [Fits, List.length_cons] at hfits ⊢ <;> omega
  | _ =>
    rename_i ih
    exact ih h (by simp only [Fits, List.length_cons] at hfits ⊢; omega)

end Shorter

/-- An expression of an interpolated string is shorter than the body of the string. -/
theorem shorter_split (body : String) : Shorter body.length (split body) :=
  Shorter.pieces (fun _ h => by simp at h) (Nat.le_of_eq String.length_toList)

end Interpolation

namespace Parser

/-- How deep expressions nest in a token, at most: an interpolated string holds other texts. -/
def nesting (t : Token) : Nat :=
  match t.kind, t.value with
  | .interpolated, some (.text body) => 1 + body.length
  | _, _ => 1

/-- How deep expressions nest in a stream, at most. -/
def nestings (ts : List Token) : Nat :=
  (ts.map nesting).sum

theorem nesting_pos (t : Token) : 0 < nesting t := by
  unfold nesting
  split
  · omega
  · exact Nat.one_pos

theorem nesting_le_weight (t : Token) : nesting t ≤ weight t := by
  unfold nesting weight
  split
  · rename_i hvalue
    simp [hvalue]
  · split <;> omega

@[simp] theorem nestings_nil : nestings [] = 0 := rfl

@[simp] theorem nestings_cons : nestings (t :: ts) = nesting t + nestings ts := rfl

@[simp] theorem nestings_append : nestings (ts ++ us) = nestings ts + nestings us := by
  simp [nestings]

theorem eq_nil_of_nestings (h : nestings ts ≤ 0) : ts = [] := by
  cases ts with
  | nil => rfl
  | cons t ts => exact absurd h (by have := nesting_pos t; rw [nestings_cons]; omega)

theorem nestings_le_of_suffix (h : us <:+ ts) : nestings us ≤ nestings ts := by
  obtain ⟨vs, rfl⟩ := h
  simp

theorem nestings_lt_depthBound (ts : List Token) : nestings ts < depthBound ts := by
  unfold depthBound
  induction ts with
  | nil => simp
  | cons t ts ih =>
    have := nesting_le_weight t
    simp only [nestings_cons, List.map_cons, List.foldr_cons]
    omega

theorem nestings_filter_le (p : Token → Bool) (ts : List Token) :
    nestings (ts.filter p) ≤ nestings ts := by
  induction ts with
  | nil => simp
  | cons t ts ih =>
    rw [List.filter_cons]
    split <;> simp only [nestings_cons] <;> omega

theorem nestings_stream_le (ts : List Token) : nestings (stream ts) ≤ nestings ts + 1 := by
  have hfilter := nestings_filter_le (fun t => !t.kind.isTrivia) ts
  unfold stream
  dsimp only
  split
  · simp [nesting, endToken, Token.endAt]
  · split
    · omega
    · have hend (loc : Loc) : nesting (.endAt loc) = 1 := rfl
      simp only [nestings_append, nestings_cons, nestings_nil, hend]
      omega

theorem nesting_le_of_heads (h : Lexer.Heads s cs) : nesting (s.token loc) ≤ s.lexeme.length := by
  unfold nesting
  split
  · rename_i body hkind hvalue
    have hlength := congrArg List.length (h.body hkind body hvalue)
    simp only [List.length_append, List.length_cons, String.length_toList] at hlength
    omega
  · exact List.length_pos_iff.mpr h.nonempty

/-- All tokens of a text together nest no deeper than it has characters. -/
theorem nestings_tokens (h : Lexer.tokens fuel loc cs = .ok ts) (hfuel : cs.length ≤ fuel) :
    nestings ts ≤ cs.length + 1 := by
  refine Lexer.tokens_induct (P := fun _ cs ts => nestings ts ≤ cs.length + 1) (fun loc gap => ?_)
    (fun loc gap s text ts _ _ hs hrest => ?_) h hfuel
  · exact Nat.succ_le_succ (Nat.zero_le _)
  · have hfirst : nesting (s.token (loc.skip gap)) ≤ s.lexeme.length := nesting_le_of_heads hs
    rw [nestings_cons, ← hs.append, List.length_append, List.length_append]
    omega

end Parser

end BasicSSA
