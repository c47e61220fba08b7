import BasicSSA.Proofs.Token.Nesting

/-!
# Braces of interpolated strings

The body of an interpolated string is read twice: to find its end, and to split it into parts. Both
readings count braces and pass over quoted texts, but a backslash outside of quotes escapes the next
character only in the first. So they find the same expressions exactly if in each of them, read the
second way, the braces match (`split_eq_spans_iff`).
-/

namespace BasicSSA.Interpolation

open Lexer (Inside spanInterpolated)

/-- The expressions among some parts. -/
def expressions (parts : List Piece) : List String :=
  parts.filterMap fun
    | .expr source => some source
    | .text _ => none

/-- One more text in front of others, unless it is empty. Its characters come last first. -/
def keep (open_ : List Char) (more : List String) : List String :=
  if open_ = [] then more else String.ofList open_.reverse :: more

/-- The texts strictly between the braces at which the depth, as `step` counts it, leaves 0 and comes
back to 0. The characters of the open text come last first. -/
def spans (step : Inside → Char → Inside) (s : Inside) (open_ : List Char) : List Char → List String
  | [] => if s.depth = 0 then [] else keep open_ []
  | c :: rest =>
    if s.depth = 0 then spans step (step s c) [] rest
    else if (step s c).depth = 0 then keep open_ (spans step (step s c) [] rest)
    else spans step (step s c) (c :: open_) rest

/-- The place after one more character when a body is split: between braces a backslash escapes only
inside of quotes, and outside of braces there are no quotes. -/
def splitNext (s : Inside) (c : Char) : Inside :=
  if 0 < s.depth && !s.quoted && c = '\\' then s
  else if s.depth = 0 && c = '"' then { s with escaped := false }
  else s.next true c

/-- Whether in the rest of an expression that is split the braces match: none closes the expression,
and at its end only the one before it is open. -/
def balanced (s : Inside) : List Char → Bool
  | [] => s = { depth := 1 }
  | c :: rest => 0 < (splitNext s c).depth && balanced (splitNext s c) rest

/-! ### Splitting a body -/

theorem expressions_addText : expressions (addText open_ done).reverse = expressions done.reverse := by
  unfold addText
  split
  · rfl
  · split <;> simp [expressions]

theorem expressions_addExpr (more : List String) :
    expressions (addExpr open_ done).reverse ++ more =
      expressions done.reverse ++ keep open_ more := by
  unfold addExpr keep
  split <;> simp_all [expressions]

/-- Where the next character stands, and the characters of the open expression. -/
def Mode.place : Mode → Inside × List Char
  | .text _ => ({}, [])
  | .expr depth quoted open_ => ({ depth := depth + 1, quoted }, open_)

theorem expressions_pieces (mode : Mode) (done : List Piece) (cs : List Char) :
    expressions (pieces mode done cs) =
      expressions done.reverse ++ spans splitNext mode.place.1 mode.place.2 cs := by
  fun_induction pieces mode done cs with
  | case1 => simp [expressions_addText, spans, Mode.place]
  | case2 => simpa [spans, Mode.place] using expressions_addExpr []
  | case4 =>
    rename_i ih
    rw [ih, expressions_addText]
    simp_all [spans, Mode.place, splitNext, Inside.next]
  | case10 =>
    rename_i ih
    rw [ih, expressions_addExpr]
    simp_all [spans, Mode.place, splitNext, Inside.next]
  | case5 | case8 =>
    -- a backslash that escapes nothing is the last character
    rename_i c rest _ _ _
    by_cases hc : c = '\\'
    · cases rest <;> simp_all [spans, Mode.place, splitNext, Inside.next]
    · simp_all [spans, Mode.place, splitNext, Inside.next]
  | _ =>
    rename_i ih
    rw [ih]
    simp_all [spans, Mode.place, splitNext, Inside.next]

theorem expressions_split (body : String) :
    expressions (split body) = spans splitNext {} [] body.toList :=
  expressions_pieces (.text []) [] body.toList

/-! ### The body that is lexed -/

/-- A text that stands inside of an interpolated string up to its end. -/
def Lexed : Inside → List Char → Prop
  | s, [] => s = {}
  | s, c :: rest => (s.depth = 0 → s.escaped = false → c ≠ '"') ∧ Lexed (s.next true c) rest

theorem lexed_of_spanInterpolated (h : spanInterpolated depth quoted cs = some (body, rest))
    (hq : quoted = true → depth ≠ 0) : Lexed { depth, quoted } body := by
  fun_induction spanInterpolated depth quoted cs generalizing body rest with
  | case1 => cases h
  | case2 depth quoted c cs ih =>
    obtain ⟨⟨body, rest⟩, hbody, heq⟩ := Option.map_eq_some_iff.mp h
    cases heq
    exact ⟨by simp, by simp [Inside.next], ih hbody hq⟩
  | case3 depth quoted c cs _ hc =>
    cases h
    simp_all [Lexed]
  | case4 depth quoted c cs hslash hc quoted' =>
    rename_i depth' ih
    obtain ⟨⟨body, rest⟩, hbody, heq⟩ := Option.map_eq_some_iff.mp h
    cases heq
    have hb : c ≠ '\\' := by
      rintro rfl
      rcases cs with _ | ⟨c, cs⟩
      · simp [spanInterpolated] at hbody
      · exact hslash _ _ rfl rfl
    have hc : c = '"' → depth ≠ 0 := by simpa using hc
    refine ⟨fun h _ hquote => hc hquote h, ?_⟩
    rw [Lexer.inside_next_of_ne hb]
    refine ih hbody fun hq' => ?_
    by_cases hquote : c = '"'
    · simp [depth', hquote, hc hquote]
    · have hquoted : quoted = true := by simpa [quoted', hquote] using hq'
      simpa [depth', hquoted] using hq hquoted

/-! ### The two readings -/

theorem closes_of_next {s : Inside} (hs : 0 < s.depth) (h : (s.next true c).depth = 0) :
    s = { depth := 1 } ∧ c = '}' := by
  obtain ⟨escaped, depth, quoted⟩ := s
  unfold Inside.next at h
  repeat' split at h
  all_goals simp_all
  omega

theorem closes_of_splitNext (hs : 0 < s.depth) (h : (splitNext s c).depth = 0) :
    s = { depth := 1 } ∧ c = '}' := by
  unfold splitNext at h
  repeat' split at h
  · omega
  · simp_all
  · exact closes_of_next hs h

/-- Outside of braces both readings go the same way. -/
theorem splitNext_eq_next {s : Inside} (hs : s.depth = 0) (hc : s.escaped = false → c ≠ '"') :
    splitNext s c = s.next true c := by
  unfold splitNext Inside.next
  cases he : s.escaped <;> simp_all

theorem next_of_text {s : Inside} (hs : s.depth = 0) (hq : s.quoted = false)
    (hc : s.escaped = false → c ≠ '"') :
    (s.next true c).depth = 0 ∧ (s.next true c).quoted = false ∨ s.next true c = { depth := 1 } := by
  obtain ⟨escaped, depth, quoted⟩ := s
  unfold Inside.next
  repeat' split
  all_goals simp_all

/-- The open text is the start of the first text. -/
theorem spans_open (step : Inside → Char → Inside) (hs : 0 < s.depth) (c : Char)
    (open_ cs : List Char) : ∃ e more, spans step s (c :: open_) cs = String.ofList e :: more ∧
      (c :: open_).reverse <+: e := by
  induction cs generalizing s c open_ with
  | nil => exact ⟨_, [], by simp [spans, keep, Nat.ne_of_gt hs], List.prefix_rfl⟩
  | cons d cs ih =>
    rw [spans, if_neg (Nat.ne_of_gt hs)]
    split
    · exact ⟨_, _, rfl, List.prefix_rfl⟩
    · rename_i hd
      obtain ⟨e, more, he, hp⟩ := ih (Nat.pos_of_ne_zero hd) d (c :: open_)
      refine ⟨e, more, he, List.IsPrefix.trans ?_ hp⟩
      simp

/-- A text of which more is known is not the text so far. -/
theorem ne_of_longer (h : (c :: open_).reverse <+: e) :
    String.ofList e ≠ String.ofList open_.reverse := by
  intro he
  have := h.length_le
  rw [String.ofList_inj.mp he, List.length_reverse, List.length_reverse] at this
  exact Nat.not_succ_le_self _ this

/-- The place after the characters of an open text, as it is split. -/
def afterOpen (open_ : List Char) : Inside :=
  open_.reverse.foldl splitNext { depth := 1 }

theorem afterOpen_cons : afterOpen (c :: open_) = splitNext (afterOpen open_) c := by
  simp [afterOpen]

/-- While both readings are inside of braces they have seen the same characters since. -/
structure Together (s : Inside) (open_ : List Char) : Prop where
  depth : 0 < s.depth
  opened : 0 < (afterOpen open_).depth
  balanced : ∀ rest,
    balanced { depth := 1 } (open_.reverse ++ rest) = balanced (afterOpen open_) rest
  start : open_ = [] → s = { depth := 1 }

theorem Together.cons (h : Together s open_) (hs : (s.next true c).depth ≠ 0)
    (hr : (splitNext (afterOpen open_) c).depth ≠ 0) :
    Together (s.next true c) (c :: open_) where
  depth := Nat.pos_of_ne_zero hs
  opened := afterOpen_cons ▸ Nat.pos_of_ne_zero hr
  balanced rest := by
    have := h.balanced (c :: rest)
    simp_all [afterOpen_cons, Interpolation.balanced, Nat.pos_of_ne_zero hr]
  start := by simp

theorem spans_eq_iff (cs : List Char) :
    (∀ s : Inside, Lexed s cs → s.depth = 0 → s.quoted = false →
      (spans splitNext s [] cs = spans (Inside.next true) s [] cs ↔
        ∀ e ∈ spans (Inside.next true) s [] cs, balanced { depth := 1 } e.toList = true)) ∧
    ∀ (s : Inside) (open_ : List Char), Lexed s cs → Together s open_ →
      (spans splitNext (afterOpen open_) open_ cs = spans (Inside.next true) s open_ cs ↔
        ∀ e ∈ spans (Inside.next true) s open_ cs, balanced { depth := 1 } e.toList = true) := by
  induction cs with
  | nil =>
    refine ⟨fun s _ hs _ => by simp [spans, hs], ?_⟩
    rintro s open_ rfl hs
    cases hs.depth
  | cons c cs ih =>
    refine ⟨fun s ⟨hquote, hlexed⟩ hs hq => ?_, fun s open_ ⟨_, hlexed⟩ h => ?_⟩
    · rw [spans, spans, if_pos hs, if_pos hs, splitNext_eq_next hs (hquote hs)]
      rcases next_of_text hs hq (hquote hs) with ⟨hd, hq⟩ | hnext
      · exact ih.1 _ hlexed hd hq
      · rw [hnext] at hlexed ⊢
        exact ih.2 _ [] hlexed ⟨Nat.one_pos, Nat.one_pos, fun _ => rfl, fun _ => rfl⟩
    · have hr := h.opened
      rw [spans, spans, if_neg (Nat.ne_of_gt hr), if_neg (Nat.ne_of_gt h.depth)]
      by_cases hclose : (s.next true c).depth = 0 <;>
        by_cases hclose' : (splitNext (afterOpen open_) c).depth = 0
      · obtain ⟨rfl, rfl⟩ := closes_of_next h.depth hclose
        obtain ⟨hafter, -⟩ := closes_of_splitNext hr hclose'
        have htail := ih.1 {} hlexed rfl rfl
        have hend : splitNext { depth := 1 } '}' = {} ∧ Inside.next true { depth := 1 } '}' = {} :=
          ⟨rfl, rfl⟩
        rw [if_pos hclose, if_pos hclose', hafter, hend.1, hend.2]
        have hb : balanced { depth := 1 } open_.reverse = true := by
          simpa [hafter, balanced] using h.balanced []
        by_cases ho : open_ = []
        · simpa [keep, ho] using htail
        · simpa [keep, ho, hb] using htail
      · -- splitting goes on after the end of the expression
        rw [if_pos hclose, if_neg hclose']
        obtain ⟨rfl, rfl⟩ := closes_of_next h.depth hclose
        have hafter : afterOpen open_ ≠ { depth := 1 } := fun he => hclose' (by rw [he]; rfl)
        have ho : open_ ≠ [] := fun he => hafter (by rw [he]; rfl)
        obtain ⟨e, more, he, hp⟩ := spans_open splitNext (Nat.pos_of_ne_zero hclose') '}' open_ cs
        rw [he, keep, if_neg ho]
        refine iff_of_false (fun heq => ne_of_longer hp (List.cons.inj heq).1) fun hall => hafter ?_
        have hb := hall _ List.mem_cons_self
        exact of_decide_eq_true ((h.balanced []).symm.trans (by simpa using hb))
      · -- splitting ends inside of the expression
        rw [if_neg hclose, if_pos hclose']
        obtain ⟨hafter, rfl⟩ := closes_of_splitNext hr hclose'
        have ho : open_ ≠ [] := fun he => hclose (by rw [h.start he]; rfl)
        obtain ⟨e, more, he, hp⟩ := spans_open _ (Nat.pos_of_ne_zero hclose) '}' open_ cs
        rw [he, keep, if_neg ho]
        refine iff_of_false (fun heq => ne_of_longer hp (List.cons.inj heq).1.symm) fun hall => ?_
        obtain ⟨rest, rfl⟩ := hp
        have hb := h.balanced ('}' :: rest)
        have hb' := hall _ List.mem_cons_self
        simp_all [balanced]
      · rw [if_neg hclose, if_neg hclose', ← afterOpen_cons]
        exact ih.2 _ _ hlexed (h.cons hclose hclose')

/-- Splitting the body of an interpolated string finds the expressions that its lexing passed over,
exactly if in each of them the braces match when it is split. -/
theorem split_eq_spans_iff (h : spanInterpolated 0 false cs = some (body, rest)) :
    expressions (split (String.ofList body)) = spans (Inside.next true) {} [] body ↔
      ∀ e ∈ spans (Inside.next true) {} [] body, balanced { depth := 1 } e.toList = true := by
  rw [expressions_split, String.toList_ofList]
  exact (spans_eq_iff body).1 {} (lexed_of_spanInterpolated h (by simp)) rfl rfl

theorem nestedBraces_agree :
    let expr := ['{', 'a', '\\', 'b', '}', '"', '}', '"']
    let body := '{' :: expr ++ ['}']
    spanInterpolated 0 false (body ++ ['"']) = some (body, []) ∧
      expressions (split (String.ofList body)) = [String.ofList expr] := by
  intro expr body
  have h : spanInterpolated 0 false (body ++ ['"']) = some (body, []) := by decide +kernel
  have hspans : spans (Inside.next true) {} [] body = [String.ofList expr] := by decide +kernel
  exact ⟨h, hspans ▸ (split_eq_spans_iff h).mpr (hspans ▸ by decide +kernel)⟩

/-- A brace after a backslash does not end an expression that is lexed, but one that is split. -/
theorem escapedBrace_differs :
    let expr := ['a', '\\', '}', 'b']
    let body := '{' :: expr ++ ['}']
    spanInterpolated 0 false (body ++ ['"']) = some (body, []) ∧
      spans (Inside.next true) {} [] body = [String.ofList expr] ∧
      expressions (split (String.ofList body)) = [String.ofList (expr.take 2)] := by
  decide +kernel

end BasicSSA.Interpolation
