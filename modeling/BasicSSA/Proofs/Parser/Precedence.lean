import BasicSSA.Parser.Expr
import BasicSSA.Proofs.Parser.Agreement

/-!
# Precedence of binary operators

Operands joined by binary operators are read as the tree that the precedences of the operators give:
its root is the last one of the loosest operators, and the operators on either side make up the
operands of the root in the same way.

## Main definitions

* `Link`: a binary operator and the operand after it;
* `loosest?`: the last one of the loosest operators, with what stands before and after it;
* `grouped`: the tree of an operand and the links after it.

## Main results

* `grouped_cons`: an operator takes its left operand and the tighter ones that follow;
* `climbAux_eq`: what precedence climbing reads.
-/

namespace BasicSSA.Parser

/-- A binary operator and the operand after it, with the tokens of the operand. -/
structure Link where
  token : Token
  op : BinaryOp
  precedence : Nat
  isOp : binaryOp? token.kind = some (op, precedence)
  operand : List Token
  tree : Expr Loc

/-- The tokens of links. -/
def Link.tokens (links : List Link) : List Token :=
  links.flatMap fun l => l.token :: l.operand

@[simp] theorem Link.tokens_cons (l : Link) (links : List Link) :
    tokens (l :: links) = l.token :: (l.operand ++ tokens links) :=
  rfl

theorem Link.length_le (links : List Link) : links.length ≤ (tokens links).length := by
  induction links with
  | nil => exact Nat.le_refl _
  | cons l links ih =>
    simp only [tokens_cons, List.length_cons, List.length_append]
    omega

theorem Link.one_le (l : Link) : 1 ≤ l.precedence := by
  obtain ⟨token, op, precedence, h, _, _⟩ := l
  unfold binaryOp? at h
  split at h <;> cases h <;> simp

/-- All operators bind at least as tight as the loosest one. -/
theorem Link.takeWhile_all (links : List Link) :
    links.takeWhile (1 ≤ ·.precedence) = links ∧ links.dropWhile (1 ≤ ·.precedence) = [] := by
  induction links with
  | nil => exact ⟨rfl, rfl⟩
  | cons l links ih => simpa [l.one_le] using ih

/-! ### The tree -/

/-- The last one of the loosest operators, with the links before and after it. -/
def loosest? : List Link → Option (List Link × Link × List Link)
  | [] => none
  | l :: links =>
    match loosest? links with
    | none => some ([], l, [])
    | some (before, m, after) =>
      if l.precedence < m.precedence then some ([], l, links) else some (l :: before, m, after)

theorem loosest?_eq_none : loosest? links = none ↔ links = [] := by
  cases links with
  | nil => simp [loosest?]
  | cons l links =>
    unfold loosest?
    split
    · simp
    · split <;> simp

/-- What stands before binds at least as tight, and what stands after binds tighter. -/
theorem loosest?_some
    (h : loosest? links = some (before, l, after)) :
    links = before ++ l :: after ∧ (∀ m ∈ before, l.precedence ≤ m.precedence) ∧
      ∀ m ∈ after, l.precedence < m.precedence := by
  induction links generalizing before l after with
  | nil => cases h
  | cons k links ih =>
    unfold loosest? at h
    split at h
    · rename_i hnone
      cases h
      rw [loosest?_eq_none.mp hnone]
      simp
    · rename_i before' m after' hsome
      obtain ⟨rfl, hbefore, hafter⟩ := ih hsome
      split at h
      · rename_i hlt
        cases h
        refine ⟨rfl, by simp, fun x hx => ?_⟩
        rcases List.mem_append.mp hx with hx | hx
        · exact Nat.lt_of_lt_of_le hlt (hbefore x hx)
        rcases List.mem_cons.mp hx with rfl | hx
        · exact hlt
        · exact Nat.lt_trans hlt (hafter x hx)
      · rename_i hle
        cases h
        refine ⟨rfl, fun x hx => ?_, hafter⟩
        rcases List.mem_cons.mp hx with rfl | hx
        · exact Nat.not_lt.mp hle
        · exact hbefore x hx

theorem loosest?_append
    (hbefore : ∀ m ∈ before, l.precedence ≤ m.precedence)
    (hafter : ∀ m ∈ after, l.precedence < m.precedence) :
    loosest? (before ++ l :: after) = some (before, l, after) := by
  induction before with
  | nil =>
    rw [List.nil_append]
    unfold loosest?
    split
    · rename_i hnone
      rw [loosest?_eq_none.mp hnone]
    · rename_i before' m after' hsome
      have hm : m ∈ after := by simp [(loosest?_some hsome).1]
      rw [if_pos (hafter m hm)]
  | cons k before ih =>
    rw [List.cons_append]
    unfold loosest?
    rw [ih fun m hm => hbefore m (List.mem_cons_of_mem _ hm)]
    dsimp only
    rw [if_neg (Nat.not_lt.mpr (hbefore k (List.mem_cons_self ..)))]

/-- The tree of an operand and the links after it. -/
def grouped (e : Expr Loc) (links : List Link) : Expr Loc :=
  match _h : loosest? links with
  | none => e
  | some (before, l, after) => .binary l.token.loc l.op (grouped e before) (grouped l.tree after)
termination_by links.length
decreasing_by
  all_goals
    rw [(loosest?_some _h).1, List.length_append, List.length_cons]
    omega

@[simp] theorem grouped_nil (e : Expr Loc) : grouped e [] = e := by
  rw [grouped]
  rfl

/-- A tree whose root is known. -/
theorem grouped_append {l : Link} (e : Expr Loc)
    (hbefore : ∀ m ∈ before, l.precedence ≤ m.precedence)
    (hafter : ∀ m ∈ after, l.precedence < m.precedence) :
    grouped e (before ++ l :: after) =
      .binary l.token.loc l.op (grouped e before) (grouped l.tree after) := by
  have h := loosest?_append hbefore hafter
  rw [grouped]
  split
  · rename_i hnone
    cases h.symm.trans hnone
  · rename_i hsome
    cases h.symm.trans hsome
    rfl

/-- An operator takes its left operand and the tighter operators that follow, and the result is an
operand of what comes next, which binds no tighter. -/
theorem grouped_cons {tighter links : List Link} (e : Expr Loc)
    (htighter : ∀ m ∈ tighter, l.precedence < m.precedence)
    (hlinks : ∀ m, links.head? = some m → m.precedence ≤ l.precedence) :
    grouped e (l :: (tighter ++ links)) =
      grouped (.binary l.token.loc l.op e (grouped l.tree tighter)) links := by
  -- Both sides have the same root, and the links before it are fewer.
  induction hn : links.length using Nat.strongRecOn generalizing links with
  | _ n ih =>
  cases h : loosest? links with
  | none =>
    have hroot := @grouped_append [] tighter l e (by simp) htighter
    rw [List.nil_append, grouped_nil] at hroot
    rw [loosest?_eq_none.mp h, List.append_nil, grouped_nil, hroot]
  | some r =>
    obtain ⟨before, root, after⟩ := r
    obtain ⟨rfl, hbefore, hafter⟩ := loosest?_some h
    have hroot : root.precedence ≤ l.precedence := by
      cases before with
      | nil => exact hlinks root rfl
      | cons k before =>
        exact Nat.le_trans (hbefore k (List.mem_cons_self ..)) (hlinks k rfl)
    have hleft : ∀ m ∈ l :: (tighter ++ before), root.precedence ≤ m.precedence := by
      intro m hm
      rcases List.mem_cons.mp hm with rfl | hm
      · exact hroot
      rcases List.mem_append.mp hm with hm | hm
      · exact Nat.le_of_lt (Nat.lt_of_le_of_lt hroot (htighter m hm))
      · exact hbefore m hm
    have hhead : ∀ m, before.head? = some m → m.precedence ≤ l.precedence := by
      intro m hm
      exact hlinks m (by simp [List.head?_append, hm])
    have hlt : before.length < n := by
      rw [← hn, List.length_append, List.length_cons]
      omega
    rw [← List.append_assoc, ← List.cons_append, grouped_append e hleft hafter,
      grouped_append _ hbefore hafter, ih _ hlt hhead rfl]

/-! ### Climbing -/

/-- Each operand is read in its place, up to the token after it. -/
def ReadInPlace (operand : Parser (Expr Loc)) (links : List Link) (rest : List Token) : Prop :=
  ∀ l after, l :: after <:+ links →
    operand (l.operand ++ (Link.tokens after ++ rest)) = .ok (l.tree, Link.tokens after ++ rest)

variable {operand : Parser (Expr Loc)}

theorem ReadInPlace.of_suffix (h : ReadInPlace operand links rest) (hs : links' <:+ links) :
    ReadInPlace operand links' rest :=
  fun l after hl => h l after (hl.trans hs)

theorem takeWhile_eq_nil {links : List Link} (h : ∀ l, links.head? = some l → l.precedence < least) :
    links.takeWhile (least ≤ ·.precedence) = [] ∧ links.dropWhile (least ≤ ·.precedence) = links := by
  cases links with
  | nil => exact ⟨rfl, rfl⟩
  | cons l links => simp [Nat.not_le.mpr (h l rfl)]

/-- The links up to a precedence are the tighter ones, and those of the others. -/
theorem takeWhile_tighter {links : List Link} (h : least ≤ p) :
    links.takeWhile (least ≤ ·.precedence) = links.takeWhile (p + 1 ≤ ·.precedence) ++
        (links.dropWhile (p + 1 ≤ ·.precedence)).takeWhile (least ≤ ·.precedence) ∧
      links.dropWhile (least ≤ ·.precedence) =
        (links.dropWhile (p + 1 ≤ ·.precedence)).dropWhile (least ≤ ·.precedence) := by
  induction links with
  | nil => exact ⟨rfl, rfl⟩
  | cons l links ih =>
    by_cases hl : p + 1 ≤ l.precedence
    · have hle : least ≤ l.precedence := by omega
      simp only [List.takeWhile_cons, List.dropWhile_cons, hl, hle, decide_true, if_true,
        List.cons_append, List.cons.injEq, true_and]
      exact ih
    · simp only [List.takeWhile_cons, List.dropWhile_cons, hl, decide_false, if_neg Bool.false_ne_true,
        List.nil_append, and_self]

theorem consume_eq_of_ne_nil (h : us ≠ []) : consume (t :: us) = .ok (t, us) := by
  cases us with
  | nil => exact absurd rfl h
  | cons u us => rfl

/-- One round of climbing: an operator gets the operand so far and its right operand, which takes
the tighter operators that follow. -/
theorem climbAux_round (hnext : binaryOp? next.kind = none) {links : List Link}
    (hl : operand (l.operand ++ (Link.tokens links ++ next :: rest)) =
      .ok (l.tree, Link.tokens links ++ next :: rest))
    (hright : climbAux operand fuel l.tree (l.precedence + 1) (Link.tokens links ++ next :: rest) =
      .ok (grouped l.tree (links.takeWhile (l.precedence + 1 ≤ ·.precedence)),
        Link.tokens (links.dropWhile (l.precedence + 1 ≤ ·.precedence)) ++ next :: rest))
    (hleast : least ≤ l.precedence) :
    climbAux operand (fuel + 1) e least (Link.tokens (l :: links) ++ next :: rest) =
      climbAux operand fuel (.binary l.token.loc l.op e
          (grouped l.tree (links.takeWhile (l.precedence + 1 ≤ ·.precedence)))) least
        (Link.tokens (links.dropWhile (l.precedence + 1 ≤ ·.precedence)) ++ next :: rest) := by
  rw [Link.tokens_cons, List.cons_append, List.append_assoc, climbAux, bind_of_ok (peek_eq ..), l.isOp]
  dsimp only
  rw [if_neg (Nat.not_lt.mpr hleast), bind_of_ok (consume_eq_of_ne_nil (by simp)), bind_of_ok hl]
  cases links with
  | nil =>
    show (peek >>= _) (next :: rest) = _
    rw [bind_of_ok (peek_eq ..), hnext]
    dsimp only
    rw [bind_of_ok rfl, List.takeWhile_nil, grouped_nil]
    rfl
  | cons m links =>
    show (peek >>= _) (m.token :: _) = _
    rw [bind_of_ok (peek_eq ..), m.isOp]
    dsimp only
    split
    · exact bind_of_ok hright
    · rename_i hnot
      obtain ⟨htake, hdrop⟩ := @takeWhile_eq_nil (l.precedence + 1) (m :: links) (by simp; omega)
      rw [bind_of_ok rfl, htake, hdrop, grouped_nil]
      rfl

/-- Climbing reads the links up to the first one that binds looser than asked for. -/
theorem climbAux_eq (hnext : binaryOp? next.kind = none)
    (hlinks : ReadInPlace operand links (next :: rest)) {fuel : Nat} (hfuel : links.length < fuel)
    (e : Expr Loc) (least : Nat) :
    climbAux operand fuel e least (Link.tokens links ++ next :: rest) =
      .ok (grouped e (links.takeWhile (least ≤ ·.precedence)),
        Link.tokens (links.dropWhile (least ≤ ·.precedence)) ++ next :: rest) := by
  induction fuel generalizing links e least with
  | zero => exact absurd hfuel (Nat.not_lt_zero _)
  | succ fuel ih =>
    cases links with
    | nil =>
      show climbAux operand (fuel + 1) e least (next :: rest) = _
      rw [climbAux, bind_of_ok (peek_eq next rest), hnext, List.takeWhile_nil, grouped_nil]
      rfl
    | cons l links =>
      by_cases hleast : l.precedence < least
      · obtain ⟨htake, hdrop⟩ := @takeWhile_eq_nil least (l :: links) (by simpa using hleast)
        rw [htake, hdrop, grouped_nil, Link.tokens_cons, List.cons_append, climbAux,
          bind_of_ok (peek_eq ..), l.isOp]
        dsimp only
        rw [if_pos hleast]
        rfl
      have hle := Nat.not_lt.mp hleast
      have hrest := hlinks.of_suffix (List.suffix_cons l links)
      have hlen : links.length < fuel := Nat.lt_of_succ_lt_succ hfuel
      obtain ⟨htake, hdrop⟩ := @takeWhile_tighter least l.precedence links hle
      rw [climbAux_round hnext (hlinks l links List.suffix_rfl) (ih hrest hlen _ _) hle,
        ih (hrest.of_suffix (List.dropWhile_suffix _))
          (Nat.lt_of_le_of_lt (List.dropWhile_suffix _).length_le hlen)]
      rw [List.takeWhile_cons_of_pos (by simpa using hle), List.dropWhile_cons_of_pos (by simpa using hle),
        htake, hdrop, grouped_cons]
      · intro m hm
        have htight := List.all_eq_true.mp List.all_takeWhile m hm
        exact of_decide_eq_true htight
      · intro m hm
        have hnot := List.head?_dropWhile_not (fun k : Link => decide (l.precedence + 1 ≤ k.precedence)) links
        rw [List.head?_takeWhile, Option.filter_eq_some_iff] at hm
        rw [hm.1] at hnot
        exact Nat.le_of_not_lt (of_decide_eq_false hnot)

/-- Operands that are joined by binary operators are read as the tree that the precedences give, up
to a token that is no binary operator. -/
theorem expression_eq_grouped (inWith : Bool) (us : List Token) (e : Expr Loc) (links : List Link)
    (next : Token) (rest : List Token) (hnext : binaryOp? next.kind = none)
    (hfirst : Parser.operand inWith (us ++ (Link.tokens links ++ next :: rest)) =
      .ok (e, Link.tokens links ++ next :: rest))
    (hlinks : ReadInPlace (Parser.operand inWith) links (next :: rest)) :
    expression inWith (us ++ (Link.tokens links ++ next :: rest)) =
      .ok (grouped e links, next :: rest) := by
  have hfuel : links.length < (Link.tokens links ++ next :: rest).length + 1 := by
    have hlength := Link.length_le links
    rw [List.length_append]
    omega
  obtain ⟨htake, hdrop⟩ := Link.takeWhile_all links
  unfold expression expressionOf
  rw [bind_of_ok hfirst, climb, bind_of_ok (get_eq _), climbAux_eq hnext hlinks hfuel, htake, hdrop]
  rfl

/-- In `1 - 2 * 3 - 4`, the product is an operand of the first difference, and that one is an operand
of the second. -/
theorem expression_difference :
    let loc (column : Nat) : Loc := { line := 1, column }
    let number (n : Nat) : Token :=
      { kind := .integer, lexeme := "", value := some (.integer n), loc := loc (2 * n) }
    let minus (n : Nat) : Token := { kind := .mark .minus, lexeme := "-", loc := loc n }
    let star : Token := { kind := .mark .star, lexeme := "*", loc := loc 5 }
    let next : Token := { kind := .newline, lexeme := "", loc := loc 9 }
    expression false [number 1, minus 3, number 2, star, number 3, minus 7, number 4, next] =
      .ok (.binary (loc 7) .sub
        (.binary (loc 3) .sub (.literal (loc 2) (.integer 1))
          (.binary (loc 5) .mul (.literal (loc 4) (.integer 2)) (.literal (loc 6) (.integer 3))))
        (.literal (loc 8) (.integer 4)), [next]) := by
  intro loc number minus star next
  let first : Link := ⟨minus 3, .sub, 5, rfl, [number 2], .literal (loc 4) (.integer 2)⟩
  let second : Link := ⟨star, .mul, 6, rfl, [number 3], .literal (loc 6) (.integer 3)⟩
  let third : Link := ⟨minus 7, .sub, 5, rfl, [number 4], .literal (loc 8) (.integer 4)⟩
  have hplace : ReadInPlace (Parser.operand false) [first, second, third] [next] := by
    intro l after hl
    simp only [List.suffix_cons_iff, List.cons.injEq, List.suffix_nil, reduceCtorEq, or_false] at hl
    rcases hl with ⟨rfl, rfl⟩ | ⟨rfl, rfl⟩ | ⟨rfl, rfl⟩ <;> rfl
  have h := expression_eq_grouped false [number 1] (.literal (loc 2) (.integer 1))
    [first, second, third] next [] rfl rfl hplace
  have htree := @grouped_append [first, second] [] third (.literal (loc 2) (.integer 1))
    (by simp [first, second, third]) (by simp)
  have hleft := @grouped_append [] [second] first (.literal (loc 2) (.integer 1))
    (by simp) (by simp [first, second])
  have hright := @grouped_append [] [] second first.tree (by simp) (by simp)
  simp only [List.nil_append, List.cons_append, grouped_nil] at htree hleft hright
  rw [htree, hleft, hright] at h
  exact h

end BasicSSA.Parser
