import BasicSSA.Parser.TypeRef
import BasicSSA.Proofs.Parser.Streams

/-!
# Parsers on streams that differ in blank lines

Two runs of a parser on two streams end the same, and each takes some tokens but not the end of its
stream (`Agree`). Most parsers do the `Same` on any such streams. One that takes a token unseen does
so only if that token is neither a newline nor the end (`Opens`), which its caller has seen.
-/

namespace BasicSSA.Parser

variable {ws : Streams}

/-! ### Runs -/

theorem bind_of_ok {x : Parser α} (h : x ts = .ok (a, us)) :
    (x >>= f) ts = f a us := by
  simp only [Bind.bind, StateT.bind, h, Except.bind]

theorem bind_of_error {x : Parser α} (h : x ts = .error e) :
    (x >>= f) ts = .error e := by
  simp only [Bind.bind, StateT.bind, h, Except.bind]

theorem get_eq (ts : List Token) : (get : Parser (List Token)) ts = .ok (ts, ts) :=
  rfl

theorem peek_eq (t : Token) (us : List Token) : peek (t :: us) = .ok (t, t :: us) :=
  rfl

theorem peekSecond_eq (ts : List Token) : ∃ u, peekSecond ts = .ok (u, ts) := by
  rcases ts with _ | ⟨t, _ | ⟨u, rest⟩⟩ <;> exact ⟨_, rfl⟩

theorem peekSecond_cons (h : us ≠ []) :
    peekSecond (t :: us) = .ok (us.headD endToken, t :: us) := by
  obtain ⟨u, rest, rfl⟩ := List.exists_cons_of_ne_nil h
  rfl

theorem consume_eq (h : us ≠ []) : consume (t :: us) = .ok (t, us) := by
  obtain ⟨u, rest, rfl⟩ := List.exists_cons_of_ne_nil h
  rfl

/-- Two runs end the same if positions and blank lines do not count: with results that are the same
seen through `f` and at least `k` tokens taken, or with the same problem. They run out of fuel only
if the fuel is `short`. -/
inductive Agree (short : Prop) (k : Nat) (f : α → γ) (s : Streams) (x y : Parser α) : Prop
  | ok : x s.fst = .ok (a, r.fst) → y s.snd = .ok (b, r.snd) → f a = f b → s.Took k r →
    Agree short k f s x y
  | error : x s.fst = .error e → y s.snd = .error e' → e.problem = e'.problem →
    (e.problem = .outOfFuel → short) → Agree short k f s x y

namespace Agree

theorem weaken (h : Agree short k f s x y) (hl : l ≤ k) : Agree short l f s x y := by
  cases h with
  | ok hx hy hab hs => exact .ok hx hy hab (hs.weaken hl)
  | error hx hy he hshort => exact .error hx hy he hshort

theorem step (hx : x s.fst = .ok (a, s'.fst)) (hy : y s.snd = .ok (b, s'.snd)) (hs : s.Took k s')
    (h : Agree short l g s' (p a) (q b)) : Agree short (k + l) g s (x >>= p) (y >>= q) := by
  cases h with
  | ok hp hq hab hs' =>
    exact .ok ((bind_of_ok hx).trans hp) ((bind_of_ok hy).trans hq) hab (hs.trans hs')
  | error hp hq he hshort =>
    exact .error ((bind_of_ok hx).trans hp) ((bind_of_ok hy).trans hq) he hshort

theorem look (hx : x s.fst = .ok (a, s.fst)) (hy : y s.snd = .ok (b, s.snd))
    (h : Agree short k g s (p a) (q b)) : Agree short k g s (x >>= p) (y >>= q) :=
  (step hx hy .rfl h).weaken (Nat.le_add_left k 0)

theorem bind (hx : Agree short k f s x y)
    (h : ∀ a b s', f a = f b → s.Took k s' → Agree short l g s' (p a) (q b)) :
    Agree short (k + l) g s (x >>= p) (y >>= q) := by
  cases hx with
  | ok hx hy hab hs => exact step hx hy hs (h _ _ _ hab hs)
  | error hx hy he hshort => exact .error (bind_of_error hx) (bind_of_error hy) he hshort

theorem first (hx : Agree short k f s x y)
    (h : ∀ a b s', f a = f b → s.Took k s' → Agree short 0 g s' (p a) (q b)) :
    Agree short k g s (x >>= p) (y >>= q) :=
  hx.bind h

theorem pure (h : f a = f b) : Agree short 0 f s (Pure.pure a) (Pure.pure b) :=
  .ok rfl rfl h .rfl

theorem peeking {p q : Token → Parser β} (h : ∀ t u, s.Next t u → Agree short k g s (p t) (q u)) :
    Agree short k g s (peek >>= p) (peek >>= q) :=
  .look rfl rfl (h _ _ s.next)

theorem map (h : Agree short k f s x y) (hφ : ∀ a b, f a = f b → g (φ a) = g (φ b)) :
    Agree short k g s (φ <$> x) (φ <$> y) := by
  rw [map_eq_pure_bind, map_eq_pure_bind]
  exact h.bind fun a b _ hab _ => pure (hφ a b hab)

end Agree

/-- Two parsers do the same on all streams inside of two streams, and take at least `k` tokens. -/
def Same (short : Prop) (ws : Streams) (k : Nat) (f : α → γ) (x y : Parser α) : Prop :=
  ∀ s, ws.Took 0 s → Agree short k f s x y

/-- Two parsers do the same where the next token is neither a newline nor the end, and take it. -/
def Opens (short : Prop) (s : Streams) (f : α → γ) (x y : Parser α) : Prop :=
  ∀ (t u : Token) (h : t.Alike u) (ht : t.kind ≠ .newline), Agree short 1 f (s.cons h ht) x y

/-- The same for the next two tokens. -/
def OpensTwo (short : Prop) (s : Streams) (f : α → γ) (x y : Parser α) : Prop :=
  ∀ (t u t' u' : Token) (h : t.Alike u) (ht : t.kind ≠ .newline) (h' : t'.Alike u')
    (ht' : t'.kind ≠ .newline), Agree short 2 f ((s.cons h' ht').cons h ht) x y

namespace Same

theorem run (h : Same short s k f x y) : Agree short k f s x y :=
  h s .rfl

theorem any (h : Same short ws k f x y) : Same short ws 0 f x y :=
  fun s hs => (h s hs).weaken (Nat.zero_le k)

theorem mono (h : Same short ws k f x y) (hs : ws.Took l s) : Same short s k f x y :=
  fun s' hs' => h s' ((hs.trans hs').weaken (Nat.zero_le _))

/-- The second parser reads behind the tokens that the first one takes. -/
theorem behind (hx : Same short ws k f x y)
    (h : ∀ a b s, f a = f b → ws.Took k s → Same short s 0 g (p a) (q b)) :
    Same short ws k g (x >>= p) (y >>= q) :=
  fun s hs => (hx s hs).bind fun a b s' hab hs' => (h a b s' hab (hs.within hs')).run

theorem first (hx : Same short ws k f x y) (h : ∀ a b, f a = f b → Same short ws 0 g (p a) (q b)) :
    Same short ws k g (x >>= p) (y >>= q) :=
  hx.behind fun a b _ hab hs => (h a b hab).mono hs

theorem bind (hx : Same short ws l f x y) (h : ∀ a b, f a = f b → Same short ws k g (p a) (q b)) :
    Same short ws k g (x >>= p) (y >>= q) :=
  fun s hs => ((hx s hs).bind fun a b s' hab hs' => (h a b hab).mono (hs.within hs') s' .rfl).weaken
    (Nat.le_add_left k l)

theorem first_eq (hx : Same short ws k id x y) (h : ∀ a, Same short ws 0 g (p a) (q a)) :
    Same short ws k g (x >>= p) (y >>= q) :=
  hx.first fun a b hab => (show a = b from hab) ▸ h a

theorem bind_eq (hx : Same short ws l id x y) (h : ∀ a, Same short ws k g (p a) (q a)) :
    Same short ws k g (x >>= p) (y >>= q) :=
  hx.bind fun a b hab => (show a = b from hab) ▸ h a

theorem map (h : Same short ws k f x y) (hφ : ∀ a b, f a = f b → g (φ a) = g (φ b)) :
    Same short ws k g (φ <$> x) (φ <$> y) :=
  fun s hs => (h s hs).map hφ

theorem pure (h : f a = f b) : Same short ws 0 f (Pure.pure a) (Pure.pure b) :=
  fun _ _ => .pure h

theorem unexpected : Same short ws k f (unexpected what) (unexpected what) :=
  fun s _ => .error rfl rfl (congrArg (SyntaxProblem.expected what) s.spaced.heads.found) nofun

theorem failAt (h : problem ≠ .outOfFuel) :
    Same short ws k f (failAt loc problem) (failAt loc' problem) :=
  fun _ _ => .error rfl rfl rfl fun h' => absurd h' h

theorem outOfFuel (h : short) : Same short ws k f outOfFuel outOfFuel :=
  fun _ _ => .error rfl rfl rfl fun _ => h

/-- Parsers that bound themselves by the tokens that are left. -/
theorem counting {x y : Nat → Parser α}
    (h : ∀ n m s, ws.Took 0 s → s.Fuel False n m → Agree short k f s (x n) (y m)) :
    Same short ws k f (do x ((← get).length + 1)) (do y ((← get).length + 1)) :=
  fun s hs => .look (get_eq _) (get_eq _) (h _ _ s hs s.fuel)

/-! ### Single tokens -/

theorem peek {p q : Token → Parser β} (h : ∀ t u, t.kind = u.kind → Same short ws k g (p t) (q u)) :
    Same short ws k g (peek >>= p) (peek >>= q) :=
  fun s hs => .peeking fun t u hnext => h t u hnext.heads.kind s hs

theorem isAt : Same short ws 0 id (isAt kind) (isAt kind) :=
  peek fun _ _ h => pure (by simp [h])

theorem atStatementEnd : Same short ws 0 id atStatementEnd atStatementEnd :=
  peek fun _ _ h => pure (by simp [h])

theorem skipNewlines : Same short ws 0 id skipNewlines skipNewlines :=
  fun _ _ => .ok (r := Streams.dropNewlines _) rfl rfl rfl Streams.took_dropNewlines

end Same

/-- What takes a token takes at least so many. -/
class AtMostOne (k : Nat) : Prop where
  le : k ≤ 1

instance atMostOne_zero : AtMostOne 0 := ⟨Nat.zero_le 1⟩
instance atMostOne_one : AtMostOne 1 := ⟨Nat.le_refl 1⟩

section

variable {k : Nat} [AtMostOne k] {x y : Parser α}

theorem Streams.Next.opens (hnext : s.Next t u) (ht : Inline t.kind) (hs : ws.Took 0 s)
    (h : ∀ s', ws.Took 1 s' → Opens short s' f x y) : Agree short k f s x y := by
  obtain ⟨s', halike, hne, rfl⟩ := hnext.behind ht
  exact (h s' (hs.within Streams.took_cons) t u halike hne).weaken AtMostOne.le

theorem Streams.Next.opensAt [hkind : Inline kind] (hnext : s.Next t u) (ht : t.kind = kind)
    (hs : ws.Took 0 s) (h : ∀ s', ws.Took 1 s' → Opens short s' f x y) : Agree short k f s x y :=
  hnext.opens (ht ▸ hkind) hs h

theorem Streams.Next.opensOp (hnext : s.Next t u) {op? : TokenKind → Option β}
    (ht : op? t.kind = some op) (hnewline : op? .newline = none) (hend : op? .endOfFile = none)
    (hs : ws.Took 0 s) (h : ∀ s', ws.Took 1 s' → Opens short s' f x y) : Agree short k f s x y :=
  hnext.opens ⟨fun h => by simp [h, hnewline] at ht, fun h => by simp [h, hend] at ht⟩ hs h

end

namespace Opens

theorem consume {p q : Token → Parser β} (h : ∀ t u, t.Alike u → Same short s 0 g (p t) (q u)) :
    Opens short s g (Parser.consume >>= p) (Parser.consume >>= q) :=
  fun t u halike _ => .step (consume_eq s.ends.ne_nil)
    (consume_eq (s.spaced.ne_nil s.ends.ne_nil)) Streams.took_cons (h t u halike).run

theorem bind (hx : Opens short s f x y) (h : ∀ a b, f a = f b → Same short s 0 g (p a) (q b)) :
    Opens short s g (x >>= p) (y >>= q) :=
  fun t u halike ht => (hx t u halike ht).bind fun a b s' hab hs => h a b hab s' hs.tail

theorem map (h : Opens short s f x y) (hφ : ∀ a b, f a = f b → g (φ a) = g (φ b)) :
    Opens short s g (φ <$> x) (φ <$> y) :=
  fun t u halike ht => (h t u halike ht).map hφ

end Opens

theorem OpensTwo.consume
    (h : ∀ t u, t.Alike u → Opens short s g (p t) (q u)) :
    OpensTwo short s g (Parser.consume >>= p) (Parser.consume >>= q) :=
  fun t u t' u' halike _ halike' ht' => .step (consume_eq (List.cons_ne_nil _ _))
    (consume_eq (List.cons_ne_nil _ _)) Streams.took_cons (h t u halike t' u' halike' ht')

theorem OpensTwo.bind
    (hx : OpensTwo short s f x y) (h : ∀ a b, f a = f b → Same short s 0 g (p a) (q b)) :
    OpensTwo short s g (x >>= p) (y >>= q) :=
  fun t u t' u' halike ht halike' ht' => (hx t u t' u' halike ht halike' ht').bind
    fun a b s' hab hs => h a b hab s' hs.tail.tail

/-- What comes second is the same behind a token that is neither a newline nor the end. -/
theorem Streams.Next.peekSecond (hnext : s.Next t u) : ∃ t' u',
    Parser.peekSecond s.fst = .ok (t', s.fst) ∧ Parser.peekSecond s.snd = .ok (u', s.snd) ∧
    (Inline t.kind → t'.kind = u'.kind ∧
      (Inline t'.kind → ∀ {ws : Streams} {f : α → γ} {x y : Parser α},
        ws.Took 0 s → (∀ r, ws.Took 2 r → OpensTwo short r f x y) → Agree short 2 f s x y)) := by
  by_cases ht : Inline t.kind
  · obtain ⟨r, halike, hne, rfl⟩ := hnext.behind ht
    obtain ⟨t', u', hnext'⟩ : ∃ t' u', r.Next t' u' := ⟨_, _, r.next⟩
    refine ⟨t', u', hnext'.first ▸ peekSecond_cons r.ends.ne_nil,
      hnext'.second ▸ peekSecond_cons (r.spaced.ne_nil r.ends.ne_nil),
      fun _ => ⟨hnext'.heads.kind, fun ht' ws f x y hs h => ?_⟩⟩
    obtain ⟨r', halike', hne', rfl⟩ := hnext'.behind ht'
    exact h r' ((hs.within took_cons).trans took_cons) t u t' u' halike hne halike' hne'
  · obtain ⟨t', hfst⟩ := peekSecond_eq s.fst
    obtain ⟨u', hsnd⟩ := peekSecond_eq s.snd
    exact ⟨t', u', hfst, hsnd, fun h => absurd h ht⟩

namespace Same

variable {f : α → γ}

theorem branching [Inline kind] {k : Nat} [AtMostOne k] {p q : Bool → Parser α}
    (htrue : ∀ s, ws.Took 1 s → Opens short s f (p true) (q true))
    (hfalse : Same short ws k f (p false) (q false)) :
    Same short ws k f (Parser.isAt kind >>= p) (Parser.isAt kind >>= q) := by
  refine fun s hs => .peeking (p := fun t => p (decide (t.kind = kind)))
    (q := fun t => q (decide (t.kind = kind))) fun t u hnext => ?_
  rw [← hnext.heads.kind]
  by_cases ht : t.kind = kind
  · rw [decide_eq_true ht]
    exact hnext.opensAt ht hs htrue
  · rw [decide_eq_false ht]
    exact hfalse s hs

theorem accepting [Inline kind] {k : Nat} [AtMostOne k]
    (htrue : ∀ s, ws.Took 1 s → Same short s 0 f (p true) (q true))
    (hfalse : Same short ws k f (p false) (q false)) :
    Same short ws k f (Parser.accept kind >>= p) (Parser.accept kind >>= q) := by
  have haccept {p : Bool → Parser α} : Parser.accept kind >>= p = Parser.isAt kind >>= fun found =>
      if found then Parser.consume >>= fun _ => p true else p false := by
    unfold Parser.accept
    rw [bind_assoc]
    congr 1
    funext found
    split <;> simp
  rw [haccept, haccept]
  exact branching (fun s hs => .consume fun _ _ _ => htrue s hs) hfalse

theorem accept [Inline kind] : Same short ws 0 id (accept kind) (accept kind) := by
  rw [← bind_pure (Parser.accept kind)]
  exact accepting (fun _ _ => pure rfl) (pure rfl)

theorem expect [Inline kind] : Same short ws 1 id (expect kind what) (expect kind what) :=
  accepting (fun _ _ => pure rfl) unexpected

theorem expecting [Inline kind] (h : Same short ws k f x y) :
    Same short ws k f (do Parser.expect kind what; x) (do Parser.expect kind what; y) :=
  expect.bind_eq fun _ => h

theorem identifier : Same short ws 1 id (identifier what) (identifier what) :=
  branching (fun _ _ => .consume fun _ _ h => pure h.lexeme) unexpected

/-! ### Repetition -/

/-- Repetition ends if each item takes a token. It takes one itself if there is an item. -/
theorem whileRuns
    (h : ∀ s, ws.Took 0 s → more (s.fst.headD endToken).kind → Agree short 1 f s item item')
    (hs : ws.Took 0 s) : Agree short (if more (s.fst.headD endToken).kind then 1 else 0) (List.map f) s
      (Parser.whileNext more item) (Parser.whileNext more item') := by
  refine .look (get_eq _) (get_eq _) (s.fuel.within (P := fun n m s =>
    Agree short (if more (s.fst.headD endToken).kind then 1 else 0) (List.map f) s
      (whileAux more item n) (whileAux more item' m)) hs fun n m s hs ih => ?_)
  refine .peeking fun t u hnext => ?_
  rw [hnext.first, ← hnext.heads.kind]
  split
  · rename_i hmore
    refine (h s hs (hnext.first ▸ hmore)).first fun a b s' hab hs' => ?_
    refine ((ih s' hs' s' .rfl).weaken (Nat.zero_le _)).first
      fun as bs _ habs _ => .pure ?_
    simp [hab, habs]
  · exact .pure rfl

theorem whileItems (h : Same short ws 1 f item item') :
    Same short ws 0 (List.map f) (Parser.whileNext more item) (Parser.whileNext more item') :=
  fun _ hs => (whileRuns (fun s hs _ => h s hs) hs).weaken (Nat.zero_le _)

theorem inline_of_eq [h : Inline kind] (k : TokenKind) (hk : decide (k = kind) = true) : Inline k :=
  of_decide_eq_true hk ▸ h

theorem whileOpens (hmore : ∀ kind, more kind → Inline kind)
    (h : ∀ s, ws.Took 1 s → Opens short s f item item') (hs : ws.Took 0 s) :
    Agree short (if more (s.fst.headD endToken).kind then 1 else 0) (List.map f) s
      (Parser.whileNext more item) (Parser.whileNext more item') :=
  whileRuns (fun s hs hm => s.next.opens (hmore _ hm) hs h) hs

theorem whileSeen (hmore : ∀ kind, more kind → Inline kind)
    (h : ∀ s, ws.Took 1 s → Opens short s f item item') :
    Same short ws 0 (List.map f) (Parser.whileNext more item) (Parser.whileNext more item') :=
  fun _ hs => (whileOpens hmore h hs).weaken (Nat.zero_le _)

/-- A list ends, since each comma is taken. -/
theorem commaSeparated (h : Same short ws 1 f item item') :
    Same short ws 1 (List.map f) (commaSeparated item) (commaSeparated item') := by
  refine counting fun n m s hs hfuel => hfuel.within (P := fun n m s =>
    Agree short 1 (List.map f) s (commaAux item n) (commaAux item' m)) hs fun n m s hs ih => ?_
  refine (h s hs).first fun a b s' hab hs' => ?_
  refine Same.run (accepting (fun r hr => ?_) (pure (by simp [hab])))
  have hrest : Same short r 1 (List.map f) (commaAux item n) (commaAux item' m) :=
    ih r (hs'.inner (hr.weaken (Nat.zero_le 1)))
  exact hrest.any.bind fun as bs habs => pure (by simp [hab, habs])

theorem itemsUpTo [Inline close] (h : Same short ws 1 f item item') :
    Same short ws 1 (List.map f) (itemsUpTo close what item) (itemsUpTo close what item') := by
  have hend (as bs : List α) (hab : as.map f = bs.map f) : Same short ws 1 (List.map f)
      (do Parser.expect close what; return as) (do Parser.expect close what; return bs) :=
    expect.first_eq fun _ => pure hab
  refine isAt.bind_eq fun found => ?_
  dsimp only
  split
  · exact (pure rfl).bind hend
  · exact (commaSeparated h).bind hend

theorem optionalAfter [Inline kind] (h : Same short ws k f item item') :
    Same short ws 0 (Option.map f) (optionalAfter kind item) (optionalAfter kind item') := by
  refine bind_eq accept fun found => ?_
  split
  · exact h.bind fun a b hab => pure (by simp [hab])
  · exact pure rfl

theorem lookingAhead (first second : TokenKind) [Inline first] [Inline second]
    {p q : Bool → Parser β}
    (htrue : ∀ s, ws.Took 2 s → OpensTwo short s g (p true) (q true))
    (hfalse : Same short ws 0 g (p false) (q false)) :
    Same short ws 0 g
      (do
        let a ← Parser.isAt first
        let t ← Parser.peekSecond
        p (a && decide (t.kind = second)))
      (do
        let a ← Parser.isAt first
        let t ← Parser.peekSecond
        q (a && decide (t.kind = second))) := by
  refine fun s hs => .peeking
    (p := fun t => (do
      let u ← Parser.peekSecond
      p (decide (t.kind = first) && decide (u.kind = second))))
    (q := fun t => (do
      let u ← Parser.peekSecond
      q (decide (t.kind = first) && decide (u.kind = second)))) fun t u hnext => ?_
  obtain ⟨t', u', hfst, hsnd, hsame⟩ := hnext.peekSecond
  refine .look hfst hsnd ?_
  rw [← hnext.heads.kind]
  by_cases ht : t.kind = first
  · obtain ⟨hkind, htwo⟩ := hsame (ht ▸ inferInstance)
    rw [decide_eq_true ht, Bool.true_and, Bool.true_and, ← hkind]
    by_cases ht' : t'.kind = second
    · rw [decide_eq_true ht']
      exact (htwo (ht' ▸ inferInstance) hs htrue).weaken (Nat.zero_le 2)
    · rw [decide_eq_false ht']
      exact hfalse s hs
  · rw [decide_eq_false ht, Bool.false_and, Bool.false_and]
    exact hfalse s hs

theorem dottedName : Same short ws 1 id (dottedName what) (dottedName what) := by
  refine identifier.first_eq fun name s _ => .look (get_eq _) (get_eq _) ?_
  refine Agree.first (f := id) (k := 0) ?_ fun a b _ hab _ => (show a = b from hab) ▸ .pure rfl
  refine s.fuel.induct (P := fun n m s => Agree short 0 id s (dottedName.segments _ n)
    (dottedName.segments _ m)) nofun fun n m s ih => ?_
  refine Same.run (lookingAhead _ _ (p := fun b => if b then _ else _)
    (q := fun b => if b then _ else _) (fun r hr => ?_) (pure rfl))
  refine .bind (f := id) (.consume fun _ _ _ => .consume fun _ _ h => pure (by simp [h.lexeme]))
    fun a b hab s' hs' => ?_
  have hs' : s.Took 1 s' := (hr.inner hs').weaken (Nat.le_succ 1)
  exact (ih s' hs').first fun as bs _ habs _ => .pure (by simp_all)

/-! ### Types -/

theorem lookingOf
    (htrue : ∀ s, ws.Took 2 s → OpensTwo short s g (p true) (q true))
    (hfalse : Same short ws 0 g (p false) (q false)) : Same short ws 0 g (atOf >>= p) (atOf >>= q) := by
  have h := lookingAhead (.mark .leftParen) (.keyword .of) htrue hfalse
  simpa only [atOf, bind_assoc, pure_bind] using h

theorem typeRefAux (h : ws.Fuel short n m) :
    Same short ws 1 TypeRef.bare (typeRefAux n) (typeRefAux m) := by
  refine h.induct (P := fun n m ws =>
    Same short ws 1 TypeRef.bare (Parser.typeRefAux n) (Parser.typeRefAux m))
    (fun h _ => outOfFuel h) fun n m ws ih => ?_
  have hend {s : Streams} {name : String} {loc loc' : Loc} (as bs : List TypeRef)
      (hab : as.map TypeRef.bare = bs.map TypeRef.bare) :
      Same short s 0 TypeRef.bare
        (do return TypeRef.mk name as (← Parser.accept (.mark .question)) false [] loc)
        (do return TypeRef.mk name bs (← Parser.accept (.mark .question)) false [] loc') :=
    bind_eq accept fun _ => pure (by simp [TypeRef.bare, hab])
  refine peek fun t u _ => accepting (fun s hs => ?_) ?_
  · exact expecting <| (ih s hs).bind fun a b hab =>
      pure (TypeRef.toPointer_bare hab)
  · refine dottedName.behind fun name name' s hname hs => ?_
    obtain rfl : name = name' := hname
    refine lookingOf (fun r hr => .consume fun _ _ _ => .consume fun _ _ _ => ?_) ?_
    · have htypes := ih r ((hs.trans hr).weaken (by simp))
      exact (commaSeparated htypes).bind fun as bs hab => expecting <|
        (pure hab).bind hend
    · exact (pure rfl).bind hend

theorem typeRef : Same short ws 1 TypeRef.bare typeRef typeRef :=
  counting fun _ _ _ _ hfuel => (typeRefAux (hfuel.imp_right fun h => h.2.elim)).run

theorem typeParams : Same short ws 0 id typeParams typeParams := by
  refine lookingOf (fun _ _ => .consume fun _ _ _ => .consume fun _ _ _ => ?_) (pure rfl)
  exact (commaSeparated identifier).bind fun as bs hab => expecting <|
    pure (by simpa using hab)

end Same

end BasicSSA.Parser
