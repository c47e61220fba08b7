import BasicSSA.Parser.Basic
import BasicSSA.Proofs.Syntax.Bare

/-!
# Token streams

A stream ends with a token that marks the end of the input. Parsers are run on two `Streams`, of
which the second one has a run of newlines wherever the first one has a newline (`Spaced`). They may
be one and the same.
-/

namespace BasicSSA

/-- Tokens that differ at most in their positions. The text in an interpolated string is read as
text of the same file. -/
structure Token.Alike (t u : Token) : Prop where
  kind : t.kind = u.kind
  lexeme : t.lexeme = u.lexeme
  value : t.value = u.value
  file : t.kind = .interpolated → t.loc.file = u.loc.file

theorem Token.Alike.rfl {t : Token} : t.Alike t :=
  ⟨.refl _, .refl _, .refl _, fun _ => .refl _⟩

namespace Parser

/-- The second list is the first one with a run of newlines, at least one, in the place of each
newline. Positions may differ. -/
inductive Spaced : List Token → List Token → Prop
  | nil : Spaced [] []
  | token : t.Alike u → t.kind ≠ .newline → Spaced ts us → Spaced (t :: ts) (u :: us)
  | newline : t.kind = .newline → run ≠ [] → (∀ u ∈ run, u.kind = .newline) → Spaced ts us →
    Spaced (t :: ts) (run ++ us)

/-- A kind of tokens that neither end a line nor the file. -/
class Inline (kind : TokenKind) : Prop where
  ne_newline : kind ≠ .newline
  ne_endOfFile : kind ≠ .endOfFile

instance inline_identifier : Inline .identifier := ⟨nofun, nofun⟩
instance inline_interpolated : Inline .interpolated := ⟨nofun, nofun⟩
instance inline_keyword : Inline (.keyword word) := ⟨nofun, nofun⟩
instance inline_blockEnd : Inline (.blockEnd block) := ⟨nofun, nofun⟩
instance inline_mark : Inline (.mark m) := ⟨nofun, nofun⟩

/-! ### Ends -/

/-- A stream ends with a token that marks the end of the input. -/
def Sealed (ts : List Token) : Prop :=
  ∃ us t, ts = us ++ [t] ∧ t.kind = .endOfFile

theorem Sealed.ne_nil (h : Sealed ts) : ts ≠ [] := by
  obtain ⟨us, t, rfl, -⟩ := h
  simp

theorem Sealed.cons (h : Sealed us) : Sealed (t :: us) := by
  obtain ⟨vs, e, rfl, he⟩ := h
  exact ⟨t :: vs, e, rfl, he⟩

theorem Sealed.of_suffix (h : Sealed ts) (hs : us <:+ ts) (hus : us ≠ []) : Sealed us := by
  obtain ⟨vs, t, rfl, ht⟩ := h
  rcases List.suffix_concat_iff.mp hs with rfl | ⟨ws, rfl, -⟩
  · exact absurd rfl hus
  · exact ⟨ws, t, rfl, ht⟩

/-- Behind a token that is not the end there is a stream. -/
theorem Sealed.tail (h : Sealed (t :: us)) (ht : t.kind ≠ .endOfFile) : Sealed us := by
  refine h.of_suffix (List.suffix_cons t us) ?_
  rintro rfl
  obtain ⟨vs, e, hvs, he⟩ := h
  have hlast : t = e := by simpa using congrArg List.getLast? hvs
  subst hlast
  exact ht he

theorem Sealed.dropNewlines (h : Sealed ts) : Sealed (ts.dropWhile (·.kind = .newline)) := by
  refine h.of_suffix (List.dropWhile_suffix _) ?_
  obtain ⟨us, e, rfl, he⟩ := h
  induction us with
  | nil => simp [he]
  | cons t us ih =>
    rw [List.cons_append, List.dropWhile_cons]
    split
    · exact ih
    · simp

theorem sealed_stream (tokens : List Token) : Sealed (stream tokens) := by
  unfold stream
  dsimp only
  split
  · exact ⟨[], endToken, rfl, rfl⟩
  · rename_i last hlast
    split
    · rename_i hkind
      obtain ⟨us, hus⟩ := List.getLast?_eq_some_iff.mp hlast
      exact ⟨us, last, hus, hkind⟩
    · exact ⟨_, _, rfl, rfl⟩

/-! ### Blank lines -/

/-- The next tokens of two streams: they mean the same to a parser. -/
structure Heads (t u : Token) : Prop where
  kind : t.kind = u.kind
  alike : t.kind ≠ .newline → t.Alike u

theorem Heads.found (h : Heads t u) : Found.ofToken t = Found.ofToken u := by
  unfold Found.ofToken
  by_cases hk : t.kind = .newline
  · simp [← h.kind, hk]
  · simp [← h.kind, (h.alike hk).lexeme]

namespace Spaced

theorem rfl : Spaced ts ts := by
  induction ts with
  | nil => exact .nil
  | cons t ts ih =>
    by_cases ht : t.kind = .newline
    · exact Spaced.newline ht (List.cons_ne_nil t []) (by simpa using ht) ih
    · exact .token .rfl ht ih

section

variable (h : Spaced ts us)

include h

theorem heads : Heads (ts.headD endToken) (us.headD endToken) := by
  cases h with
  | nil => exact ⟨.refl _, fun _ => .rfl⟩
  | token halike _ _ => exact ⟨halike.kind, fun _ => halike⟩
  | newline ht hne hrun _ =>
    obtain ⟨u, run, rfl⟩ := List.exists_cons_of_ne_nil hne
    exact ⟨ht.trans (hrun u List.mem_cons_self).symm, fun h => absurd ht h⟩

theorem ne_nil (hts : ts ≠ []) : us ≠ [] := by
  cases h with
  | nil => exact hts
  | token => simp
  | newline _ hne => simp [hne]

theorem dropNewlines :
    Spaced (ts.dropWhile (·.kind = .newline)) (us.dropWhile (·.kind = .newline)) := by
  induction h with
  | nil => exact .nil
  | token halike hkind hrest ih =>
    rw [List.dropWhile_cons_of_neg (by simpa using hkind),
      List.dropWhile_cons_of_neg (by simpa using halike.kind ▸ hkind)]
    exact .token halike hkind hrest
  | newline ht _ hrun _ ih =>
    rw [List.dropWhile_cons_of_pos (by simpa using ht),
      List.dropWhile_append_of_pos (by simpa using hrun)]
    exact ih

theorem withoutTrivia :
    Spaced (ts.filter fun t => !t.kind.isTrivia) (us.filter fun t => !t.kind.isTrivia) := by
  induction h with
  | nil => exact .nil
  | token halike hkind _ ih =>
    rw [List.filter_cons, List.filter_cons, ← halike.kind]
    split
    · exact .token halike hkind ih
    · exact ih
  | newline ht hne hrun _ ih =>
    rename_i run _ _ _ _
    have hkept : run.filter (fun t => !t.kind.isTrivia) = run :=
      List.filter_eq_self.2 fun u hu => by simp [hrun u hu, TokenKind.isTrivia]
    rw [List.filter_cons_of_pos (by simp [ht, TokenKind.isTrivia]), List.filter_append, hkept]
    exact .newline ht hne hrun ih

theorem append (h' : Spaced ts' us') : Spaced (ts ++ ts') (us ++ us') := by
  induction h with
  | nil => exact h'
  | token halike hkind _ ih => exact .token halike hkind ih
  | newline ht hne hrun _ ih => exact List.append_assoc .. ▸ .newline ht hne hrun ih

theorem last : (ts.map Token.kind).getLast? = (us.map Token.kind).getLast? := by
  induction h with
  | nil => exact .refl _
  | token halike _ _ ih => rw [List.map_cons, List.map_cons, List.getLast?_cons, List.getLast?_cons,
      halike.kind, ih]
  | newline ht hne hrun _ ih =>
    rename_i run _ us _ _
    have hkinds : run.map Token.kind = List.replicate run.length .newline :=
      List.eq_replicate_iff.2 ⟨List.length_map _, by simpa using hrun⟩
    rw [List.map_cons, List.map_append, List.getLast?_cons, List.getLast?_append, hkinds, ih, ht,
      List.getLast?_replicate, if_neg (by simpa using hne)]
    cases (us.map Token.kind).getLast? <;> exact .refl _

theorem stream : Spaced (stream ts) (stream us) := by
  unfold Parser.stream
  generalize hts : ts.filter _ = ts'
  generalize hus : us.filter _ = us'
  have htokens : Spaced ts' us' := hts ▸ hus ▸ h.withoutTrivia
  have hlast := htokens.last
  simp only [List.getLast?_map] at hlast
  dsimp only
  cases ht : ts'.getLast? with
  | none =>
    cases hu : us'.getLast? with
    | none => exact .rfl
    | some u => simp [ht, hu] at hlast
  | some t =>
    cases hu : us'.getLast? with
    | none => simp [ht, hu] at hlast
    | some u =>
      have hkind : t.kind = u.kind := by simpa [ht, hu] using hlast
      dsimp only
      rw [← hkind]
      split
      · exact htokens
      · exact htokens.append
          (.token ⟨.refl _, .refl _, .refl _, by simp [Token.endAt]⟩ (by simp [Token.endAt]) .nil)

end

theorem relocate (hfile : loc.file = loc'.file) (ts : List Token) :
    Spaced (ts.map ({ · with loc })) (ts.map ({ · with loc := loc' })) := by
  induction ts with
  | nil => exact .nil
  | cons t ts ih =>
    by_cases ht : t.kind = .newline
    · have hrun : ∀ u ∈ [{ t with loc := loc' }], u.kind = .newline := by simpa using ht
      have hspaced := Spaced.newline (t := { t with loc }) ht (List.cons_ne_nil _ _) hrun ih
      exact hspaced
    · exact .token ⟨.refl _, .refl _, .refl _, fun _ => hfile⟩ ht ih

end Spaced

/-! ### Two streams -/

/-- Two streams that differ in blank lines. -/
structure Streams where
  fst : List Token
  snd : List Token
  spaced : Spaced fst snd
  ends : Sealed fst

namespace Streams

variable {ws s : Streams} {t : Token}

/-- A stream twice. -/
def twice (h : Sealed ts) : Streams :=
  ⟨ts, ts, .rfl, h⟩

/-- Streams behind a token. -/
def cons (s : Streams) (h : t.Alike u) (ht : t.kind ≠ .newline) : Streams :=
  ⟨t :: s.fst, u :: s.snd, .token h ht s.spaced, s.ends.cons⟩

def dropNewlines (s : Streams) : Streams :=
  ⟨_, _, s.spaced.dropNewlines, s.ends.dropNewlines⟩

/-- What is left of two streams behind at least `k` tokens of both. -/
structure Took (s : Streams) (k : Nat) (s' : Streams) : Prop where
  fst : s'.fst <:+ s.fst
  snd : s'.snd <:+ s.snd
  length_fst : s'.fst.length + k ≤ s.fst.length
  length_snd : s'.snd.length + k ≤ s.snd.length

theorem Took.of_suffix (hfst : s'.fst <:+ s.fst) (hsnd : s'.snd <:+ s.snd) : s.Took 0 s' :=
  ⟨hfst, hsnd, hfst.length_le, hsnd.length_le⟩

theorem Took.rfl : s.Took 0 s :=
  .of_suffix List.suffix_rfl List.suffix_rfl

theorem Took.trans (h : s.Took k s') (h' : s'.Took l s'') : s.Took (k + l) s'' where
  fst := h'.fst.trans h.fst
  snd := h'.snd.trans h.snd
  length_fst := by have := h.length_fst; have := h'.length_fst; omega
  length_snd := by have := h.length_snd; have := h'.length_snd; omega

theorem Took.weaken (h : s.Took k s') (hl : l ≤ k) : s.Took l s' where
  fst := h.fst
  snd := h.snd
  length_fst := by have := h.length_fst; omega
  length_snd := by have := h.length_snd; omega

/-- Streams that lie inside of some others, and the same behind one more token. -/
theorem Took.within (h : s.Took 0 s') (h' : s'.Took k s'') : s.Took k s'' :=
  (h.trans h').weaken (Nat.le_add_left k 0)

theorem Took.inner (h : s.Took k s') (h' : s'.Took 0 s'') : s.Took k s'' :=
  h.trans h'

theorem took_cons : (s.cons h ht).Took 1 s :=
  ⟨List.suffix_cons .., List.suffix_cons .., Nat.le_refl _, Nat.le_refl _⟩

/-- What is left after the next token lies behind it. -/
theorem Took.tail (htook : (s.cons h ht).Took (k + 1) s') :
    s.Took k s' := by
  have hsuffix {t : Token} {ts us : List Token} (h : us <:+ t :: ts)
      (hlen : us.length + (k + 1) ≤ ts.length + 1) : us <:+ ts := by
    rcases List.suffix_cons_iff.mp h with rfl | hs
    · rw [List.length_cons] at hlen
      omega
    · exact hs
  exact ⟨hsuffix htook.fst htook.length_fst, hsuffix htook.snd htook.length_snd,
    Nat.le_of_succ_le_succ htook.length_fst, Nat.le_of_succ_le_succ htook.length_snd⟩

theorem took_dropNewlines : s.Took 0 s.dropNewlines :=
  .of_suffix (List.dropWhile_suffix _) (List.dropWhile_suffix _)

/-- Tokens stand next in two streams, which lie inside of others. -/
structure Next (s : Streams) (t u : Token) : Prop where
  first : s.fst.headD endToken = t
  second : s.snd.headD endToken = u
  heads : Heads t u
  behind : Inline t.kind → ∃ s' h ht, s = cons (t := t) (u := u) s' h ht

theorem next (s : Streams) : s.Next (s.fst.headD endToken) (s.snd.headD endToken) := by
  refine ⟨rfl, rfl, s.spaced.heads, fun h => ?_⟩
  obtain ⟨ts, us, hspaced, hends⟩ := s
  cases hspaced with
  | nil => exact absurd rfl hends.ne_nil
  | token halike hkind hrest => exact ⟨⟨_, _, hrest, hends.tail h.ne_endOfFile⟩, halike, hkind, rfl⟩
  | newline ht => exact absurd ht h.ne_newline

/-! ### Fuel -/

/-- Two amounts of fuel are enough for two streams, or they are one and may be `short`. -/
def Fuel (short : Prop) (n m : Nat) (s : Streams) : Prop :=
  (s.fst.length ≤ n ∧ s.snd.length ≤ m) ∨ (n = m ∧ short)

/-- Fuel that is spent on tokens lasts. -/
theorem Fuel.induct {P : Nat → Nat → Streams → Prop} (zero : short → ∀ s, P 0 0 s)
    (step : ∀ n m s, (∀ s', s.Took 1 s' → P n m s') → P (n + 1) (m + 1) s)
    (h : Fuel short n m s) : P n m s := by
  have hfst := List.length_pos_iff.mpr s.ends.ne_nil
  have hsnd := List.length_pos_iff.mpr (s.spaced.ne_nil s.ends.ne_nil)
  induction n generalizing m s with
  | zero =>
    rcases h with h | ⟨rfl, h⟩
    · omega
    · exact zero h s
  | succ n ih =>
    cases m with
    | zero =>
      rcases h with h | ⟨h, -⟩
      · omega
      · cases h
    | succ m =>
      refine step n m s fun s' hs => ih ?_ (List.length_pos_iff.mpr s'.ends.ne_nil)
        (List.length_pos_iff.mpr (s'.spaced.ne_nil s'.ends.ne_nil))
      refine h.imp (fun h => ?_) fun h => ⟨Nat.succ.inj h.1, h.2⟩
      have := hs.length_fst
      have := hs.length_snd
      omega

/-- The same inside of some streams, with what holds inside of each stream behind a token. -/
theorem Fuel.within {P : Nat → Nat → Streams → Prop} (h : Fuel False n m s) (hs : ws.Took 0 s)
    (step : ∀ n m s, ws.Took 0 s → (∀ r, s.Took 1 r → ∀ r', r.Took 0 r' → P n m r') →
      P (n + 1) (m + 1) s) : P n m s :=
  h.induct (P := fun n m s => ws.Took 0 s → P n m s) nofun (fun n m s ih hs => step n m s hs
    fun _ hr r' hr' => ih r' (hr.inner hr') ((hs.within (hr.inner hr')).weaken (Nat.zero_le 1))) hs

/-- One more than their length is enough for streams. -/
theorem fuel (s : Streams) : Fuel False (s.fst.length + 1) (s.snd.length + 1) s :=
  .inl ⟨Nat.le_succ _, Nat.le_succ _⟩

end Streams

end Parser

end BasicSSA
