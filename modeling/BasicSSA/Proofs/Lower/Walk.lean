import BasicSSA.IL.Module
import BasicSSA.Lower.Loops
import BasicSSA.Proofs.Lower.Reading

/-!
# Walks through a function

A source map tells what the code of each block does. A walk does this, block after block, and goes
where the terminators lead. `Follows` says that the walks from a spot do what a reading says; it has
one rule for each way to build a reading.
-/

namespace BasicSSA

open IL (Value Instr Block Function)

/-- A piece of code with what it does. The value of a test is what a branch asks for. -/
structure Piece where
  action : Action
  code : List Instr
  value : Option Value := none

/-- The pieces of the code of each block, in order. -/
abbrev SourceMap := Nat → List Piece

/-- What the pieces of a block do. -/
def SourceMap.actions (H : SourceMap) (k : Nat) : List Action :=
  (H k).map (·.action)

/-- How far a walk has come: the number of its block and of the next piece there, and what was done
so far. -/
structure Point where
  block : Nat
  index : Nat
  trace : Trace := []

/-- The block that a branch leads to. -/
def IL.Function.target? (f : Function) (i : Instr) (k : Nat) : Option Nat :=
  i.labels[k]?.bind f.blockIdx?

namespace Walk

variable (f : Function) (H : SourceMap) (o : Oracle)

/-- The block after one that ends with an instruction. -/
def next? (t : Trace) (i : Instr) : Option Nat :=
  match i.op with
  | .br => f.target? i 0
  | .cbr => f.target? i (if o t then 0 else 1)
  | _ => none

/-- A step of a walk: does the next piece, or goes on to another block. A walk ends with a return. -/
def step (c : Point) : Option Point :=
  match (H c.block)[c.index]? with
  | some piece => some { c with index := c.index + 1, trace := c.trace ++ [piece.action] }
  | none =>
    ((f.block c.block).terminator?.bind (next? f o c.trace)).map
      ({ block := ·, index := 0, trace := c.trace })

/-- The walk from the start of the first block, after a number of steps. -/
def walk : Nat → Point
  | 0 => { block := 0, index := 0 }
  | n + 1 => (step f H o (walk n)).getD (walk n)

/-- A number of steps that lead from a point to another. -/
inductive Path : Nat → Point → Point → Prop where
  | nil (c : Point) : Path 0 c c
  | cons : step f H o c = some c' → Path n c' c'' → Path (n + 1) c c''

end Walk

open Walk

section

namespace Walk.Path

theorem trans (h : Path f H o m a b) (h' : Path f H o n b c) : Path f H o (m + n) a c := by
  induction h with
  | nil => simpa using h'
  | cons hs _ ih =>
    rw [Nat.succ_add]
    exact .cons hs (ih h')

theorem snoc (h : Path f H o n a b) (hs : step f H o b = some c) : Path f H o (n + 1) a c :=
  h.trans (.cons hs (.nil c))

theorem walk_eq (h : Path f H o n (walk f H o k) c) : walk f H o (k + n) = c := by
  generalize ha : walk f H o k = a at h
  induction h generalizing k with
  | nil => exact ha
  | cons hs _ ih =>
    rw [Nat.add_comm _ 1, ← Nat.add_assoc]
    refine ih ?_
    rw [walk, ha, hs]
    rfl

end Walk.Path

namespace Walk

theorem trace_step (h : step f H o c = some c') : c.trace <+: c'.trace := by
  unfold step at h
  split at h
  · cases h
    exact List.prefix_append ..
  · obtain ⟨_, -, rfl⟩ := Option.map_eq_some_iff.mp h
    exact List.prefix_refl _

theorem walk_succ_cases (f : Function) (H : SourceMap) (o : Oracle) (n : Nat) :
    (step f H o (walk f H o n) = none ∧ walk f H o (n + 1) = walk f H o n) ∨
      step f H o (walk f H o n) = some (walk f H o (n + 1)) := by
  cases h : step f H o (walk f H o n) <;> simp [walk, h]

/-- What a walk has done is never undone. -/
theorem trace_walk_mono (h : m ≤ n) : (walk f H o m).trace <+: (walk f H o n).trace := by
  induction h with
  | refl => exact List.prefix_refl _
  | step _ ih =>
    rename_i n _
    rcases walk_succ_cases f H o n with ⟨-, hn⟩ | hn
    · rwa [hn]
    · exact ih.trans (trace_step hn)

theorem walk_ended (h : step f H o (walk f H o m) = none) (hn : m ≤ n) :
    walk f H o n = walk f H o m := by
  induction hn with
  | refl => rfl
  | step _ ih => rw [walk, ih, h, Option.getD_none]

theorem walk_ended_unique (hm : step f H o (walk f H o m) = none)
    (hn : step f H o (walk f H o n) = none) : walk f H o m = walk f H o n := by
  rcases Nat.le_total m n with h | h
  · exact (walk_ended hm h).symm
  · exact walk_ended hn h

/-- A walk that takes a number of steps has not ended before. -/
theorem Path.not_ended (h : Path f H o n (walk f H o k) c) (hm : k ≤ m) (hmn : m < k + n) :
    step f H o (walk f H o m) ≠ none := by
  generalize ha : walk f H o k = a at h
  induction h generalizing k with
  | nil => omega
  | cons hs _ ih =>
    subst ha
    rcases walk_succ_cases f H o k with ⟨hnone, -⟩ | hk
    · rw [hnone] at hs
      cases hs
    · rw [hk] at hs
      cases hs
      by_cases he : m = k
      · rw [he, hk]
        simp
      · exact ih (k := k + 1) (by omega) (by omega) rfl

end Walk

/-! ### What a walk meets -/

/-- The next piece at a spot does an action. -/
def SourceMap.Does (H : SourceMap) (k i : Nat) (a : Action) : Prop :=
  ∃ piece, (H k)[i]? = some piece ∧ piece.action = a

/-- At the end of its pieces a block has a terminator. -/
structure EndsAt (f : Function) (H : SourceMap) (k i : Nat) (t : Instr) : Prop where
  pieces : i = (H k).length
  terminator : (f.block k).terminator? = some t

/-- A block goes on at another one. -/
structure Jumps (f : Function) (H : SourceMap) (k i j : Nat) : Prop where
  ends : ∃ t, EndsAt f H k i t ∧ t.op = .br ∧ f.target? t 0 = some j

/-- A block goes on at one of two others. -/
structure Branches (f : Function) (H : SourceMap) (k i yes no : Nat) : Prop where
  ends : ∃ t, EndsAt f H k i t ∧ t.op = .cbr ∧ f.target? t 0 = some yes ∧ f.target? t 1 = some no

/-- A block ends the walk. -/
structure Halts (f : Function) (H : SourceMap) (k i : Nat) : Prop where
  ends : ∃ t, EndsAt f H k i t ∧ t.op = .ret

theorem SourceMap.Does.step (h : H.Does k i a) :
    step f H o ⟨k, i, t⟩ = some ⟨k, i + 1, t ++ [a]⟩ := by
  obtain ⟨piece, hp, rfl⟩ := h
  simp [Walk.step, hp]

theorem EndsAt.step (h : EndsAt f H k i t) :
    step f H o ⟨k, i, tr⟩ = (next? f o tr t).map ({ block := ·, index := 0, trace := tr }) := by
  simp [Walk.step, h.pieces, h.terminator]

theorem Jumps.step (h : Jumps f H k i j) : step f H o ⟨k, i, t⟩ = some ⟨j, 0, t⟩ := by
  obtain ⟨_, he, hop, ht⟩ := h.ends
  simp [he.step, next?, hop, ht]

theorem Branches.step (h : Branches f H k i yes no) :
    step f H o ⟨k, i, t⟩ = some ⟨if o t then yes else no, 0, t⟩ := by
  obtain ⟨_, he, hop, hy, hn⟩ := h.ends
  cases ho : o t <;> simp [he.step, next?, hop, ho, hy, hn]

theorem Halts.step (h : Halts f H k i) : step f H o ⟨k, i, t⟩ = none := by
  obtain ⟨_, he, hop⟩ := h.ends
  simp [he.step, next?, hop]

/-! ### Walks that follow a reading -/

/-- Where a walk of `n` steps has come when a reading ends: to the spot `(j, l)`, to the end of the
loop that is left, or to the end of the walk. If the reading is cut, the walk has taken `fuel`
steps. -/
def Lands (f : Function) (H : SourceMap) (o : Oracle) (loops : LoopStack) (fuel j l n : Nat)
    (c : Point) : Outcome → Prop
  | .normal => c.block = j ∧ c.index = l
  | .leave kind => ∃ frame, loops.innermost? kind = some frame ∧ c.block = frame.leave ∧ c.index = 0
  | .stop => step f H o c = none
  | .cut => fuel ≤ n

/-- From the spot `(k, i)` walks do what a reading says, and if that ends normally they come to the
spot `(j, l)`. -/
def Follows (f : Function) (H : SourceMap) (o : Oracle) (loops : LoopStack) (fuel k i : Nat)
    (x : Reading) (j l : Nat) : Prop :=
  ∀ t, ∃ n c, Path f H o n ⟨k, i, t⟩ c ∧ c.trace = (x t).1 ∧ Lands f H o loops fuel j l n c (x t).2

namespace Lands

theorem mono (h : Lands f H o loops fuel j l n c out) (hf : fuel' ≤ fuel + d) :
    Lands f H o loops fuel' j l (d + n) c out := by
  cases out with
  | cut =>
    have : fuel ≤ n := h
    show fuel' ≤ d + n
    omega
  | normal | leave | stop => exact h

end Lands

namespace Follows

theorem after (hp : ∀ t, Path f H o d ⟨k, i, t⟩ ⟨k', i', t⟩)
    (h : Follows f H o loops fuel k' i' x j l) : Follows f H o loops (fuel + d) k i x j l := by
  intro t
  obtain ⟨n, c, hc, htr, hl⟩ := h t
  exact ⟨d + n, c, (hp t).trans hc, htr, hl.mono (Nat.le_refl _)⟩

theorem mono (h : Follows f H o loops fuel k i x j l) (hf : fuel' ≤ fuel) :
    Follows f H o loops fuel' k i x j l := by
  intro t
  obtain ⟨n, c, hc, htr, hl⟩ := h t
  exact ⟨n, c, hc, htr, by simpa using hl.mono (d := 0) hf⟩

theorem skip : Follows f H o loops fuel k i .skip k i :=
  fun t => ⟨0, ⟨k, i, t⟩, .nil _, rfl, rfl, rfl⟩

theorem act (h : H.Does k i a) : Follows f H o loops fuel k i (.act a) k (i + 1) :=
  fun t => ⟨1, ⟨k, i + 1, t ++ [a]⟩, .cons h.step (.nil _), rfl, rfl, rfl⟩

theorem andThen (hx : Follows f H o loops fuel k i x k' i')
    (hy : Follows f H o loops fuel k' i' y j l) :
    Follows f H o loops fuel k i (x.andThen y) j l := by
  intro t
  obtain ⟨n, ⟨b, q, tr⟩, hp, htr, hl⟩ := hx t
  simp only [Reading.andThen]
  generalize x t = r at htr hl
  obtain ⟨t', out⟩ := r
  cases htr
  cases out with
  | normal =>
    obtain ⟨rfl, rfl⟩ := hl
    obtain ⟨n', c, hp', htr', hl'⟩ := hy tr
    exact ⟨n + n', c, hp.trans hp', htr', hl'.mono (Nat.le_add_right ..)⟩
  | leave | stop | cut => exact ⟨n, _, hp, rfl, hl⟩

/-- A reading that never ends normally may be taken to end anywhere. -/
theorem elsewhere (hx : Follows f H o loops fuel k i x j l) (h : ∀ t, (x t).2 ≠ .normal) :
    Follows f H o loops fuel k i x j' l' := by
  intro t
  obtain ⟨n, c, hp, htr, hl⟩ := hx t
  refine ⟨n, c, hp, htr, ?_⟩
  specialize h t
  generalize (x t).2 = out at h hl
  cases out with
  | normal => exact absurd rfl h
  | leave | stop | cut => exact hl

theorem jump (h : Jumps f H k i k') (hx : Follows f H o loops fuel k' 0 x j l) :
    Follows f H o loops (fuel + 1) k i x j l :=
  hx.after fun _ => .cons h.step (.nil _)

theorem thenJump (hx : Follows f H o loops fuel k i x k' i') (h : Jumps f H k' i' j) :
    Follows f H o loops fuel k i x j 0 := by
  intro t
  obtain ⟨n, ⟨b, q, tr⟩, hp, htr, hl⟩ := hx t
  generalize x t = r at htr hl
  obtain ⟨t', out⟩ := r
  cases out with
  | normal =>
    obtain ⟨rfl, rfl⟩ := hl
    exact ⟨n + 1, _, hp.snoc h.step, htr, rfl, rfl⟩
  | leave | stop | cut => exact ⟨n, _, hp, htr, hl⟩

theorem ask (ht : H.Does k i a) (hb : Branches f H k (i + 1) yes no)
    (hx : Follows f H o loops fuel yes 0 x j l) (hy : Follows f H o loops fuel no 0 y j l) :
    Follows f H o loops (fuel + 1) k i (.ask o a x y) j l := by
  intro t
  have hp : Path f H o 2 ⟨k, i, t⟩ ⟨if o (t ++ [a]) then yes else no, 0, t ++ [a]⟩ :=
    .cons ht.step (.cons hb.step (.nil _))
  simp only [Reading.ask]
  split
  · rename_i ho
    obtain ⟨n, c, hc, htr, hl⟩ := hx (t ++ [a])
    rw [if_pos ho] at hp
    exact ⟨2 + n, c, hp.trans hc, htr, hl.mono (by omega)⟩
  · rename_i ho
    obtain ⟨n, c, hc, htr, hl⟩ := hy (t ++ [a])
    rw [if_neg ho] at hp
    exact ⟨2 + n, c, hp.trans hc, htr, hl.mono (by omega)⟩

theorem stop (h : Halts f H k i) : Follows f H o loops fuel k i (.give .stop) j l :=
  fun t => ⟨0, ⟨k, i, t⟩, .nil _, rfl, h.step⟩

theorem leave (hf : loops.innermost? kind = some frame) (h : Jumps f H k i frame.leave) :
    Follows f H o loops fuel k i (.give (.leave kind)) j l :=
  fun t => ⟨1, ⟨frame.leave, 0, t⟩, .cons h.step (.nil _), rfl, frame, hf, rfl, rfl⟩

theorem catching (hx : Follows f H o (frame :: loops) fuel k i x frame.leave 0) :
    Follows f H o loops fuel k i (.catching frame.kind x) frame.leave 0 := by
  intro t
  obtain ⟨n, c, hp, htr, hl⟩ := hx t
  simp only [Reading.catching]
  generalize x t = r at htr hl
  obtain ⟨t', out⟩ := r
  refine ⟨n, c, hp, ?_⟩
  cases out with
  | leave kind =>
    obtain ⟨frame', hfind, hblock, hindex⟩ := hl
    refine ⟨htr, ?_⟩
    dsimp only
    split
    · subst_vars
      simp only [LoopStack.innermost?, List.find?_cons, decide_true, Option.some.injEq] at hfind
      exact hfind ▸ ⟨hblock, hindex⟩
    · rename_i hne
      have hdec : decide (frame.kind = kind) = false := decide_eq_false fun h => hne h.symm
      simp only [LoopStack.innermost?, List.find?_cons, hdec] at hfind
      exact ⟨frame', hfind, hblock, hindex⟩
  | normal | stop | cut => exact ⟨htr, hl⟩

theorem rounds {round : Reading → Reading}
    (h : ∀ n x, n < fuel → Follows f H o loops n k i x j l →
      Follows f H o loops (n + 1) k i (round x) j l) :
    n ≤ fuel → Follows f H o loops n k i (.rounds round n) j l := by
  induction n with
  | zero => exact fun _ t => ⟨0, ⟨k, i, t⟩, .nil _, rfl, Nat.le_refl _⟩
  | succ n ih => exact fun hn => h n _ hn (ih (Nat.le_of_succ_le hn))

theorem loop {round : Reading → Reading}
    (h : ∀ n x, n < fuel → Follows f H o (frame :: loops) n k i x frame.leave 0 →
      Follows f H o (frame :: loops) (n + 1) k i (round x) frame.leave 0) :
    Follows f H o loops fuel k i (.loop frame.kind fuel round) frame.leave 0 :=
  catching (rounds h (Nat.le_refl _))

end Follows

end

end BasicSSA
