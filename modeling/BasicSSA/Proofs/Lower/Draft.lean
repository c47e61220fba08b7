import BasicSSA.Proofs.IL.Accepted
import BasicSSA.Proofs.Lower.Code
import BasicSSA.Proofs.Lower.Walk

/-!
# Functions under construction

A draft is a function under construction with its source map and its current block. `Draft.Ok` says
what holds of a draft at all times, `Draft.Grown` what later steps leave alone, and `Pending` which
blocks have no end yet.
-/

namespace BasicSSA

open IL (Value Ty Opcode Instr Block Function Global Module Build)

namespace Lower

/-! ### Code and its source -/

/-- The code that a step adds to the current block, with the value that it gives. -/
def Emits {α : Type} (gs : List Global) (x : Lower α) (a : α) (code : List Instr) : Prop :=
  ∃ s s' b b', s.builder.finished.globals = gs ∧ x s = .ok (a, s') ∧
    s.builder.block? = some b ∧ s'.builder.block? = some b' ∧
    b'.instrs.map Instr.anonymous = (b.instrs ++ code).map Instr.anonymous

/-- The code of an action, and the value that it gives if it is a test. What a `Select` or a loop
tests is what its start gives. -/
inductive CodeOf (gs : List Global) (p : Place) : Action → List Instr → Option Value → Prop where
  | simple : Emits gs (stmt p s) () code → CodeOf gs p (.simple s) code none
  | subject : Emits gs (expr p e) v code → CodeOf gs p (.subject e) code none
  | test : Emits gs (condition p e loc) v code → CodeOf gs p (.test e) code (some v)
  | caseTest : Emits gs (expr p e) subject code' → Emits gs (caseTest p subject e') v code →
    CodeOf gs p (.caseTest e e') code (some v)
  | forStart : i.symbol = some x → Emits gs (forStart p i.loc x a z s) r code →
    CodeOf gs p (.start (.forLoop i v a z s b)) code none
  | forTest : i.symbol = some x → Emits gs (forStart p i.loc x a z s) (last, step) code' →
    Emits gs (forTest p i.loc x last step) w code →
    CodeOf gs p (.inRange (.forLoop i v a z s b)) code (some w)
  | forNext : i.symbol = some x → Emits gs (forStart p i.loc x a z s) (last, step) code' →
    Emits gs (forNext p i.loc x step) () code →
    CodeOf gs p (.next (.forLoop i v a z s b)) code none
  | eachStart : i.symbol = some x → Emits gs (eachStart p i.loc x e) r code →
    CodeOf gs p (.start (.forEach i v t e b)) code none
  | eachTest : i.symbol = some x → Emits gs (eachStart p i.loc x e) es code' →
    Emits gs (eachTest i.loc es) w code →
    CodeOf gs p (.inRange (.forEach i v t e b)) code (some w)
  | eachElement : i.symbol = some x → Emits gs (eachStart p i.loc x e) es code' →
    Emits gs (eachElement p i.loc x es) () code →
    CodeOf gs p (.element (.forEach i v t e b)) code none
  | eachNext : i.symbol = some x → Emits gs (eachStart p i.loc x e) es code' →
    Emits gs (eachNext i.loc es) () code →
    CodeOf gs p (.next (.forEach i v t e b)) code none
  | caught : Emits gs (catchVar p i) () code → CodeOf gs p (.caught i) code none

/-- A place inside the procedure of another one. -/
structure Place.Within (p q : Place) : Prop where
  env : p.toEnv = q.toEnv
  returnType : p.returnType = q.returnType
  me : p.me = q.me

/-- The code of a block is that of its pieces, with a terminator behind it if the last piece has
none. A branch asks for the value of the last piece. -/
structure LaidOut (gs : List Global) (q : Place) (b : Block) (pieces : List Piece) : Prop where
  code : ∃ ending : List Instr, ending.length ≤ 1 ∧
    b.instrs.map Instr.anonymous = (pieces.flatMap (·.code) ++ ending).map Instr.anonymous ∧
    ∀ t ∈ ending, t.op.isTerminator = true ∧
      (t.op = .cbr → ∃ v, pieces.getLast?.bind (·.value) = some v ∧ t.operands = [v])
  pieces : ∀ piece ∈ pieces, ∃ p : Place, p.Within q ∧ CodeOf gs p piece.action piece.code piece.value

end Lower

/-! ### Blocks -/

/-- An instruction that may end a block. No branch leads to the first block. -/
def Policy.Ends (π : Policy) (f : Function) (t : Instr) : Prop :=
  π.Bears t ∧ match t.op with
  | .br => ∃ k, 0 < k ∧ k < f.blocks.length ∧ t.labels = [f.label k]
  | .cbr => ∃ j k, (0 < j ∧ j < f.blocks.length) ∧ (0 < k ∧ k < f.blocks.length) ∧
    t.labels = [f.label j, f.label k]
  | .ret => t.labels = [] ∧ t.operands.length ≤ 1 ∧ π.returns (t.operands.head?.map (·.type.kind))
  | _ => False

theorem Policy.Ends.terminator {π : Policy} (h : π.Ends f t) : t.op.isTerminator = true := by
  obtain ⟨-, h⟩ := h
  split at h <;> simp_all [Opcode.isTerminator]

/-- A block of permitted code, with or without its end. -/
inductive IL.Block.Tidy (π : Policy) (f : Function) (b : Block) : Prop where
  | code (h : ∀ i ∈ b.instrs, π.Allows i)
  | ended (body : List Instr) (t : Instr) (h : b.instrs = body ++ [t])
    (hbody : ∀ i ∈ body, π.Allows i) (ht : π.Ends f t)

namespace IL

theorem Block.terminator?_push {b : Block} (ht : t.op.isTerminator = true) :
    Block.terminator? { b with instrs := b.instrs ++ [t] } = some t := by
  simp [Block.terminator?, ht]

theorem Block.Tidy.allows {b : Block} (h : b.Tidy π f) (ho : b.isTerminated = false) :
    ∀ i ∈ b.instrs, π.Allows i := by
  cases h with
  | code h => exact h
  | ended body t hb _ ht =>
    have : b.isTerminated = true := Block.isTerminated_iff.mpr ⟨t, by simp [hb], ht.terminator⟩
    rw [ho] at this
    cases this

namespace Function

/-- The function with one more block, which is empty. -/
def addBlock (f : Function) (l : String) : Function :=
  { f with blocks := f.blocks ++ [{ label := l }] }

/-- The function with one more instruction at the end of a block. -/
def push (f : Function) (n : Nat) (i : Instr) : Function :=
  { f with blocks := f.blocks.modify n fun b => { b with instrs := b.instrs ++ [i] } }

variable {f : Function}

@[simp] theorem length_addBlock : (f.addBlock l).blocks.length = f.blocks.length + 1 := by
  simp [addBlock]

theorem block_addBlock (h : k < f.blocks.length) : (f.addBlock l).block k = f.block k := by
  simp [addBlock, block, List.getElem?_append_left h]

@[simp] theorem block_addBlock_length : (f.addBlock l).block f.blocks.length = { label := l } := by
  simp [addBlock, block]

@[simp] theorem length_push : (f.push n i).blocks.length = f.blocks.length := by
  simp [push]

theorem block_push_ne (h : k ≠ n) : (f.push n i).block k = f.block k := by
  simp [push, block, Ne.symm h]

theorem block_push (h : n < f.blocks.length) :
    (f.push n i).block n = { f.block n with instrs := (f.block n).instrs ++ [i] } := by
  simp [push, block, h]

@[simp] theorem label_push : (f.push n i).label k = f.label k := by
  by_cases h : k = n
  · subst h
    by_cases hk : k < f.blocks.length
    · simp [label, block_push hk]
    · simp [label, push, block, hk]
  · simp [label, block_push_ne h]

end Function

end IL

/-! ### Drafts -/

structure Draft where
  function : Function
  pieces : SourceMap
  current : Nat
  /-- What the pieces do, in the order in which they were made. -/
  log : List Action
  /-- What is declared before the first piece. -/
  given : List Declaration := []

namespace Draft

open Lower (LaidOut Place At)

def declared (c : Draft) : List Declaration :=
  c.given ++ c.log.flatMap Action.declarations

/-- The number of the piece that comes next. -/
def index (c : Draft) : Nat :=
  (c.pieces c.current).length

def isOpen (c : Draft) (k : Nat) : Prop :=
  (c.function.block k).isTerminated = false

def goto (c : Draft) (k : Nat) : Draft :=
  { c with current := k }

def addBlock (c : Draft) (l : String) : Draft :=
  { c with function := c.function.addBlock l }

/-- The draft with an end for the current block. -/
def finish (c : Draft) (t : Instr) : Draft :=
  { c with function := c.function.push c.current t }

/-- The draft with a piece for code that the current block has got. -/
def grow (c : Draft) (f : Function) (piece : Piece) : Draft :=
  { c with
    function := f
    pieces := fun k => if k = c.current then c.pieces k ++ [piece] else c.pieces k
    log := c.log ++ [piece.action] }

/-- What holds of a draft at all times. -/
structure Ok (π : Policy) (q : Place) (gs : List Global) (c : Draft) : Prop where
  inside : c.current < c.function.blocks.length
  labels : (c.function.blocks.map (·.label)).Nodup
  tidy : ∀ k < c.function.blocks.length, (c.function.block k).Tidy π c.function
  laid : ∀ k < c.function.blocks.length, LaidOut gs q (c.function.block k) (c.pieces k)
  beyond : ∀ k, c.function.blocks.length ≤ k → c.pieces k = []
  log : c.log.Perm ((List.range c.function.blocks.length).flatMap (c.pieces.actions ·))

/-- A draft that has grown out of another one: only the block that was current then, and blocks that
were not there yet, have changed, and a block does not change after its end. -/
structure Grown (c c' : Draft) : Prop where
  given : c'.given = c.given
  name : c'.function.name = c.function.name
  returnType : c'.function.returnType = c.function.returnType
  params : c'.function.params = c.function.params
  length_le : c.function.blocks.length ≤ c'.function.blocks.length
  label : ∀ k < c.function.blocks.length, c'.function.label k = c.function.label k
  pieces : ∀ k, c.pieces k <+: c'.pieces k
  others : ∀ k < c.function.blocks.length, k ≠ c.current →
    c'.function.block k = c.function.block k ∧ c'.pieces k = c.pieces k
  closed : ¬c.isOpen c.current →
    c'.function.block c.current = c.function.block c.current ∧
      c'.pieces c.current = c.pieces c.current
  current : c'.current = c.current ∨ c.function.blocks.length ≤ c'.current

/-- A function that a draft may become. -/
structure Becomes (c : Draft) (f : Function) (H : SourceMap) : Prop where
  length_le : c.function.blocks.length ≤ f.blocks.length
  labels : (f.blocks.map (·.label)).Nodup
  label : ∀ k < c.function.blocks.length, f.label k = c.function.label k
  pieces : ∀ k, c.pieces k <+: H k
  closed : ∀ k < c.function.blocks.length, ¬c.isOpen k →
    f.block k = c.function.block k ∧ H k = c.pieces k

/-- All blocks but some have their end. -/
def Pending (c : Draft) (ks : List Nat) : Prop :=
  ∀ k < c.function.blocks.length, c.isOpen k → k ∈ ks

/-- A block that waits for its code. -/
structure Blank (c : Draft) (k : Nat) : Prop where
  inside : k < c.function.blocks.length
  instrs : (c.function.block k).instrs = []
  pieces : c.pieces k = []

/-- A block that may be jumped to. -/
def Has (c : Draft) (k : Nat) : Prop :=
  0 < k ∧ k < c.function.blocks.length

/-- A draft with more code: what the code does, and what is known of the functions that the draft
may become. -/
structure Adds (c : Draft) (as : List Action) (P : Function → SourceMap → Prop) (c' : Draft) :
    Prop where
  length_le : c.function.blocks.length ≤ c'.function.blocks.length
  log : c'.log = c.log ++ as
  becomes : ∀ f H, c'.Becomes f H → c.Becomes f H ∧ P f H

variable {c : Draft}

theorem Adds.trans (h : c.Adds as P c') (h' : c'.Adds as' P' c'') :
    c.Adds (as ++ as') (fun f H => P f H ∧ P' f H) c'' where
  length_le := Nat.le_trans h.length_le h'.length_le
  log := by rw [h'.log, h.log, List.append_assoc]
  becomes f H hb := by
    obtain ⟨hb, hp'⟩ := h'.becomes f H hb
    obtain ⟨hb, hp⟩ := h.becomes f H hb
    exact ⟨hb, hp, hp'⟩

theorem Adds.imp (h : c.Adds as P c') (hp : ∀ f H, P f H → P' f H) : c.Adds as P' c' :=
  ⟨h.length_le, h.log, fun f H hb => ⟨(h.becomes f H hb).1, hp f H (h.becomes f H hb).2⟩⟩

theorem Has.later (h : c.Has k) (ha : c.Adds as P c') : c'.Has k :=
  ⟨h.1, Nat.lt_of_lt_of_le h.2 ha.length_le⟩

theorem isOpen_of_le (h : c.function.blocks.length ≤ k) : c.isOpen k := by
  simp [isOpen, Function.block, h]
  rfl

namespace Grown

theorem refl (c : Draft) : Grown c c :=
  ⟨rfl, rfl, rfl, rfl, Nat.le_refl _, fun _ _ => rfl, fun _ => List.prefix_refl _,
    fun _ _ _ => ⟨rfl, rfl⟩, fun _ => ⟨rfl, rfl⟩, .inl rfl⟩

theorem trans (h : Grown c c') (h' : Grown c' c'') : Grown c c'' where
  given := h'.given.trans h.given
  name := h'.name.trans h.name
  returnType := h'.returnType.trans h.returnType
  params := h'.params.trans h.params
  length_le := Nat.le_trans h.length_le h'.length_le
  label k hk := (h'.label k (Nat.lt_of_lt_of_le hk h.length_le)).trans (h.label k hk)
  pieces k := (h.pieces k).trans (h'.pieces k)
  others k hk hne := by
    have hk' : k ≠ c'.current := by
      rcases h.current with hc | hc
      · rwa [hc]
      · omega
    obtain ⟨hb, hp⟩ := h.others k hk hne
    obtain ⟨hb', hp'⟩ := h'.others k (Nat.lt_of_lt_of_le hk h.length_le) hk'
    exact ⟨hb'.trans hb, hp'.trans hp⟩
  closed ho := by
    obtain ⟨hb, hp⟩ := h.closed ho
    by_cases hc : c.current = c'.current
    · have ho' : ¬c'.isOpen c'.current := by rwa [← hc, isOpen, hb]
      obtain ⟨hb', hp'⟩ := h'.closed ho'
      rw [← hc] at hb' hp'
      exact ⟨hb'.trans hb, hp'.trans hp⟩
    · by_cases hlt : c.current < c.function.blocks.length
      · obtain ⟨hb', hp'⟩ := h'.others _ (Nat.lt_of_lt_of_le hlt h.length_le) hc
        exact ⟨hb'.trans hb, hp'.trans hp⟩
      · exact absurd (isOpen_of_le (Nat.not_lt.mp hlt)) ho
  current := by
    rcases h'.current with hc | hc
    · rw [hc]
      exact h.current
    · exact .inr (Nat.le_trans h.length_le hc)

theorem goto (h : Grown c c') (hk : c.function.blocks.length ≤ k) : Grown c (c'.goto k) :=
  { h with current := .inr hk }

theorem addBlock (c : Draft) (l : String) : Grown c (c.addBlock l) where
  given := rfl
  name := rfl
  returnType := rfl
  params := rfl
  length_le := by simp [Draft.addBlock]
  label k hk := by simp [Draft.addBlock, Function.label, Function.block_addBlock hk]
  pieces _ := List.prefix_refl _
  others k hk _ := ⟨Function.block_addBlock hk, rfl⟩
  closed ho := by
    by_cases hlt : c.current < c.function.blocks.length
    · exact ⟨Function.block_addBlock hlt, rfl⟩
    · exact absurd (isOpen_of_le (Nat.not_lt.mp hlt)) ho
  current := .inl rfl

theorem finish (h : c.isOpen c.current) (t : Instr) : Grown c (c.finish t) where
  given := rfl
  name := rfl
  returnType := rfl
  params := rfl
  length_le := by simp [Draft.finish]
  label k _ := by simp [Draft.finish]
  pieces _ := List.prefix_refl _
  others k _ hne := ⟨Function.block_push_ne hne, rfl⟩
  closed ho := absurd h ho
  current := .inl rfl

theorem grow (h : c.isOpen c.current) (hf : c.function.Grows π c.current code f) (piece : Piece) :
    Grown c (c.grow f piece) where
  given := rfl
  name := hf.name
  returnType := hf.returnType
  params := hf.params
  length_le := Nat.le_of_eq hf.length.symm
  label k _ := hf.label k
  pieces k := by
    simp only [Draft.grow]
    split
    · exact List.prefix_append ..
    · exact List.prefix_refl _
  others k _ hne := ⟨hf.other k hne, by simp [Draft.grow, hne]⟩
  closed ho := absurd h ho
  current := .inl rfl

end Grown

/-! ### What a draft becomes -/

theorem Grown.becomes (h : Grown c c') (hf : c'.Becomes f H) : c.Becomes f H where
  length_le := Nat.le_trans h.length_le hf.length_le
  labels := hf.labels
  label k hk := (hf.label k (Nat.lt_of_lt_of_le hk h.length_le)).trans (h.label k hk)
  pieces k := (h.pieces k).trans (hf.pieces k)
  closed k hk ho := by
    have hsame : c'.function.block k = c.function.block k ∧ c'.pieces k = c.pieces k := by
      by_cases hc : k = c.current
      · exact hc ▸ h.closed (hc ▸ ho)
      · exact h.others k hk hc
    have ho' : ¬c'.isOpen k := by rwa [isOpen, hsame.1]
    obtain ⟨hb, hp⟩ := hf.closed k (Nat.lt_of_lt_of_le hk h.length_le) ho'
    exact ⟨hb.trans hsame.1, hp.trans hsame.2⟩

theorem Becomes.goto (h : (c.goto k).Becomes f H) : c.Becomes f H :=
  ⟨h.length_le, h.labels, h.label, h.pieces, h.closed⟩

theorem Adds.ofGoto (h : (c.goto k).Adds as P c') : c.Adds as P c' :=
  ⟨h.length_le, h.log, fun f H hb => ⟨(h.becomes f H hb).1.goto, (h.becomes f H hb).2⟩⟩

theorem Ok.becomes (h : c.Ok π q gs) : c.Becomes c.function c.pieces :=
  ⟨Nat.le_refl _, h.labels, fun _ _ => rfl, fun _ => List.prefix_refl _, fun _ _ _ => ⟨rfl, rfl⟩⟩

namespace Becomes

theorem target? (h : c.Becomes f H) (hk : k < c.function.blocks.length)
    (ht : t.labels[j]? = some (c.function.label k)) : f.target? t j = some k := by
  rw [Function.target?, ht, ← h.label k hk]
  exact Function.blockIdx?_label h.labels (Nat.lt_of_lt_of_le hk h.length_le)

theorem does (h : (c.grow f' piece).Becomes f H) : H.Does c.current c.index piece.action := by
  obtain ⟨rest, hr⟩ := h.pieces c.current
  refine ⟨piece, ?_, rfl⟩
  rw [← hr]
  simp [grow, index]

section

variable (h : (c.finish t).Becomes f H) (hc : c.current < c.function.blocks.length)

include h hc

theorem endsAt (ht : t.op.isTerminator = true) : EndsAt f H c.current c.index t := by
  have hb : (c.finish t).function.block c.current =
      { c.function.block c.current with instrs := (c.function.block c.current).instrs ++ [t] } :=
    Function.block_push hc
  have hterm : ((c.finish t).function.block c.current).terminator? = some t := by
    rw [hb]
    exact IL.Block.terminator?_push ht
  have hclosed : ¬(c.finish t).isOpen c.current := by
    simp [isOpen, IL.Block.isTerminated, hterm]
  obtain ⟨hf, hp⟩ := h.closed c.current (by simpa [finish] using hc) hclosed
  exact ⟨congrArg List.length hp.symm, hf ▸ hterm⟩

theorem jumps (hop : t.op = .br) (hk : k < c.function.blocks.length)
    (ht : t.labels = [c.function.label k]) : Jumps f H c.current c.index k := by
  refine ⟨t, h.endsAt hc (by simp [hop, Opcode.isTerminator]), hop, ?_⟩
  exact h.target? (by simpa [finish] using hk) (by simp [ht, finish])

theorem branches (hop : t.op = .cbr) (hj : j < c.function.blocks.length) (hk : k < c.function.blocks.length)
    (ht : t.labels = [c.function.label j, c.function.label k]) :
    Branches f H c.current c.index j k := by
  refine ⟨t, h.endsAt hc (by simp [hop, Opcode.isTerminator]), hop, ?_, ?_⟩
  · exact h.target? (by simpa [finish] using hj) (by simp [ht, finish])
  · exact h.target? (by simpa [finish] using hk) (by simp [ht, finish])

theorem halts (hop : t.op = .ret) : Halts f H c.current c.index :=
  ⟨t, h.endsAt hc (by simp [hop, Opcode.isTerminator]), hop⟩

end

end Becomes

/-! ### Blocks that wait -/

namespace Blank

theorem isOpen (h : c.Blank k) : c.isOpen k := by
  simp [Draft.isOpen, IL.Block.isTerminated, IL.Block.terminator?, h.instrs]

theorem index (h : c.Blank k) : (c.goto k).index = 0 := by
  simp [Draft.index, goto, h.pieces]

theorem keep (h : c.Blank k) (hg : Grown c c') (hk : k ≠ c.current) : c'.Blank k := by
  obtain ⟨hb, hp⟩ := hg.others k h.inside hk
  exact ⟨Nat.lt_of_lt_of_le h.inside hg.length_le, hb ▸ h.instrs, hp.trans h.pieces⟩

theorem addBlock (h : c.Ok π q gs) : (c.addBlock l).Blank c.function.blocks.length :=
  ⟨by simp [Draft.addBlock], by simp [Draft.addBlock], h.beyond _ (Nat.le_refl _)⟩

theorem goto (h : c.Blank k) : (c.goto j).Blank k :=
  ⟨h.inside, h.instrs, h.pieces⟩

end Blank

namespace Pending

theorem mono (h : c.Pending ks) (hs : ∀ k ∈ ks, k ∈ ks') : c.Pending ks' :=
  fun k hk ho => hs k (h k hk ho)

theorem goto (h : c.Pending ks) : (c.goto k).Pending ks :=
  h

theorem addBlock (h : c.Pending ks) : (c.addBlock l).Pending (c.function.blocks.length :: ks) := by
  intro k hk ho
  by_cases hlt : k < c.function.blocks.length
  · refine List.mem_cons_of_mem _ (h k hlt ?_)
    rwa [isOpen, Draft.addBlock, Function.block_addBlock hlt] at ho
  · have : k < c.function.blocks.length + 1 := by simpa [Draft.addBlock] using hk
    have : k = c.function.blocks.length := by omega
    exact this ▸ List.mem_cons_self

theorem finish (h : c.Pending (c.current :: ks)) (ht : t.op.isTerminator = true) :
    (c.finish t).Pending ks := by
  intro k hk ho
  have hk' : k < c.function.blocks.length := by simpa [Draft.finish] using hk
  by_cases hc : k = c.current
  · subst hc
    have hb : (c.finish t).function.block c.current = _ := Function.block_push hk'
    rw [isOpen, hb] at ho
    simp [IL.Block.isTerminated, IL.Block.terminator?_push ht] at ho
  · rw [isOpen, Draft.finish, Function.block_push_ne hc] at ho
    exact (List.mem_cons.mp (h k hk' ho)).resolve_left hc

theorem grow (h : c.Pending ks) (hf : c.function.Grows π c.current code f) :
    (c.grow f piece).Pending ks := by
  intro k hk ho
  refine h k (hf.length ▸ hk) ?_
  by_cases hc : k = c.current
  · subst hc
    rw [isOpen, ← hf.block.isTerminated_eq]
    exact ho
  · rw [isOpen, ← hf.other k hc]
    exact ho

end Pending

end Draft

end BasicSSA
