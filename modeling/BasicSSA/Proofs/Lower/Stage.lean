import BasicSSA.Proofs.Lower.Shape
import BasicSSA.Proofs.Lower.Steps

/-!
# Stages of the lowering of a statement

A stage is a point in the lowering of a statement, seen from the draft that it started with: how the
draft has grown since then, and which of the blocks that it owns still lack an end. Each step leads
from a stage to the next one, and tells what walks through the finished function will do there.
-/

namespace BasicSSA.Lower

open IL (Value Opcode Instr Function Module Build)

/-- A point in the lowering of a statement. Of the blocks that it may change, only those in `ks`
have no end yet. -/
structure Stage (π : Policy) (q : Place) (m : Module) (c₀ : Draft) (ks : List Nat) (s : LowerState)
    (c : Draft) : Prop where
  state : Here m s c
  ok : c.Ok π q m.globals
  grown : c₀.Grown c
  pending : ∀ rest, c₀.Pending (c₀.current :: rest) → c.Pending (ks ++ rest)

/-- What walks do from the start of a statement to its end, and how its code lies. A statement after
which the code is closed never ends normally. -/
structure Lowered (loops : LoopStack) (R : Oracle → Nat → Reading) (Λ : Shape) (c c' : Draft) :
    Prop where
  follows : ∀ f H, c'.Becomes f H → ∀ o fuel,
    Follows f H o loops fuel c.current c.index (R o fuel) c'.current c'.index
  normal : ¬c'.isOpen c'.current → ∀ o fuel t, (R o fuel t).2 ≠ .normal
  isOpen : c'.isOpen c'.current ↔ Λ.leaves = false
  log : c'.log = c.log ++ Λ.actions
  lies : ∀ f H, c'.Becomes f H → Λ.Lies f H loops c.current c'.current

/-- The ends of loops are blocks, and not the first one. -/
def LoopsIn (loops : LoopStack) (c : Draft) : Prop :=
  ∀ frame ∈ loops, c.Has frame.leave

/-- A step that lowers a statement: its code has a shape, and walks through it do what a reading
says. -/
def Lowers (π : Policy) (q : Place) (m : Module) (loops : LoopStack) (R : Oracle → Nat → Reading)
    (Λ : Shape) (x : Lower Unit) : Prop :=
  ∀ s c s', Here m s c → c.Ok π q m.globals → c.isOpen c.current →
    LoopsIn loops c → x s = .ok ((), s') →
    ∃ c', Stage π q m c [c'.current] s' c' ∧ Lowered loops R Λ c c'

theorem LoopsIn.mono (h : LoopsIn loops c)
    (hlen : c.function.blocks.length ≤ c'.function.blocks.length) : LoopsIn loops c' :=
  fun frame hf => ⟨(h frame hf).1, Nat.lt_of_lt_of_le (h frame hf).2 hlen⟩

theorem LoopsIn.later (h : LoopsIn loops c) (ha : c.Adds as P c') : LoopsIn loops c' :=
  h.mono ha.length_le

theorem LoopsIn.cons (h : LoopsIn loops c) (hleave : c.Has frame.leave) :
    LoopsIn (frame :: loops) c :=
  List.forall_mem_cons.mpr ⟨hleave, h⟩

namespace Stage

theorem start (hs : Here m s c) (hok : c.Ok π q m.globals) :
    Stage π q m c [c.current] s c :=
  ⟨hs, hok, .refl c, fun _ h => h⟩

theorem trans (h : Stage π q m c₀ (c.current :: ks) s c) (h' : Stage π q m c ks' s' c') :
    Stage π q m c₀ (ks' ++ ks) s' c' where
  state := h'.state
  ok := h'.ok
  grown := h.grown.trans h'.grown
  pending rest hp := by
    rw [List.append_assoc]
    exact h'.pending _ (h.pending rest hp)

section

variable (h : Stage π q m c₀ ks s c)

include h

theorem reorder (hks : ∀ k ∈ ks, k ∈ ks') :
    Stage π q m c₀ ks' s c where
  state := h.state
  ok := h.ok
  grown := h.grown
  pending rest hp := (h.pending rest hp).mono fun k hk => by
    rcases List.mem_append.mp hk with hk | hk
    · exact List.mem_append_left _ (hks k hk)
    · exact List.mem_append_right _ hk

theorem of_builder (hb : s'.builder = s.builder)
    (hn : s.names.Keeps s'.names) :
    Stage π q m c₀ ks s' c :=
  ⟨h.state.keep (h.state.toAt.of_builder hb) hn rfl rfl, h.ok, h.grown, h.pending⟩

theorem label (hx : naming (·.label hint) s = .ok (l, s')) :
    Stage π q m c₀ ks s' c := by
  cases hx
  exact h.of_builder rfl (.alike rfl rfl)

theorem goto (hx : continueAt k s = .ok (u, s'))
    (hk : k < c.function.blocks.length) (hk₀ : c₀.function.blocks.length ≤ k) :
    Stage π q m c₀ ks s' (c.goto k) where
  state := h.state.keep (continueAt_ok h.state.toAt hx hk) (keeps_of_emit hx) rfl rfl
  ok := h.ok.goto hk
  grown := h.grown.goto hk₀
  pending rest hp := (h.pending rest hp).goto

theorem addBlock (hx : emit (Build.addBlock l) s = .ok (k, s')) :
    k = c.function.blocks.length ∧ Stage π q m c₀ (k :: ks) s' (c.addBlock l) := by
  obtain ⟨rfl, hl, hs⟩ := addBlock_ok h.state.toAt hx
  exact ⟨rfl, h.state.keep hs (keeps_of_emit hx) rfl rfl, h.ok.addBlock hl,
    h.grown.trans (.addBlock c l), fun rest hp => (h.pending rest hp).addBlock⟩

end

/-- The current block has one more piece. -/
structure Piece (c : Draft) (action : Action) (v : Option Value) (c' : Draft) : Prop where
  grown : c.Grown c'
  length : c'.function.blocks.length = c.function.blocks.length
  current : c'.current = c.current
  index : c'.index = c.index + 1
  last : (c'.pieces c'.current).getLast?.bind (·.value) = v
  log : c'.log = c.log ++ [action]
  isOpen : c'.isOpen c'.current
  does : ∀ f H, c'.Becomes f H → H.Does c.current c.index action

theorem piece (h : Stage π q m c₀ ks s c) (hx : Straight π m ds x Q)
    (ho : c.isOpen c.current) (hxs : x s = .ok (a, s'))
    (hcode : ∀ code, Emits m.globals x a code → ∃ p : Place, p.Within q ∧
      CodeOf m.globals p action code v)
    (hds : action.declarations = ds) :
    ∃ c', Stage π q m c₀ ks s' c' ∧ Piece c action v c' ∧ Q a := by
  obtain ⟨f, code, hs, hg, hk, hq, he⟩ := hx.emits h.state.toAt hxs
  have hgrown := Draft.Grown.grow ho hg ⟨action, code, v⟩
  refine ⟨c.grow f ⟨action, code, v⟩, ⟨h.state.grow hs (hds ▸ hk), h.ok.grow ho hg (hcode code he),
    h.grown.trans hgrown, fun rest hp => (h.pending rest hp).grow hg⟩, ⟨hgrown, hg.length, rfl, ?_, ?_, rfl, ?_, ?_⟩, hq⟩
  · simp [Draft.index, Draft.grow]
  · simp [Draft.grow]
  · exact hg.block.isTerminated_eq.trans ho
  · exact fun f H hb => hb.does

theorem Piece.adds (h : Piece c action v c') :
    c.Adds [action] (fun _ H => H.Does c.current c.index action) c' :=
  ⟨h.grown.length_le, h.log, fun f H hb => ⟨h.grown.becomes hb, h.does f H hb⟩⟩

/-- The current block has got its end. -/
structure Finish (c c' : Draft) : Prop where
  grown : c.Grown c'
  length : c'.function.blocks.length = c.function.blocks.length
  log : c'.log = c.log

theorem Finish.adds (h : Finish c c') (hF : ∀ f H, c'.Becomes f H → P f H) : c.Adds [] P c' :=
  ⟨h.grown.length_le, h.log.trans (List.append_nil _).symm, fun f H hb =>
    ⟨h.grown.becomes hb, hF f H hb⟩⟩

section

variable (h : Stage π q m c₀ (c.current :: ks) s c)

include h

theorem finish (hx : emit (Build.append t) s = .ok (u, s')) (hends : π.Ends c.function t)
    (hv : t.op = .cbr → ∃ v, (c.pieces c.current).getLast?.bind (·.value) = some v ∧
      t.operands = [v]) : Stage π q m c₀ ks s' (c.finish t) ∧ Finish c (c.finish t) := by
  obtain ⟨ho, hs⟩ := append_ok h.state.toAt hx
  exact ⟨⟨h.state.keep hs (keeps_of_emit hx) rfl rfl, h.ok.finish ho hends hv,
    h.grown.trans (.finish ho t), fun rest hp => (h.pending rest hp).finish hends.terminator⟩,
    .finish ho t, by simp [Draft.finish], rfl⟩

theorem jump (hx : jump k loc s = .ok (u, s')) (hk : c.Has k) :
    ∃ c', Stage π q m c₀ ks s' c' ∧ Finish c c' ∧
      ∀ f H, c'.Becomes f H → Jumps f H c.current c.index k := by
  obtain ⟨l, t, hl, hx⟩ := bind_ok.mp hx
  obtain ⟨rfl, rfl⟩ := labelOf_ok h.state.toAt hl
  obtain ⟨h', hf⟩ := h.finish hx ⟨nofun, k, hk.1, hk.2, rfl⟩ nofun
  exact ⟨_, h', hf, fun f H hb => hb.jumps h.ok.inside rfl hk.2 rfl⟩

theorem branch (hx : branch v j k loc s = .ok (u, s'))
    (hj : c.Has j) (hk : c.Has k)
    (hv : (c.pieces c.current).getLast?.bind (·.value) = some v) (hfits : π.Fits v) :
    ∃ c', Stage π q m c₀ ks s' c' ∧ Finish c c' ∧
      ∀ f H, c'.Becomes f H → Branches f H c.current c.index j k := by
  obtain ⟨_, t, hl, hx⟩ := bind_ok.mp hx
  obtain ⟨rfl, rfl⟩ := labelOf_ok h.state.toAt hl
  obtain ⟨_, t, hl, hx⟩ := bind_ok.mp hx
  obtain ⟨rfl, rfl⟩ := labelOf_ok h.state.toAt hl
  obtain ⟨h', hf⟩ := h.finish hx ⟨Policy.bears_of_fits (by simpa using hfits), j, k, hj, hk, rfl⟩
    fun _ => ⟨v, hv, rfl⟩
  exact ⟨_, h', hf, fun f H hb => hb.branches h.ok.inside rfl hj.2 hk.2 rfl⟩

theorem jumpIfOpen (hx : jumpIfOpen k loc s = .ok (u, s')) (hk : c.Has k) :
    ∃ c', Stage π q m c₀ ks s' c' ∧ Finish c c' ∧
      ∀ f H, c'.Becomes f H → c.isOpen c.current → Jumps f H c.current c.index k := by
  obtain ⟨b, t, hb, hx⟩ := bind_ok.mp hx
  obtain ⟨rfl, rfl⟩ := isTerminated_ok h.state.toAt hb
  cases hterm : (c.function.block c.current).isTerminated with
  | false =>
    rw [hterm] at hx
    obtain ⟨c', h', hf, hj⟩ := h.jump hx hk
    exact ⟨c', h', hf, fun f H hb _ => hj f H hb⟩
  | true =>
    rw [hterm] at hx
    obtain ⟨rfl, rfl⟩ := pure_ok.mp hx
    have hclosed : ¬c.isOpen c.current := by simp [Draft.isOpen, hterm]
    refine ⟨c, ⟨h.state, h.ok, h.grown, fun rest hp k hk ho => ?_⟩, ⟨.refl c, rfl, rfl⟩,
      fun f H _ ho => absurd ho hclosed⟩
    rcases List.mem_cons.mp (h.pending rest hp k hk ho) with rfl | hmem
    · exact absurd ho hclosed
    · exact hmem

section

variable (hx : Lowers π q m loops R Λ x) (ho : c.isOpen c.current) (hl : LoopsIn loops c)

include hx ho hl

theorem lower (hxs : x s = .ok ((), s')) :
    ∃ c', Stage π q m c₀ (c'.current :: ks) s' c' ∧ c.Grown c' ∧ Lowered loops R Λ c c' := by
  obtain ⟨c', h', hlow⟩ := hx s c s' h.state h.ok ho hl hxs
  exact ⟨c', h.trans h', h'.grown, hlow⟩

theorem lowerInScope (hxs : inScope x s = .ok ((), s')) :
    ∃ c', Stage π q m c₀ (c'.current :: ks) s' c' ∧ c.Grown c' ∧ Lowered loops R Λ c c' := by
  obtain ⟨t, ht, hb, hn⟩ := inScope_ok hxs
  obtain ⟨c', h', hg, hlow⟩ := h.lower hx ho hl ht
  exact ⟨c', h'.of_builder hb hn, hg, hlow⟩

end

theorem leave (ho : c.isOpen c.current) (hxs : x s = .ok ((), s')) (hs : At s₁ m f₁ c.current)
    (hf : c.function.Grows π c.current code f₁)
    (hk : KeepsApart [] s.names c.function s₁.names f₁)
    (ht : emit (Build.append t) s₁ = .ok ((), s')) (hends : π.Ends f₁ t)
    (hcode : ∀ code, Emits m.globals x () code → ∃ p : Place, p.Within q ∧
      CodeOf m.globals p action code none)
    (hnone : action.declarations = []) :
    ∃ c', Stage π q m c₀ (c'.current :: ks) s' c' ∧ ¬c'.isOpen c'.current ∧
      c'.current = c.current ∧ c'.log = c.log ++ [action] ∧ ∀ f H, c'.Becomes f H →
        H.Does c.current c.index action ∧ EndsAt f H c.current (c.index + 1) t := by
  obtain ⟨_, hs'⟩ := append_ok hs ht
  let piece : BasicSSA.Piece := ⟨action, code ++ [t], none⟩
  have hb : (f₁.push c.current t).block c.current =
      { f₁.block c.current with instrs := (f₁.block c.current).instrs ++ [t] } :=
    Function.block_push hs.inside
  have hemit : Emits m.globals x () (code ++ [t]) :=
    ⟨s, s', _, _, by rw [h.state.finished], hxs, h.state.block?, hs'.block?, by
      simp [hb, hf.block.instrs]⟩
  have hg := Draft.Grown.grow ho hf piece
  have ho₁ : (c.grow f₁ piece).isOpen c.current := hf.block.isTerminated_eq.trans ho
  have hg₁ : (c.grow f₁ piece).Grown _ := .finish ho₁ t
  have hhere : Here m s' ((c.grow f₁ piece).finish t) :=
    Here.keep (c := c.grow f₁ piece) (h.state.grow hs (hnone ▸ hk)) hs' (keeps_of_emit ht) rfl rfl
  refine ⟨(c.grow f₁ piece).finish t, ⟨hhere, h.ok.leave ho hf hends (hcode _ hemit),
    (h.grown.trans hg).trans hg₁, fun rest hp => ?_⟩, ?_, rfl, rfl, fun f H hb => ⟨?_, ?_⟩⟩
  · exact (((h.pending rest hp).grow hf).finish hends.terminator).mono fun k hk =>
      List.mem_cons_of_mem _ hk
  · simp [Draft.isOpen, Draft.finish, Draft.grow, hb, IL.Block.isTerminated,
      IL.Block.terminator?_push hends.terminator]
  · exact (hg₁.becomes hb).does
  · have := hb.endsAt hs.inside hends.terminator
    simpa [Draft.index, Draft.grow] using this

end

end Stage

/-! ### New blocks -/

/-- Blocks have been made at the spot where the draft `c₀` ends. They are still blank. -/
structure Opened (π : Policy) (q : Place) (m : Module) (c₀ : Draft) (ks : List Nat) (s : LowerState)
    (c : Draft) : Prop extends Stage π q m c₀ (c₀.current :: ks) s c where
  inside : c₀.current < c₀.function.blocks.length
  isOpen : c.isOpen c.current
  current : c.current = c₀.current
  pieces : c.pieces = c₀.pieces
  log : c.log = c₀.log
  nodup : ks.Nodup
  blank : ∀ k ∈ ks, c.Blank k ∧ c₀.function.blocks.length ≤ k

/-- The blocks `ks` were made since the draft `c₀`, and wait for their code. All others that were made
have their end. -/
structure Rest (π : Policy) (q : Place) (m : Module) (c₀ : Draft) (ks : List Nat) (s : LowerState)
    (c : Draft) : Prop extends Stage π q m c₀ ks s c where
  inside : c₀.current < c₀.function.blocks.length
  nodup : ks.Nodup
  blank : ∀ k ∈ ks, c.Blank k ∧ c₀.function.blocks.length ≤ k

namespace Opened

theorem start (hs : Here m s c) (hok : c.Ok π q m.globals) (ho : c.isOpen c.current) :
    Opened π q m c [] s c :=
  ⟨.start hs hok, hok.inside, ho, rfl, rfl, rfl, .nil, by simp⟩

section

variable (h : Opened π q m c₀ ks s c)

include h

theorem has (hk : k ∈ ks) : c.Has k :=
  have ⟨hblank, hle⟩ := h.blank k hk
  ⟨Nat.lt_of_lt_of_le (Nat.zero_lt_of_lt h.inside) hle, hblank.inside⟩

theorem had (hk : c₀.Has k) : c.Has k :=
  ⟨hk.1, Nat.lt_of_lt_of_le hk.2 h.grown.length_le⟩

theorem ne_current (hk : k ∈ ks) : k ≠ c.current := by
  have := (h.blank k hk).2
  have := h.inside
  have := h.current
  omega

theorem addBlock (hx : emit (Build.addBlock l) s = .ok (k, s')) :
    ∃ c', Opened π q m c₀ (k :: ks) s' c' := by
  obtain ⟨rfl, hst⟩ := h.toStage.addBlock hx
  refine ⟨c.addBlock l, hst.reorder (by grind), h.inside, ?_, h.current, h.pieces, h.log,
    List.nodup_cons.mpr ⟨fun hmem => Nat.lt_irrefl _ (h.has hmem).2, h.nodup⟩,
    List.forall_mem_cons.mpr ⟨⟨.addBlock h.ok, h.grown.length_le⟩, fun k hk => ?_⟩⟩
  · rw [Draft.isOpen, Draft.addBlock, Function.block_addBlock h.ok.inside]
    exact h.isOpen
  · exact ⟨(h.blank k hk).1.keep (.addBlock c l) (h.ne_current hk), (h.blank k hk).2⟩

theorem newBlock (hx : newBlock hint s = .ok (k, s')) :
    ∃ c', Opened π q m c₀ (k :: ks) s' c' := by
  obtain ⟨l, t, hl, hx⟩ := bind_ok.mp hx
  exact addBlock { h with toStage := h.toStage.label hl } hx

theorem newBlocks (hx : newBlocks hints s = .ok (blocks, s')) :
    ∃ c', Opened π q m c₀ (blocks ++ ks) s' c' ∧ blocks.length = hints.length := by
  induction hints generalizing s c ks blocks with
  | nil =>
    obtain ⟨rfl, rfl⟩ := pure_ok.mp hx
    exact ⟨c, h, rfl⟩
  | cons hint hints ih =>
    obtain ⟨k, t₁, hk, hx⟩ := bind_ok.mp hx
    obtain ⟨rest, t₂, hrest, hx⟩ := bind_ok.mp hx
    obtain ⟨rfl, rfl⟩ := pure_ok.mp hx
    obtain ⟨c₁, h₁⟩ := h.newBlock hk
    obtain ⟨c₂, h₂, hlen⟩ := ih h₁ hrest
    exact ⟨c₂, { h₂ with
      toStage := h₂.toStage.reorder (by grind)
      nodup := List.perm_middle.nodup h₂.nodup
      blank := fun k hk => h₂.blank k (by grind) }, by simp [hlen]⟩

theorem elseBlock (hx : elseBlock hint e s = .ok (no, s')) :
    ∃ c', Opened π q m c₀ (no.toList ++ ks) s' c' ∧ no.isNone = e.isNothing := by
  obtain ⟨l, t, hl, hx⟩ := bind_ok.mp hx
  have ht : Opened π q m c₀ ks t c := { h with toStage := h.toStage.label hl }
  cases he : e.isNothing with
  | true =>
    rw [he] at hx
    obtain ⟨rfl, rfl⟩ := pure_ok.mp hx
    exact ⟨c, ht, rfl⟩
  | false =>
    rw [he] at hx
    obtain ⟨k, t', hk, hx⟩ := bind_ok.mp hx
    obtain ⟨rfl, rfl⟩ := pure_ok.mp hx
    obtain ⟨c', h'⟩ := ht.addBlock hk
    exact ⟨c', h', rfl⟩

theorem index : c.index = c₀.index := by
  rw [Draft.index, h.pieces, h.current, Draft.index]

/-- The block where the draft ended has got its end. -/
theorem close (h' : Stage π q m c₀ ks s' c') (hg : c.Grown c')
    (ha : c.Adds as P c') : Rest π q m c₀ ks s' c' ∧ c₀.Adds as P c' := by
  refine ⟨⟨h', h.inside, h.nodup, fun k hk => ?_⟩,
    Nat.le_trans h.grown.length_le ha.length_le, by rw [ha.log, h.log], fun f H hb => ?_⟩
  · exact ⟨(h.blank k hk).1.keep hg (h.ne_current hk), (h.blank k hk).2⟩
  · exact ⟨h.grown.becomes (ha.becomes f H hb).1, (ha.becomes f H hb).2⟩

theorem jump (hx : jump k loc s = .ok (u, s')) (hk : k ∈ ks) :
    ∃ c', Rest π q m c₀ ks s' c' ∧
      c₀.Adds [] (fun f H => Jumps f H c₀.current c₀.index k) c' := by
  obtain ⟨c', h', hf, hF⟩ := Stage.jump (h.current ▸ h.toStage) hx (h.has hk)
  rw [h.current, h.index] at hF
  exact ⟨c', h.close h' hf.grown (hf.adds hF)⟩

theorem branch (hx : branch v yes no loc s = .ok (u, s'))
    (hv : (c₀.pieces c₀.current).getLast?.bind (·.value) = some v) (hfits : π.Fits v)
    (hyes : c.Has yes) (hno : c.Has no) :
    ∃ c', Rest π q m c₀ ks s' c' ∧
      c₀.Adds [] (fun f H => Branches f H c₀.current c₀.index yes no) c' := by
  obtain ⟨c', h', hf, hF⟩ := Stage.branch (h.current ▸ h.toStage) hx hyes hno
    (by rw [h.pieces, h.current]; exact hv) hfits
  rw [h.current, h.index] at hF
  exact ⟨c', h.close h' hf.grown (hf.adds hF)⟩

end

end Opened

namespace Rest

theorem has (h : Rest π q m c₀ ks s c) (hk : k ∈ ks) : c.Has k :=
  have ⟨hblank, hle⟩ := h.blank k hk
  ⟨Nat.lt_of_lt_of_le (Nat.zero_lt_of_lt h.inside) hle, hblank.inside⟩

/-- A block that waited has got its code, up to its end. -/
theorem within (h : Rest π q m c₀ (l ++ k :: r) s c)
    (h' : Stage π q m (c.goto k) [] s' c') : Rest π q m c₀ (l ++ r) s' c' := by
  have hmem : k ∈ l ++ k :: r := by simp
  obtain ⟨hne, hnodup⟩ := List.nodup_cons.mp (List.perm_middle.nodup h.nodup)
  refine ⟨⟨h'.state, h'.ok, (h.grown.goto (h.blank k hmem).2).trans h'.grown, fun rest hp => ?_⟩,
    h.inside, hnodup, fun j hj => ?_⟩
  · refine h'.pending (l ++ r ++ rest) ((h.pending rest hp).mono fun j hj => ?_)
    show j ∈ k :: (l ++ r ++ rest)
    grind
  · obtain ⟨hblank, hle⟩ := h.blank j (by grind)
    exact ⟨hblank.goto.keep h'.grown fun he : j = k => hne (he ▸ hj), hle⟩

/-- A compound statement goes on after its last block. -/
theorem ends (h : Rest π q m c₁ [leave] s c') (h₀ : Stage π q m c [c₁.current] s₁ c₁)
    (ha : c.Adds as P c') (hactions : as = Λ.actions) (hleaves : Λ.leaves = false)
    (hP : ∀ f H, P f H → (∀ o fuel,
      Follows f H o loops fuel c.current c.index (R o fuel) leave 0) ∧ Λ.Lies f H loops c.current leave)
    (hend : continueAt leave s = .ok ((), s')) :
    ∃ c', Stage π q m c [c'.current] s' c' ∧ Lowered loops R Λ c c' := by
  obtain ⟨hblank, hle⟩ := h.blank leave (by simp)
  refine ⟨c'.goto leave, h₀.trans (h.toStage.goto hend hblank.inside hle), fun f H hb o fuel => ?_,
    fun hc => absurd hblank.isOpen hc, ⟨fun _ => hleaves, fun _ => hblank.isOpen⟩, hactions ▸ ha.log,
    fun f H hb => (hP f H (ha.becomes f H hb.goto).2).2⟩
  rw [hblank.index]
  exact (hP f H (ha.becomes f H hb.goto).2).1 o fuel

end Rest

end BasicSSA.Lower
