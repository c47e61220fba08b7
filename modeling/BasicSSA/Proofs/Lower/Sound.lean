import BasicSSA.Proofs.Lower.Certificate
import BasicSSA.Proofs.Lower.Discipline.Simple
import BasicSSA.Proofs.Lower.Naming
import BasicSSA.Proofs.Lower.Steps

/-!
# Sound lowering

The state of lowering is sound if the function under construction has a certificate that all it uses
is defined, its labels are those that were given out, and the definitions in a single block are
counted. What a block may rely on is fixed when it is made, and whoever jumps to it must have it.
Lowering stops only for what analysis does not look at.
-/

namespace BasicSSA

open IL (Value Ty Opcode Instr Block Function Module Build Key Given Consecutive Global)

/-- The state with another function under construction. -/
def LowerState.withFunction (s : LowerState) (f : Function) : LowerState :=
  { s with builder := { s.builder with function := some f } }

/-- The state where one more temporary is used. -/
def LowerState.withTemp (s : LowerState) : LowerState :=
  { s with builder := { s.builder with nextTemp := s.builder.nextTemp + 1 } }

namespace Lower

/-! ### Steps of the builder -/

section

variable (hs : At s m f n)

include hs

theorem At.withFunction (hlen : f'.blocks.length = f.blocks.length) : At (s.withFunction f') m f' n :=
  ⟨hs.finished, rfl, hs.current, hlen ▸ hs.inside⟩

theorem At.modifyFunction (change : Function → Function) :
    s.builder.modifyFunction change = (s.withFunction (change f)).builder := by
  simp [IL.Builder.modifyFunction, hs.function, LowerState.withFunction]

theorem At.emit_append (ho : (f.block n).isTerminated = false) :
    emit (Build.append i) s = .ok ((), s.withFunction (f.push n i)) := by
  unfold emit
  rw [hs.run_append, ho]
  simp only [Bool.false_eq_true, if_false, IL.Builder.modifyBlock, hs.current, hs.modifyFunction]
  rfl

theorem At.withTemp : At s.withTemp m f n :=
  ⟨hs.finished, hs.function, hs.current, hs.inside⟩

theorem At.emit_appendResult (ho : (f.block n).isTerminated = false) :
    emit (Build.appendResult i) s = .ok (.temp s.builder.nextTemp i.type,
      s.withTemp.withFunction
        (f.push n { i with result := some (.temp s.builder.nextTemp i.type) })) := by
  unfold Build.appendResult
  rw [emit_bind]
  have htemp : emit (Build.freshTemp i.type) s =
      .ok (.temp s.builder.nextTemp i.type, s.withTemp) := rfl
  rw [bind_apply, htemp]
  simp only [emit_bind, bind_apply, hs.withTemp.emit_append ho]
  rfl

theorem At.emit_addLocal :
    emit (Build.addLocal l) s = .ok ((), s.withFunction { f with locals := f.locals ++ [l] }) := by
  show Except.ok ((), { s with builder := s.builder.modifyFunction _ }) = _
  rw [hs.modifyFunction]
  rfl

theorem At.emit_addBlock (he : l.isEmpty = false)
    (hl : l ∉ f.blocks.map (·.label)) :
    emit (Build.addBlock l) s = .ok (f.blocks.length, s.withFunction (f.addBlock l)) := by
  have hhas : f.hasBlock l = false := by
    simpa [Function.hasBlock, Function.blockIdx?] using hl
  unfold emit
  rw [Build.run_addBlock, hs.function]
  simp only [he, hhas, Bool.false_eq_true, if_false, hs.modifyFunction]
  rfl

/-- The result of the last instruction is given to a variable, or nothing happens. -/
theorem At.emit_renameResult (v target : Value) :
    emit (Build.renameResult v target) s = .ok (false, s) ∨
      ∃ last, (f.block n).instrs.getLast? = some last ∧ Build.canRename v target last = true ∧
        emit (Build.renameResult v target) s =
          .ok (true, s.withFunction (f.setResult n last target)) := by
  unfold emit
  rw [Build.run_renameResult, hs.block?, Option.bind_some]
  cases hlast : (f.block n).instrs.getLast? with
  | none => exact .inl rfl
  | some last =>
    by_cases hc : Build.canRename v target last = true
    · refine .inr ⟨last, rfl, hc, ?_⟩
      simp only [hc, if_true, IL.Builder.modifyBlock, hs.current, hs.modifyFunction]
      rfl
    · exact .inl (by simp [hc])

/-- A new version of a name gets a copy of a value, or the result of the last instruction. -/
theorem At.bindName (ho : (f.block n).isTerminated = false)
    (ht : target = .var x ((s.names.latest.lookup x).getD 0 + 1) type) (v : Value) (loc : Loc) :
    bindName x type v loc s = .ok ((),
      LowerState.withFunction { s with names := (s.names.newVersion x).2 } (f.push n
        { op := .assign, type, result := some target, operands := [v], loc })) ∨
    ∃ last, (f.block n).instrs.getLast? = some last ∧ Build.canRename v target last = true ∧
      bindName x type v loc s = .ok ((),
        LowerState.withFunction { s with names := (s.names.newVersion x).2 }
          (f.setResult n last target)) := by
  subst ht
  have hs₁ : At { s with names := (s.names.newVersion x).2 } m f n :=
    ⟨hs.finished, hs.function, hs.current, hs.inside⟩
  have hrun : Lower.bindName x type v loc s =
      (emit (Build.renameResult v (.var x ((s.names.latest.lookup x).getD 0 + 1) type)) >>=
        fun done => if !done then
          emit (Build.assign (.var x ((s.names.latest.lookup x).getD 0 + 1) type) v loc)
        else pure ()) { s with names := (s.names.newVersion x).2 } := rfl
  rw [hrun, bind_apply]
  rcases hs₁.emit_renameResult v _ with hr | ⟨last, hlast, hc, hr⟩
  · rw [hr]
    exact .inl (hs₁.emit_append ho)
  · rw [hr]
    exact .inr ⟨last, hlast, hc, rfl⟩

end

theorem key?_of_canRename (h : Build.canRename v target last = true) :
    ∃ t type, v = .temp t type ∧ last.key? = some (.temp t) ∧ last.definedVar? = none := by
  simp only [Build.canRename, Bool.and_eq_true] at h
  obtain ⟨⟨⟨⟨-, hv⟩, hr⟩, -⟩, -⟩ := h
  cases v with
  | temp t type =>
    cases hres : last.result with
    | none => simp [hres] at hr
    | some r =>
      cases r <;> simp_all [Value.same, Instr.key?, Value.key?, Instr.definedVar?]
  | _ => cases hv

/-! ### Sound states -/

namespace Config

/-- The function under construction. -/
def function (c : Config γ) : Function :=
  c.state.builder.function.getD default

/-- The block that takes new instructions. -/
def current (c : Config γ) : Nat :=
  c.state.builder.current.getD 0

/-- What is defined at the end of the current block. -/
def Out (c : Config Given) (x : Key) : Prop :=
  c.function.Out c.ghost c.current x

end Config

/-- The labels of a function are those that were given out. -/
structure Labelled (f : Function) (labels : List (String × Nat)) : Prop where
  made : ∀ k, k < f.blocks.length → f.label k = "entry" ∨ ∃ hint count, isHint hint = true ∧
    f.label k = labelText hint count ∧ count < (labels.lookup hint).getD 0
  nodup : (f.blocks.map (·.label)).Nodup

/-- The variables of a module that are known have values that stand for themselves. -/
def KnownConstants (gs : List Global) : Prop :=
  ∀ g ∈ gs, ∀ v, g.init = some v → v.isConstant = true

theorem KnownConstants.known {m : Module} (h : KnownConstants m.globals)
    (hv : (m.global? name).bind Global.known? = some v) : v.isConstant = true := by
  obtain ⟨g, hg, hv⟩ := Option.bind_eq_some_iff.mp hv
  unfold Global.known? at hv
  split at hv
  · exact h g (List.mem_of_find?_eq_some hg) v hv
  · cases hv

/-- A sound state, with blocks that are still empty. -/
structure Sound (m : Module) (ps : List Nat) (c : Config Given) : Prop where
  known : KnownConstants m.globals
  inside : At c.state m c.function c.current
  current : c.current ∉ ps
  blank : ∀ k ∈ ps, k < c.function.blocks.length ∧ (c.function.block k).instrs = []
  nodup : ps.Nodup
  labelled : Labelled c.function c.state.names.labels
  certified : c.function.Certified c.ghost c.nextTemp
  numbered : c.function.blocks.length = 1 →
    Consecutive (c.function.block 0).instrs c.state.names.latest

theorem map_label_eq {f f' : Function} (hlen : f'.blocks.length = f.blocks.length)
    (h : ∀ k, f'.label k = f.label k) : f'.blocks.map (·.label) = f.blocks.map (·.label) := by
  refine List.ext_getElem (by simpa using hlen) fun k hk hk' => ?_
  have := h k
  simp only [List.length_map] at hk hk'
  simpa [Function.label, Function.block, hk, hk'] using this

namespace Sound

theorem ne_nil (h : Sound m ps c) : c.function.blocks ≠ [] :=
  List.ne_nil_of_length_pos (Nat.zero_lt_of_lt h.inside.inside)

theorem perm (hp : ps.Perm qs) (h : Sound m ps c) : Sound m qs c :=
  { h with
    current := fun hm => h.current (hp.mem_iff.mpr hm)
    blank := fun k hk => h.blank k (hp.mem_iff.mpr hk)
    nodup := hp.nodup_iff.mp h.nodup }

/-- A state where only the current block of the function is another one. -/
theorem change (h : Sound m ps c) (hs : At s m f c.current)
    (hlen : f.blocks.length = c.function.blocks.length)
    (hlabel : ∀ k, f.label k = c.function.label k)
    (hother : ∀ k, k ≠ c.current → f.block k = c.function.block k)
    (hlabels : s.names.labels = c.state.names.labels)
    (hcert : f.Certified c.ghost s.builder.nextTemp)
    (hnum : c.function.blocks.length = 1 → Consecutive (f.block 0).instrs s.names.latest) :
    Sound m ps ⟨c.ghost, s⟩ := by
  have hf : Config.function ⟨c.ghost, s⟩ = f := by simp [Config.function, hs.function]
  have hc : Config.current ⟨c.ghost, s⟩ = c.current := by
    simp [Config.current, hs.current]
  constructor
  case known => exact h.known
  case inside => rwa [hf, hc]
  case current => exact hc ▸ h.current
  case blank =>
    rw [hf]
    intro k hk
    obtain ⟨hlt, hblank⟩ := h.blank k hk
    have hne : k ≠ c.current := fun he => h.current (he ▸ hk)
    exact ⟨hlen ▸ hlt, by rw [hother k hne, hblank]⟩
  case nodup => exact h.nodup
  case labelled =>
    rw [hf]
    refine ⟨fun k hk => ?_, map_label_eq hlen hlabel ▸ h.labelled.nodup⟩
    rw [hlabel, hlabels]
    exact h.labelled.made k (hlen ▸ hk)
  case certified => rwa [hf]
  case numbered =>
    rw [hf]
    exact fun h1 => hnum (hlen ▸ h1)

theorem rename (h : Sound m ps c) (names : Names) (hl : names.labels = c.state.names.labels)
    (hv : names.latest = c.state.names.latest) :
    Sound m ps ⟨c.ghost, { c.state with names }⟩ :=
  h.change ⟨h.inside.finished, h.inside.function, h.inside.current, h.inside.inside⟩ rfl
    (fun _ => rfl) (fun _ _ => rfl) hl h.certified fun h1 => hv ▸ h.numbered h1

/-- The number of the current block if there is only one. -/
theorem current_eq_zero (h : Sound m ps c) (h1 : c.function.blocks.length = 1) : c.current = 0 := by
  have := h.inside.inside
  omega

theorem push (h : Sound m ps c)
    (hs : At s m c.function c.current) (hnext : c.nextTemp ≤ s.builder.nextTemp)
    (hlabels : s.names.labels = c.state.names.labels)
    (huses : ∀ v ∈ i.operands, ∀ x, v.key? = some x → c.Out x)
    (hedges : ∀ l ∈ i.labels, ∃ k', k' < c.function.blocks.length ∧ c.function.label k' = l ∧
      ∀ x, c.ghost k' x → c.Out x)
    (hkey : ∀ t, i.key? = some (.temp t) → c.nextTemp ≤ t ∧ t < s.builder.nextTemp)
    (hnum : c.function.blocks.length = 1 →
      Consecutive ((c.function.block 0).instrs ++ [i]) s.names.latest) :
    Sound m ps ⟨c.ghost, s.withFunction (c.function.push c.current i)⟩ := by
  have hin := h.inside.inside
  refine h.change (hs.withFunction (by simp)) (by simp) (by simp)
    (fun k hk => Function.block_push_ne hk) hlabels
    (h.certified.push hin hnext huses hedges hkey) fun h1 => ?_
  have h0 := h.current_eq_zero h1
  rw [h0] at hin ⊢
  rw [Function.block_push hin]
  exact hnum h1

end Sound

/-! ### Later states -/

namespace Config

/-- Temporaries are not used again, and variables keep their names. -/
structure Grew (b c : Config Given) : Prop where
  temps : b.nextTemp ≤ c.nextTemp
  names : ∀ x name, b.state.names.varNames.lookup x = some name →
    c.state.names.varNames.lookup x = some name

/-- All that was defined is defined. -/
structure Avail (b c : Config Given) : Prop extends Grew b c where
  out : ∀ x, b.Out x → c.Out x

/-- A later state in the same block. -/
structure SameBlock (b c : Config Given) : Prop extends Avail b c where
  ghost : b.ghost = c.ghost
  length : b.function.blocks.length = c.function.blocks.length

/-- A later state, where the blocks are given the same. -/
structure After (b c : Config Given) : Prop extends Grew b c where
  given : ∀ k, k < b.function.blocks.length → c.ghost k = b.ghost k
  length : b.function.blocks.length ≤ c.function.blocks.length

variable {a b c base : Config Given}

theorem Grew.refl (c : Config Given) : c.Grew c :=
  ⟨Nat.le_refl _, fun _ _ h => h⟩

theorem Grew.trans (h₁ : a.Grew b) (h₂ : b.Grew c) : a.Grew c :=
  ⟨Nat.le_trans h₁.temps h₂.temps, fun x name h => h₂.names x name (h₁.names x name h)⟩

theorem Avail.refl (c : Config Given) : c.Avail c :=
  ⟨.refl c, fun _ h => h⟩

theorem Avail.trans (h₁ : a.Avail b) (h₂ : b.Avail c) : a.Avail c :=
  ⟨h₁.toGrew.trans h₂.toGrew, fun x h => h₂.out x (h₁.out x h)⟩

theorem SameBlock.refl (c : Config Given) : c.SameBlock c :=
  ⟨.refl c, rfl, rfl⟩

theorem SameBlock.trans (h₁ : a.SameBlock b) (h₂ : b.SameBlock c) : a.SameBlock c :=
  ⟨h₁.toAvail.trans h₂.toAvail, h₁.ghost.trans h₂.ghost, h₁.length.trans h₂.length⟩

theorem SameBlock.after (h : b.SameBlock c) : b.After c :=
  ⟨h.toGrew, fun k _ => by rw [h.ghost], Nat.le_of_eq h.length⟩

theorem After.refl (c : Config Given) : c.After c :=
  (SameBlock.refl c).after

theorem After.trans (h₁ : a.After b) (h₂ : b.After c) : a.After c where
  toGrew := h₁.toGrew.trans h₂.toGrew
  given k hk := (h₂.given k (Nat.lt_of_lt_of_le hk h₁.length)).trans (h₁.given k hk)
  length := Nat.le_trans h₁.length h₂.length

/-- The keys of a value are defined. A temporary has at least the number `k`. -/
def Has (k : Nat) (c : Config Given) (v : Value) : Prop :=
  ∀ x, v.key? = some x → c.Out x ∧ ∀ t, x = .temp t → k ≤ t

theorem has_global : Config.Has k c (.global name type) := by
  rintro x ⟨⟩

theorem has_int : Config.Has k c (.int n type) := by
  rintro x ⟨⟩

theorem Has.keep (hv : b.Has k v) (h : b.Avail c) : c.Has k v :=
  fun x hx => ⟨h.out x (hv x hx).1, (hv x hx).2⟩

/-- The current block takes more instructions. -/
def IsOpen (c : Config Given) : Prop :=
  (c.function.block c.current).isTerminated = false

/-- A name of a variable is defined. -/
def Knows (c : Config Given) (name : String) : Prop :=
  c.Out (.var name)

theorem Knows.keep (hk : b.Knows name) (h : b.Avail c) : c.Knows name :=
  h.out _ hk

def Named (c : Config Given) (x : SymbolId) (name : String) : Prop :=
  c.state.names.varNames.lookup x = some name

/-- A variable may be read. -/
def Reads (c : Config Given) (x : SymbolId) : Prop :=
  ∃ name, c.Named x name ∧ c.Knows name

theorem Reads.keep (hr : b.Reads x) (h : b.Avail c) : c.Reads x :=
  have ⟨name, hn, hk⟩ := hr
  ⟨name, h.names _ name hn, hk.keep h⟩

/-- A block is given what is defined at `base`, so whoever jumps to it must have that. -/
def Target (c : Config Given) (k : Nat) (base : Config Given) : Prop :=
  k < c.function.blocks.length ∧ (∀ x, c.ghost k x ↔ base.Out x) ∧ base.Grew c

theorem Target.later (ht : b.Target k base) (h : b.After c) : c.Target k base :=
  have ⟨hk, hgiven, hgrew⟩ := ht
  ⟨Nat.lt_of_lt_of_le hk h.length, fun x => by rw [h.given _ hk]; exact hgiven x,
    hgrew.trans h.toGrew⟩

theorem Target.edge (ht : c.Target k base) (hb : base.Avail c) :
    ∃ k', k' < c.function.blocks.length ∧ c.function.label k' = c.function.label k ∧
      ∀ x, c.ghost k' x → c.Out x :=
  ⟨k, ht.1, rfl, fun x hx => hb.out x ((ht.2.1 x).mp hx)⟩

end Config

/-! ### Code -/

namespace Sound

/-- Code may be added. The listed blocks are still empty. -/
def Open (m : Module) (ps : List Nat) (c : Config Given) : Prop :=
  Sound m ps c ∧ c.IsOpen

/-- The current block has its last instruction. The listed blocks are still empty. -/
def Shut (m : Module) (ps : List Nat) (c : Config Given) : Prop :=
  Sound m ps c ∧ ¬ c.IsOpen

/-- In one block, code uses what is defined, and lowering stops only for what analysis does not look
at. -/
def code (m : Module) (ps : List Nat) : Discipline Given where
  Inv := Open m ps
  Le := Config.SameBlock
  time := Config.nextTemp
  Made := Config.Has
  Reads := Config.Reads
  Names := Config.Named
  Knows := Config.Knows
  Calls _ := True
  Stores _ := True
  Ints _ := True
  Counts _ := True
  Fails := LowerError.IsGap

/-- What a step leads to, unless it stops for what analysis does not look at. -/
def Flows (c : Config Given) (x : Lower α) (Q : Config Given → α → Prop) : Prop :=
  match x c.state with
  | .ok (a, s) => ∃ g, c.After ⟨g, s⟩ ∧ Q ⟨g, s⟩ a
  | .error e => e.IsGap

end Sound

theorem isTerminated_push {f : Function} (hn : n < f.blocks.length) :
    ((f.push n i).block n).isTerminated = i.op.isTerminator := by
  rw [Function.block_push hn]
  cases h : i.op.isTerminator <;> simp [Block.isTerminated, Block.terminator?, h, Option.filter]

theorem isTerminated_eq {b : Block} (h : b.instrs.getLast? = some last) :
    b.isTerminated = last.op.isTerminator := by
  cases ht : last.op.isTerminator <;> simp [Block.isTerminated, Block.terminator?, h, ht, Option.filter]

theorem At.current_withFunction (hs : At s m f n) :
    Config.current ⟨g, s.withFunction f'⟩ = n := by
  simp [Config.current, LowerState.withFunction, hs.current]

variable {c : Config Given}

theorem Config.SameBlock.rename (names : Names)
    (h : ∀ x name, c.Named x name → names.varNames.lookup x = some name) :
    c.SameBlock ⟨c.ghost, { c.state with names }⟩ :=
  ⟨⟨⟨Nat.le_refl _, h⟩, fun _ hx => hx⟩, rfl, rfl⟩

theorem read_of_named (hn : c.Named x name) :
    read p x c.state =
      .ok (.var name (c.state.names.version name) (p.typeOfSymbol x), c.state) := by
  have hname : c.state.names.nameOf x (p.tree.symbol x).name = (name, c.state.names) :=
    Names.nameOf_of_lookup hn
  show Except.ok (Value.var (c.state.names.nameOf x (p.tree.symbol x).name).1
    (Names.version (c.state.names.nameOf x (p.tree.symbol x).name).2
      (c.state.names.nameOf x (p.tree.symbol x).name).1) (p.typeOfSymbol x),
    { c.state with names := (c.state.names.nameOf x (p.tree.symbol x).name).2 }) = _
  rw [hname]

namespace Sound

section

variable (h : Sound m ps c) (hs : At s m c.function c.current)

include h hs

theorem sameBlock_push (hg : c.Grew ⟨c.ghost, s⟩) :
    c.SameBlock ⟨c.ghost, s.withFunction (c.function.push c.current i)⟩ where
  temps := hg.temps
  names := hg.names
  out x hx := by
    rw [Config.Out, hs.current_withFunction]
    exact (Function.out_push h.inside.inside).mpr (.inl hx)
  ghost := rfl
  length := by simp [Config.function, LowerState.withFunction]

theorem out_pushed (hk : i.key? = some x) :
    Config.Out ⟨c.ghost, s.withFunction (c.function.push c.current i)⟩ x := by
  rw [Config.Out, hs.current_withFunction]
  exact (Function.out_push h.inside.inside).mpr (.inr ⟨rfl, hk⟩)

theorem isOpen_pushed :
    Config.IsOpen ⟨c.ghost, s.withFunction (c.function.push c.current i)⟩ ↔
      i.op.isTerminator = false := by
  rw [Config.IsOpen, hs.current_withFunction]
  show ((c.function.push c.current i).block c.current).isTerminated = false ↔ _
  rw [isTerminated_push h.inside.inside]

end

namespace Open

theorem append (h : Open m ps c) (hop : i.op.isTerminator = false)
    (hresult : i.result = none) (hlabels : i.labels = []) (hv : ∀ v ∈ i.operands, c.Has 0 v) :
    (code m ps).Runs c c (emit (Build.append i)) fun _ _ => True := by
  obtain ⟨h, ho⟩ := h
  have hs := h.inside
  unfold Discipline.Runs
  rw [hs.emit_append ho]
  refine ⟨c.ghost, ⟨?_, (h.isOpen_pushed hs).mpr hop⟩, h.sameBlock_push hs (.refl c), trivial⟩
  refine h.push hs (Nat.le_refl _) rfl (fun v hm x hx => (hv v hm x hx).1) ?_ ?_ fun h1 => ?_
  · simp [hlabels]
  · simp [Instr.key?, hresult]
  · exact (h.numbered h1).push (by simp [Instr.definedVar?, hresult])

theorem appendResult (h : Open m ps c) (hop : i.op.isTerminator = false)
    (hlabels : i.labels = []) (hv : ∀ v ∈ i.operands, c.Has 0 v) :
    (code m ps).Runs c c (emit (Build.appendResult i)) fun c' v =>
      Config.Has c.nextTemp c' v := by
  obtain ⟨h, ho⟩ := h
  have hs := h.inside
  unfold Discipline.Runs
  rw [hs.emit_appendResult ho]
  have hnext : c.nextTemp ≤ c.state.withTemp.builder.nextTemp := Nat.le_succ _
  refine ⟨c.ghost, ⟨?_, (h.isOpen_pushed hs.withTemp).mpr hop⟩,
    h.sameBlock_push hs.withTemp ⟨hnext, fun _ _ h => h⟩, fun x hx => ?_⟩
  · refine h.push hs.withTemp hnext rfl (fun v hm x hx => (hv v hm x hx).1) ?_ ?_ fun h1 => ?_
    · simp [hlabels]
    · intro t ht
      cases ht
      exact ⟨Nat.le_refl _, Nat.lt_succ_self _⟩
    · exact (h.numbered h1).push (by simp [Instr.definedVar?])
  · refine ⟨h.out_pushed hs.withTemp (by simpa [Instr.key?] using hx), fun t ht => ?_⟩
    cases hx
    cases ht
    exact Nat.le_refl _

theorem naming {g : Names → α × Names} (h : Open m ps c)
    (hl : (g c.state.names).2.labels = c.state.names.labels)
    (hv : (g c.state.names).2.latest = c.state.names.latest)
    (hn : ∀ x name, c.Named x name → (g c.state.names).2.varNames.lookup x = some name)
    {Q : Config Given → α → Prop}
    (hq : Q ⟨c.ghost, { c.state with names := (g c.state.names).2 }⟩ (g c.state.names).1) :
    (code m ps).Runs c c (naming g) Q :=
  ⟨c.ghost, ⟨h.1.rename _ hl hv, h.2⟩, .rename _ hn, hq⟩

theorem nameOf (h : Open m ps c) :
    (code m ps).Runs c c (nameOf p x) fun c' name => Config.Named c' x name := by
  obtain ⟨used, varNames, hkeeps⟩ :=
    Names.nameOf_keeps (n := c.state.names) (x := x) (w := (p.tree.symbol x).name)
  have hlookup := Names.lookup_nameOf (n := c.state.names) (x := x) (w := (p.tree.symbol x).name)
  exact h.naming (g := (·.nameOf x (p.tree.symbol x).name)) (by rw [hkeeps]) (by rw [hkeeps])
    hlookup.2 hlookup.1

theorem bindName (hb : Open m ps b) (h : Open m ps c)
    (hle : b.SameBlock c) (hv : c.Has b.nextTemp v) :
    (code m ps).Runs b c (bindName name type v loc) fun c' _ =>
      c'.Knows name ∧ ∀ x, c.Named x name → c'.Reads x := by
  obtain ⟨h, ho⟩ := h
  have hs := h.inside
  have hs₁ : At { c.state with names := (c.state.names.newVersion name).2 } m c.function
      c.current := ⟨hs.finished, hs.function, hs.current, hs.inside⟩
  have hnamed {c' : Config Given} (hk : c'.Knows name)
      (hn : c'.state.names.varNames = c.state.names.varNames) :
      c'.Knows name ∧ ∀ x, c.Named x name → c'.Reads x :=
    ⟨hk, fun x hx => ⟨name, by rw [Config.Named, hn]; exact hx, hk⟩⟩
  unfold Discipline.Runs
  rcases hs.bindName ho rfl v loc with hr | ⟨last, hlast, hc, hr⟩
  · -- The value is copied.
    rw [hr]
    refine ⟨c.ghost, ⟨?_, (h.isOpen_pushed hs₁).mpr rfl⟩,
      hle.trans (h.sameBlock_push hs₁ ⟨Nat.le_refl _, fun _ _ h => h⟩),
      hnamed (h.out_pushed hs₁ rfl) rfl⟩
    refine h.push hs₁ (Nat.le_refl _) rfl ?_ (by simp) ?_ fun h1 => ?_
    · intro w hw x hx
      obtain rfl : w = v := by simpa using hw
      exact (hv x hx).1
    · intro t ht
      cases ht
    · exact (h.numbered h1).pushDefinition rfl
  · -- The last instruction, which made the value, gives it to the variable.
    rw [hr]
    obtain ⟨t, type', rfl, hkey, hdef⟩ := key?_of_canRename hc
    have ht : b.nextTemp ≤ t := (hv _ rfl).2 t rfl
    have hgiven (k) : ¬ c.ghost k (.temp t) := fun hg =>
      absurd (hb.1.certified.belowGiven k t (hle.ghost ▸ hg)) (Nat.not_lt.mpr ht)
    have hout {x} (hx : b.Out x) : x ≠ .temp t := by
      rintro rfl
      exact absurd (hb.1.certified.belowOut hx) (Nat.not_lt.mpr ht)
    refine ⟨c.ghost, ⟨?_, ?_⟩, ⟨⟨⟨hle.temps, hle.names⟩, fun x hx => ?_⟩, hle.ghost, ?_⟩,
      hnamed ?_ rfl⟩
    · refine h.change (hs₁.withFunction (by simp)) (by simp) (by simp)
        (fun k hk => Function.block_setResult_ne hk) rfl
        (h.certified.setResult hs.inside hlast hkey hgiven rfl) fun h1 => ?_
      have h0 := h.current_eq_zero h1
      have hin := hs.inside
      rw [h0] at hin hlast ⊢
      obtain ⟨pre, hpre⟩ := List.getLast?_eq_some_iff.mp hlast
      have hnum := h.numbered h1
      rw [hpre] at hnum
      rw [Function.block_setResult hin, hpre, List.dropLast_concat]
      exact (hnum.init hdef).pushDefinition rfl
    · rw [Config.IsOpen, hs₁.current_withFunction]
      show Block.isTerminated (Function.block (Function.setResult ..) _) = false
      rw [Function.block_setResult hs.inside, isTerminated_eq List.getLast?_concat]
      exact (isTerminated_eq hlast).symm.trans ho
    · rw [Config.Out, hs₁.current_withFunction]
      exact Function.out_setResult hs.inside hlast (hle.out x hx)
        (by simpa [hkey] using (hout hx).symm)
    · simpa [Config.function, LowerState.withFunction] using hle.length
    · rw [Config.Knows, Config.Out, hs₁.current_withFunction]
      exact Function.out_setResult_self hs.inside hlast rfl

theorem made (hop : i.op.isTerminator = false) (hlabels : i.labels = [])
    (hv : ∀ v ∈ i.operands, c.Has 0 v) :
    (code m ps).Steps c (emit (Build.appendResult i)) (Config.Has c.nextTemp) :=
  fun _ hi hle => (appendResult hi hop hlabels fun v hm => (hv v hm).keep hle.toAvail).mono
    fun _ _ _ h x hx => ⟨(h x hx).1, fun t ht => Nat.le_trans hle.temps ((h x hx).2 t ht)⟩

theorem call (hv : ∀ v ∈ args, c.Has 0 v) : (code m ps).Steps c
    (emit (Build.call callee args type loc)) ((code m ps).MadeIfAny c.nextTemp) := by
  intro c' hi hle
  unfold Build.call
  split
  · rw [emit_bind]
    exact (append hi rfl rfl rfl fun v hm => (hv v hm).keep hle.toAvail).bind
      fun _ _ hi hle _ => .pure hi hle (by simp)
  · rw [emit_bind]
    exact (made rfl rfl hv c' hi hle).bind fun _ _ hi hle hv =>
      .pure hi hle (Discipline.madeIfAny_some.mpr hv)

theorem addLocal (h : Open m ps c) (hb : b.SameBlock c) :
    (code m ps).Runs b c (emit (Build.addLocal l)) fun _ _ => True := by
  have hs := h.1.inside
  unfold Discipline.Runs
  rw [hs.emit_addLocal]
  have hs' : At (c.state.withFunction { c.function with locals := c.function.locals ++ [l] }) m
      { c.function with locals := c.function.locals ++ [l] } c.current := hs.withFunction rfl
  have hc : Config.current ⟨c.ghost, c.state.withFunction
      { c.function with locals := c.function.locals ++ [l] }⟩ = c.current :=
    hs.current_withFunction
  refine ⟨c.ghost, ⟨?_, ?_⟩,
    hb.trans ⟨⟨⟨Nat.le_refl _, fun _ _ h => h⟩, fun x hx => ?_⟩, rfl, rfl⟩, trivial⟩
  · exact h.1.change hs' rfl (fun _ => rfl) (fun _ _ => rfl) rfl
      (h.1.certified.congr rfl rfl) h.1.numbered
  · rw [Config.IsOpen, hc]
    exact h.2
  · rw [Config.Out, hc]
    exact hx

end Open

theorem lawful : (code m ps).Lawful where
  refl := Config.SameBlock.refl
  trans := Config.SameBlock.trans
  temps h := h.temps
  keep h hv := Config.Has.keep hv h.toAvail
  weaken h hv x hx := ⟨(hv x hx).1, fun t ht => Nat.le_trans h ((hv x hx).2 t ht)⟩
  keepReads h hr := Config.Reads.keep hr h.toAvail
  keepKnows h hk := h.out _ hk
  literal hv x hx := by simp [Value.key?_eq_none hv.isConstant] at hx
  ints := ⟨trivial, trivial, fun _ _ => trivial⟩
  int _ := trivial
  known hi hv x hx := by
    rw [hi.1.inside.finished] at hv
    simp [Value.key?_eq_none (hi.1.known.known hv)] at hx
  gaps _ h := h
  runtimeCalls _ _ := trivial
  append hplain hv _ hi hle := Open.append hi hplain.not_terminator hplain.result hplain.labels
    fun v hm => (hv v hm).keep hle.toAvail
  appendResult hplain hv := Open.made hplain.not_terminator hplain.labels hv
  call _ hv := Open.call hv
  newArray _ := Open.call (by simpa using Config.has_int)
  element _ ha := Open.made rfl rfl (by simpa using ⟨ha, Config.has_int⟩)
  loadGlobal := Open.made rfl rfl (by simpa using Config.has_global)
  setGlobal _ hv _ hi hle := Open.append hi rfl rfl rfl
    (by simpa using ⟨Config.has_global, hv.keep hle.toAvail⟩)
  read := by
    rintro c k p x hr c' hi hle
    obtain ⟨name, hn, hk⟩ := hr.keep hle.toAvail
    unfold Discipline.Runs
    rw [read_of_named hn]
    refine ⟨c'.ghost, hi, .refl c', fun x hx => ?_⟩
    cases hx
    exact ⟨hk, by simp⟩
  readName := by
    intro c k name type hk c' hi hle
    refine ⟨c'.ghost, hi, .refl c', fun x hx => ?_⟩
    cases hx
    exact ⟨hk.keep hle.toAvail, by simp⟩
  nameOf _ _ _ hi _ := Open.nameOf hi
  newIndex := by
    intro _ c hi _
    obtain ⟨used, hu⟩ := Names.fresh_keeps (n := c.state.names) (b := "__idx")
    have hname : (code m ps).Runs c c (Lower.naming (·.fresh "__idx")) fun _ _ => True :=
      Open.naming hi (by rw [hu]) (by rw [hu]) (fun x name h => by rw [hu]; exact h) trivial
    exact hname.bind fun _ _ hi hle _ => (Open.addLocal hi hle).bind fun _ _ hi hle _ =>
      .pure hi hle trivial

theorem binds : (code m ps).Binds :=
  fun _ _ _ _ _ _ hb hc hle hv => Open.bindName hb hc hle hv

theorem declares : (code m ps).Declares :=
  fun _ _ _ _ hi _ => (Open.nameOf hi).bind fun _ _ hi hle _ => Open.addLocal hi hle

end Sound

/-! ### Blocks -/

namespace Labelled

theorem more (h : Labelled f labels) (hint : String) :
    Labelled f ((hint, (labels.lookup hint).getD 0 + 1) :: labels) where
  made k hk := by
    refine (h.made k hk).imp_right fun ⟨a, count, ha, hl, hc⟩ => ⟨a, count, ha, hl, ?_⟩
    rw [List.lookup_cons]
    split
    · rename_i heq
      obtain rfl := beq_iff_eq.mp heq
      simp only [Option.getD_some]
      omega
    · exact hc
  nodup := h.nodup

theorem fresh (h : Labelled f labels) (hh : isHint hint = true) :
    labelText hint ((labels.lookup hint).getD 0) ∉ f.blocks.map (·.label) := by
  intro hm
  obtain ⟨k, hk, hlabel⟩ := List.mem_iff_getElem.mp hm
  simp only [List.length_map] at hk
  have hlabel : f.label k = labelText hint ((labels.lookup hint).getD 0) := by
    simpa [Function.label, Function.block, hk] using hlabel
  rcases h.made k hk with he | ⟨a, count, ha, hl, hc⟩
  · exact labelText_ne_entry hh (hlabel.symm.trans he)
  · obtain ⟨rfl, rfl⟩ := labelText_injective ha hh (hl.symm.trans hlabel)
    exact absurd hc (Nat.lt_irrefl _)

theorem addBlock (h : Labelled f labels) (hh : isHint hint = true) :
    Labelled (f.addBlock (labelText hint ((labels.lookup hint).getD 0)))
      ((hint, (labels.lookup hint).getD 0 + 1) :: labels) where
  made k hk := by
    rcases Nat.lt_or_eq_of_le (Nat.le_of_lt_succ (Function.length_addBlock ▸ hk)) with hlt | rfl
    · rw [Function.label_addBlock hlt]
      exact (h.more hint).made k hlt
    · exact .inr ⟨hint, _, hh, Function.label_addBlock_length, by simp⟩
  nodup := by
    simpa [Function.addBlock, List.nodup_append] using ⟨h.nodup, by simpa using h.fresh hh⟩

end Labelled

namespace Sound

variable {b : Config Given}

theorem Open.isTerminated (h : Open m ps c) : c.state.builder.isTerminated = false := by
  simpa [IL.Builder.isTerminated, h.1.inside.block?, Config.IsOpen] using h.2

theorem Shut.isTerminated (h : Shut m ps c) : c.state.builder.isTerminated = true := by
  simpa [IL.Builder.isTerminated, h.1.inside.block?, Config.IsOpen] using h.2

theorem Open.label (h : Open m ps c) (hint : String) :
    Flows c (Lower.naming (·.label hint)) fun c' _ => Open m ps c' ∧ c.Avail c' := by
  refine ⟨c.ghost, ⟨⟨Nat.le_refl _, fun _ _ h => h⟩, fun _ _ => rfl, Nat.le_refl _⟩, ⟨?_, h.2⟩,
    ⟨Nat.le_refl _, fun _ _ h => h⟩, fun _ h => h⟩
  exact { h.1 with
    inside := ⟨h.1.inside.finished, h.1.inside.function, h.1.inside.current, h.1.inside.inside⟩
    labelled := h.1.labelled.more hint }

theorem Open.newBlock (h : Open m ps c) (hh : isHint hint = true) (hb : b.Avail c) :
    Flows c (newBlock hint) fun c' k =>
      Open m (k :: ps) c' ∧ c.Avail c' ∧ c'.Target k b := by
  obtain ⟨h, ho⟩ := h
  have hs := h.inside
  have hs₁ : At { c.state with names := (c.state.names.label hint).2 } m c.function c.current :=
    ⟨hs.finished, hs.function, hs.current, hs.inside⟩
  have hrun : Lower.newBlock hint c.state = emit
      (Build.addBlock (labelText hint ((c.state.names.labels.lookup hint).getD 0)))
      { c.state with names := (c.state.names.label hint).2 } := rfl
  unfold Flows
  rw [hrun, hs₁.emit_addBlock (labelText_ne_empty hh) (h.labelled.fresh hh)]
  have hne {k} (hk : k < c.function.blocks.length) :
      Function.update c.ghost c.function.blocks.length b.Out k = c.ghost k :=
    Function.update_of_ne (Nat.ne_of_lt hk) ..
  have hgrew : c.Grew ⟨Function.update c.ghost c.function.blocks.length b.Out,
      LowerState.withFunction { c.state with names := (c.state.names.label hint).2 }
        (c.function.addBlock (labelText hint ((c.state.names.labels.lookup hint).getD 0)))⟩ :=
    ⟨Nat.le_refl _, fun _ _ h => h⟩
  refine ⟨Function.update c.ghost c.function.blocks.length b.Out,
    ⟨hgrew, fun k hk => hne hk, ?_⟩, ⟨?_, ?_⟩, ⟨hgrew, fun x hx => ?_⟩, ?_, fun x => ?_,
    hb.toGrew.trans hgrew⟩
  · simp [Config.function, LowerState.withFunction]
  · constructor
    case known => exact h.known
    case inside =>
      rw [hs₁.current_withFunction]
      refine ⟨hs.finished, rfl, hs.current, ?_⟩
      show c.current < (c.function.addBlock _).blocks.length
      rw [Function.length_addBlock]
      exact Nat.lt_succ_of_lt hs.inside
    case current =>
      rw [hs₁.current_withFunction]
      simpa using ⟨Nat.ne_of_lt hs.inside, h.current⟩
    case blank =>
      intro k hk
      show k < (c.function.addBlock _).blocks.length ∧ ((c.function.addBlock _).block k).instrs = []
      rcases List.mem_cons.mp hk with rfl | hk
      · simp
      · obtain ⟨hlt, hblank⟩ := h.blank k hk
        exact ⟨by simp; omega, by rw [Function.block_addBlock hlt, hblank]⟩
    case nodup =>
      exact List.nodup_cons.mpr
        ⟨fun hm => absurd (h.blank _ hm).1 (Nat.lt_irrefl _), h.nodup⟩
    case labelled => exact h.labelled.addBlock hh
    case certified =>
      exact h.certified.addBlock h.ne_nil fun t ht => h.certified.belowOut (hb.out _ ht)
    case numbered =>
      intro h1
      have hlen : c.function.blocks.length + 1 = 1 := by
        simpa [Config.function, LowerState.withFunction] using h1
      exact absurd (List.length_eq_zero_iff.mp (Nat.succ.inj hlen)) h.ne_nil
  · rw [Config.IsOpen, hs₁.current_withFunction]
    show ((c.function.addBlock _).block c.current).isTerminated = false
    rw [Function.block_addBlock hs.inside]
    exact ho
  · rw [Config.Out, hs₁.current_withFunction]
    refine Or.imp (fun hg => ?_) (fun hd => ?_) hx
    · exact (congrFun (hne hs.inside) x).mpr hg
    · simpa [Config.function, LowerState.withFunction] using hd
  · simp [Config.function, LowerState.withFunction]
  · simp

theorem Shut.continueAt (h : Shut m (k :: ps) c) (ht : c.Target k b) :
    Flows c (continueAt k) fun c' _ => Open m ps c' ∧ b.Avail c' := by
  obtain ⟨h, -⟩ := h
  obtain ⟨hk, hgiven, hgrew⟩ := ht
  obtain ⟨hnotin, hnodup⟩ := List.nodup_cons.mp h.nodup
  have hblank := (h.blank k List.mem_cons_self).2
  refine ⟨c.ghost, ⟨⟨Nat.le_refl _, fun _ _ h => h⟩, fun _ _ => rfl, Nat.le_refl _⟩, ⟨?_, ?_⟩,
    ⟨hgrew.temps, hgrew.names⟩, fun x hx => .inl ((hgiven x).mpr hx)⟩
  · exact { h with
      inside := ⟨h.inside.finished, h.inside.function, rfl, hk⟩
      current := hnotin
      blank := fun k' hk' => h.blank k' (List.mem_cons_of_mem _ hk')
      nodup := hnodup }
  · show (c.function.block k).isTerminated = false
    simp [Block.isTerminated, Block.terminator?, hblank]

theorem Open.finish (h : Open m ps c) (hi : i.op.isTerminator = true)
    (hr : i.result = none) (hv : ∀ v ∈ i.operands, c.Has 0 v)
    (hl : ∀ l ∈ i.labels, ∃ k, k < c.function.blocks.length ∧ c.function.label k = l ∧
      ∀ x, c.ghost k x → c.Out x) :
    Flows c (emit (Build.append i)) fun c' _ => Shut m ps c' := by
  obtain ⟨h, ho⟩ := h
  have hs := h.inside
  unfold Flows
  rw [hs.emit_append ho]
  refine ⟨c.ghost, (h.sameBlock_push hs (.refl c)).after, ?_, ?_⟩
  · refine h.push hs (Nat.le_refl _) rfl (fun v hm x hx => (hv v hm x hx).1) hl ?_ fun h1 => ?_
    · simp [Instr.key?, hr]
    · exact (h.numbered h1).push (by simp [Instr.definedVar?, hr])
  · rw [h.isOpen_pushed hs, hi]
    simp

theorem Open.jump (h : Open m ps c) (ht : c.Target k b) (hb : b.Avail c) :
    Flows c (jump k loc) fun c' _ => Shut m ps c' := by
  have hrun : Lower.jump k loc c.state =
      emit (Build.br (((c.state.builder.function).map (·.label k)).getD "") loc) c.state := rfl
  unfold Flows
  rw [hrun, h.1.inside.function, Option.map_some, Option.getD_some]
  exact h.finish rfl rfl (by simp) (by simpa using ht.edge hb)

theorem Open.branch (h : Open m ps c) (hv : c.Has 0 v) (hy : c.Target yes b) (hn : c.Target no b)
    (hb : b.Avail c) : Flows c (branch v yes no loc) fun c' _ => Shut m ps c' := by
  have hrun : Lower.branch v yes no loc c.state =
      emit (Build.cbr v (((c.state.builder.function).map (·.label yes)).getD "")
        (((c.state.builder.function).map (·.label no)).getD "") loc) c.state := rfl
  unfold Flows
  rw [hrun, h.1.inside.function, Option.map_some, Option.getD_some, Option.map_some,
    Option.getD_some]
  refine h.finish rfl rfl (fun w hw => ?_) (by simpa using ⟨hy.edge hb, hn.edge hb⟩)
  obtain rfl : w = v := by simpa using hw
  exact hv

theorem Open.ret (h : Open m ps c) (hv : ∀ v, value = some v → c.Has 0 v) :
    Flows c (emit (Build.ret value loc)) fun c' _ => Shut m ps c' :=
  h.finish rfl rfl (fun w hw => hv w (by simpa using hw)) (by simp)

end Sound

end Lower

end BasicSSA
