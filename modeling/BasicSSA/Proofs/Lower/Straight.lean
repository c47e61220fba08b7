import BasicSSA.Proofs.IL.Build
import BasicSSA.Proofs.Lower.Growth
import BasicSSA.Proofs.Lower.Names

/-!
# Steps that add code

`Straight` says of a step of lowering that it only adds code to the end of the current block and
variables to the function, with what its value is like. It is closed under the ways to combine steps,
so a step is straight if its parts are.
-/

namespace BasicSSA

open IL (Value Ty Opcode Instr Block Function Module Build Builder)

/-- A function whose block of a number has grown. -/
structure IL.Function.Grows (π : Policy) (n : Nat) (f : Function) (code : List Instr)
    (f' : Function) : Prop where
  name : f'.name = f.name
  returnType : f'.returnType = f.returnType
  params : f'.params = f.params
  length : f'.blocks.length = f.blocks.length
  other : ∀ k, k ≠ n → f'.block k = f.block k
  block : (f.block n).Grows π code (f'.block n)

namespace IL.Function.Grows

variable {f : Function}

theorem refl (f : Function) : f.Grows π n [] f :=
  ⟨rfl, rfl, rfl, rfl, fun _ _ => rfl, .refl _⟩

theorem trans (h₁ : f.Grows π n c₁ f') (h₂ : f'.Grows π n c₂ f'') : f.Grows π n (c₁ ++ c₂) f'' where
  name := h₂.name.trans h₁.name
  returnType := h₂.returnType.trans h₁.returnType
  params := h₂.params.trans h₁.params
  length := h₂.length.trans h₁.length
  other k hk := (h₂.other k hk).trans (h₁.other k hk)
  block := h₁.block.trans h₂.block

theorem modify (hn : n < f.blocks.length)
    (h : (f.block n).Grows π code (change (f.block n))) :
    f.Grows π n code { f with blocks := f.blocks.modify n change } where
  name := rfl
  returnType := rfl
  params := rfl
  length := by simp
  other k hk := by
    simp [IL.Function.block, Ne.symm hk]
  block := by
    simpa [IL.Function.block, List.getElem?_modify, hn] using h

theorem label (h : f.Grows π n code f') (k : Nat) : f'.label k = f.label k := by
  by_cases hk : k = n
  · subst hk
    exact h.block.label
  · rw [IL.Function.label, h.other k hk, IL.Function.label]

end IL.Function.Grows

namespace Lower

/-! ### Steps -/

theorem bind_apply (x : Lower α) (f : α → Lower β) (s : LowerState) :
    (x >>= f) s =
      match x s with
      | .ok (a, t) => f a t
      | .error e => .error e := by
  simp only [Bind.bind, StateT.bind, Except.bind]
  cases x s <;> rfl

theorem bind_ok {x : Lower α} :
    (x >>= f) s = .ok (b, s') ↔ ∃ a t, x s = .ok (a, t) ∧ f a t = .ok (b, s') := by
  rw [bind_apply]
  cases x s with
  | error e => simp
  | ok r =>
    constructor
    · exact fun h => ⟨r.1, r.2, rfl, h⟩
    · rintro ⟨a, t, he, h⟩
      cases he
      exact h

theorem pure_ok : (pure a : Lower α) s = .ok (b, s') ↔ a = b ∧ s = s' := by
  show Except.ok (a, s) = _ ↔ _
  simp

theorem emit_ok :
    emit step s = .ok (a, s') ↔
      ∃ b, step.run.run s.builder = (.ok a, b) ∧ s' = { s with builder := b } := by
  unfold emit
  constructor
  · intro h
    split at h
    · rename_i hrun
      cases h
      exact ⟨_, hrun, rfl⟩
    · cases h
  · rintro ⟨b, hrun, rfl⟩
    rw [hrun]

theorem emit_bind (x : Build α) (f : α → Build β) :
    emit (x >>= f) = emit x >>= fun a => emit (f a) := by
  funext s
  rw [bind_apply]
  simp only [emit, Build.run_bind]
  cases x.run.run s.builder with
  | mk r b => cases r <;> rfl

/-- The state of lowering: the finished part of the module, the function under construction and its
current block. -/
structure At (s : LowerState) (m : Module) (f : Function) (n : Nat) : Prop where
  finished : s.builder.finished = m
  function : s.builder.function = some f
  current : s.builder.current = some n
  inside : n < f.blocks.length

theorem At.block? (h : At s m f n) : s.builder.block? = some (f.block n) := by
  simp [Builder.block?, h.function, h.current, Function.block, h.inside]

theorem At.run_append (hs : At s m f n) :
    (Build.append i).run.run s.builder =
      if (f.block n).isTerminated then (.error (.afterTerminator (f.block n).label), s.builder)
      else (.ok (), s.builder.modifyBlock fun b => { b with instrs := b.instrs ++ [i] }) := by
  rw [Build.run_append, hs.block?]

/-- Names that are apart stay so along declarations. -/
def KeepsApart (ds : List Declaration) (n : Names) (f : Function) (n' : Names) (f' : Function) :
    Prop :=
  ∀ lo hi es, Declaration.InOrder lo hi ds → n.Apart lo es f.slotNames →
    n'.Apart hi (es ++ ds) f'.slotNames

theorem KeepsApart.of_keeps (h : n.Keeps n') (f : Function) : KeepsApart [] n f n' f :=
  fun lo _ es hle ha => (List.append_nil es).symm ▸ (h lo es _ ha).mono hle

theorem KeepsApart.refl (n : Names) (f : Function) : KeepsApart [] n f n f :=
  .of_keeps (fun _ _ _ h => h) f

theorem KeepsApart.trans (h : KeepsApart ds n f n₁ f₁) (h' : KeepsApart [] n₁ f₁ n₂ f₂) :
    KeepsApart ds n f n₂ f₂ := fun lo hi es ho ha => by
  simpa using h' hi hi _ (Nat.le_refl hi) (h lo hi es ho ha)

/-- A new variable for the index of a `For Each` loop. -/
def newIndex : Lower String := do
  let index ← naming (·.fresh "__idx")
  emit (Build.addLocal { name := index, type := .long })
  return index

/-- A step that only adds code to the current block and some variables to the function. -/
def Straight (π : Policy) (m : Module) (ds : List Declaration) (x : Lower α) (Q : α → Prop) : Prop :=
  ∀ s f n a s', At s m f n → x s = .ok (a, s') →
    ∃ f' code, At s' m f' n ∧ f.Grows π n code f' ∧ KeepsApart ds s.names f s'.names f' ∧ Q a

namespace Straight

variable {Q : α → Prop}

theorem pure (h : Q a) : Straight π m [] (Pure.pure a) Q := by
  intro s f n b s' hs hx
  obtain ⟨rfl, rfl⟩ := pure_ok.mp hx
  exact ⟨f, [], hs, .refl f, .refl _ f, h⟩

theorem bind {x : Lower α} (hx : Straight π m ds x Q)
    (hy : ∀ a, Q a → Straight π m [] (y a) R) : Straight π m ds (x >>= y) R := by
  intro s f n b s' hs h
  obtain ⟨a, t, ha, hb⟩ := bind_ok.mp h
  obtain ⟨f₁, c₁, ht, hg₁, hk₁, hq⟩ := hx s f n a t hs ha
  obtain ⟨f₂, c₂, hs', hg₂, hk₂, hr⟩ := hy a hq t f₁ n b s' ht hb
  exact ⟨f₂, c₁ ++ c₂, hs', hg₁.trans hg₂, hk₁.trans hk₂, hr⟩

theorem throw (e : LowerError) : Straight π m ds (MonadExcept.throw e : Lower α) Q := by
  intro s f n a s' hs hx
  cases hx

theorem forM {xs : List α}
    (h : ∀ a ∈ xs, Straight π m [] (step a) fun _ => True) :
    Straight π m [] (xs.forM step) fun _ => True := by
  induction xs with
  | nil => exact .pure trivial
  | cons a xs ih =>
    exact (h a List.mem_cons_self).bind fun _ _ => ih fun b hb => h b (List.mem_cons_of_mem a hb)

theorem of_builder (h : ∀ s a s', x s = .ok (a, s') →
    s'.builder = { s.builder with nextTemp := s'.builder.nextTemp } ∧ s.names.Keeps s'.names ∧
      Q a) :
    Straight π m [] x Q := by
  intro s f n a s' hs hx
  obtain ⟨hb, hn, hq⟩ := h s a s' hx
  refine ⟨f, [], ⟨?_, ?_, ?_, hs.inside⟩, .refl f, .of_keeps hn f, hq⟩
  · rw [hb, hs.finished]
  · rw [hb, hs.function]
  · rw [hb, hs.current]

theorem naming {g : Names → α × Names}
    (h : ∀ n, Names.Keeps n (g n).2) :
    Straight π m [] (naming g) fun _ => True := by
  refine .of_builder fun s a s' hx => ?_
  cases hx
  exact ⟨rfl, h s.names, trivial⟩

theorem nameOf : Straight π m [] (nameOf p x) fun _ => True :=
  naming fun _ _ _ _ h => (h.nameOf ..).1

theorem get : Straight π m [] (MonadState.get : Lower LowerState) (·.builder.finished = m) := by
  intro s f n a s' hs hx
  cases hx
  exact ⟨f, [], hs, .refl f, .refl _ f, hs.finished⟩

/-! ### Instructions -/

theorem modifyBlock (hs : At s m f n) (change : Block → Block)
    (h : (f.block n).Grows π code (change (f.block n))) :
    ∃ f', At { s with builder := s.builder.modifyBlock change } m f' n ∧ f.Grows π n code f' ∧
      KeepsApart [] s.names f s.names f' := by
  refine ⟨_, ⟨?_, ?_, ?_, ?_⟩, .modify hs.inside h, .refl _ f⟩ <;>
    simp [Builder.modifyBlock, Builder.modifyFunction, hs.finished, hs.function, hs.current,
      hs.inside]

theorem append (hi : π.Allows i) : Straight π m [] (emit (Build.append i)) fun _ => True := by
  intro s f n a s' hs hx
  obtain ⟨b, hrun, rfl⟩ := emit_ok.mp hx
  rw [hs.run_append] at hrun
  split at hrun
  · cases hrun
  · rename_i hopen
    cases hrun
    obtain ⟨f', hs', hg⟩ := modifyBlock hs (fun b => { b with instrs := b.instrs ++ [i] })
      (.push (Bool.eq_false_iff.mpr hopen) hi)
    exact ⟨f', [i], hs', hg.1, hg.2, trivial⟩

theorem freshTemp (type : Ty) : Straight π m [] (emit (Build.freshTemp type)) π.Fits := by
  refine .of_builder fun s a s' h => ?_
  cases h
  exact ⟨rfl, fun _ _ _ h => h, trivial⟩

theorem appendResult (hi : ∀ v, π.Allows { i with result := some v }) :
    Straight π m [] (emit (Build.appendResult i)) π.Fits := by
  rw [Build.appendResult, emit_bind]
  refine (freshTemp i.type).bind fun v hv => ?_
  rw [emit_bind]
  exact (append (hi v)).bind fun _ _ => .pure hv

theorem call (h : π.calls callee) (hargs : π.Bears { op := .call, operands := args, name := callee }) :
    Straight π m [] (emit (Build.call callee args type loc)) fun v => ∀ a, v = some a → π.Fits a := by
  let i : Instr := { op := .call, type, operands := args, name := callee, loc }
  have happend : Straight π m [] (emit (Build.append i)) fun _ => True := append ⟨hargs, h⟩
  have hresult : Straight π m [] (emit (Build.appendResult i)) π.Fits :=
    appendResult fun _ => ⟨hargs, h⟩
  unfold Build.call
  split
  · rw [emit_bind]
    exact happend.bind fun _ _ => .pure (by simp)
  · rw [emit_bind]
    exact hresult.bind fun v hv => .pure (by simpa using hv)

theorem loadGlobal : Straight π m [] (emit (Build.load type (.global name t) loc)) π.Fits :=
  appendResult fun _ => ⟨fun _ _ h => by simp at h, fun h => by cases h⟩

theorem storeGlobal (h : π.stores name) (hv : π.Fits v) :
    Straight π m [] (emit (Build.store (.global name t) v loc)) fun _ => True := by
  refine append ⟨fun n type hn => ?_, _, v, rfl, ?_⟩
  · obtain rfl : v = .int n type := by simpa [eq_comm] using hn
    exact .inr hv
  · rintro _ _ ⟨⟩
    exact h

theorem assign (hv : π.Fits v) :
    Straight π m [] (emit (Build.assign (.var x n type) v loc)) fun _ => True := by
  have hallow : π.Allows
      { op := .assign, type := type, result := some (.var x n type), operands := [v], loc } :=
    ⟨Policy.bears_of_fits (by simpa using hv), rfl, rfl⟩
  exact append hallow

theorem addLocal_ok {r : String → α} (hs : At s m f n)
    (hx : (do
      let name ← Lower.naming g
      emit (Build.addLocal { name, type })
      return r name) s = .ok (a, s')) :
    ∃ f', At s' m f' n ∧ f.Grows π n [] f' ∧ s'.names = (g s.names).2 ∧
      f'.slotNames = f.slotNames ++ [(g s.names).1] := by
  cases hx
  refine ⟨{ f with locals := f.locals ++ [{ name := (g s.names).1, type }] },
    ⟨hs.finished, ?_, hs.current, hs.inside⟩, ⟨rfl, rfl, rfl, rfl, fun _ _ => rfl, .refl _⟩, rfl, ?_⟩
  · show s.builder.function.map _ = _
    rw [hs.function]
    rfl
  · simp [Function.slotNames]

theorem newIndex : Straight π m [] newIndex fun _ => True := by
  intro s f n a s' hs hx
  obtain ⟨f', hs', hg, hn, hl⟩ := addLocal_ok hs hx
  refine ⟨f', [], hs', hg, fun lo hi es hle h => ?_, trivial⟩
  rw [hn, hl, List.append_nil]
  exact (h.hide _).mono hle

theorem declare_ok (hs : At s m f n) (hx : Lower.declare p x s = .ok (u, s')) :
    ∃ f', At s' m f' n ∧ f.Grows π n [] f' ∧ ∀ lo hi es,
      lo ≤ x.index ∨ s.names.varNames.lookup x = none → lo ≤ hi → x.index < hi →
        s.names.Apart lo es f.slotNames → s'.names.Apart hi (es ++ [.new x]) f'.slotNames := by
  obtain ⟨f', hs', hg, hn, hl⟩ :=
    addLocal_ok (g := (·.nameOf x (p.tree.symbol x).name)) (r := fun _ => ()) hs hx
  refine ⟨f', hs', hg, fun lo hi es hnew hle hlt h => ?_⟩
  rw [hn, hl]
  exact h.declare hnew hle hlt

theorem declare : Straight π m [.new x] (declare p x) fun _ => True := by
  intro s f n a s' hs hx
  obtain ⟨f', hs', hg, hk⟩ := declare_ok hs hx
  exact ⟨f', [], hs', hg, fun lo hi es ho h =>
    hk lo hi es (.inl ho.1) (Nat.le_trans ho.1 (Nat.le_of_lt ho.2)) ho.2 h, trivial⟩

theorem renameResult : Straight π m [] (emit (Build.renameResult v target)) fun _ => True := by
  intro s f n a s' hs hx
  obtain ⟨b, hrun, rfl⟩ := emit_ok.mp hx
  rw [Build.run_renameResult, hs.block?, Option.bind_some] at hrun
  split at hrun
  · cases hrun
    exact ⟨f, [], hs, .refl f, .refl _ f, trivial⟩
  · rename_i i hlast
    split at hrun
    · rename_i hcan
      cases hrun
      have hop : (i.op.isBinary || i.op.isUnary || i.op.isCompare || i.op = .call) = true := by
        simp only [Build.canRename, Bool.and_eq_true] at hcan
        exact hcan.2
      have hterm : i.op.isTerminator = false := by
        cases h : i.op <;> simp_all [Opcode.isTerminator, Opcode.isBinary, Opcode.isUnary,
          Opcode.isCompare]
      have hallow : π.Allows i → π.Allows { i with result := some target } := by
        refine And.imp (fun h => h) ?_
        cases h : i.op <;> simp_all [Opcode.isBinary, Opcode.isUnary, Opcode.isCompare]
      obtain ⟨f', hs', hg⟩ := modifyBlock hs (fun block =>
        { block with instrs := block.instrs.dropLast ++ [{ i with result := some target }] })
        (.rename hlast hterm hallow)
      exact ⟨f', [], hs', hg.1, hg.2, trivial⟩
    · cases hrun
      exact ⟨f, [], hs, .refl f, .refl _ f, trivial⟩

end Straight

end Lower

end BasicSSA
