import BasicSSA.Proofs.Lower.CallSites
import BasicSSA.Proofs.Lower.Draft
import BasicSSA.Proofs.Lower.Kinds

/-!
# Code and the calls of its source

What is true of each instruction that the code of an accepted program has: the kinds of its operands
agree, and a call comes from a call site. `Writes` says of a step of lowering that the code that it
adds to the current block is such code, and that it makes given calls of procedures, each once. It is
closed under the ways to combine steps.
-/

namespace BasicSSA

open IL (Value Ty Kind Opcode Instr Block Function Build Builder)

/-- The operands of an instruction are stored as its operation asks. A value that is returned is of
a given kind. -/
def IL.Instr.Agrees (returned : Kind) (i : Instr) : Prop :=
  match i.op with
  | .add | .sub | .mul | .div | .idiv | .mod | .and | .or =>
    ∃ l r, i.operands = [l, r] ∧ l.type.kind = i.type.kind ∧ r.type.kind = i.type.kind
  | .concat => ∃ l r, i.operands = [l, r] ∧ l.type.kind = .str ∧ r.type.kind = .str
  | .cmpEq | .cmpNe | .cmpLt | .cmpLe | .cmpGt | .cmpGe =>
    i.type = .boolean ∧ ∃ l r, i.operands = [l, r] ∧ l.type.kind = r.type.kind
  | .cbr => ∃ v, i.operands = [v] ∧ v.type.kind = .i1
  | .ret => ∀ v ∈ i.operands, v.type.kind = returned
  | _ => True

/-- An operation that can be used with any operands. -/
def IL.Opcode.isFree : Opcode → Bool
  | .neg | .not | .alloca | .load | .store | .gep | .cast | .assign | .fieldLoad | .fieldStore
  | .newObj | .br => true
  | _ => false

/-- The function that an instruction calls, and the place of the call. -/
def IL.Instr.call? (i : Instr) : Option (Option String × Loc) :=
  if i.op = .call then some (some i.name, i.loc) else none

namespace Lower.Env

variable {env : Env}

/-- Calls of procedures, each once, and of functions of the runtime. -/
def Serves (env : Env) (cs : List CallSite) (calls : List (Option String × Loc)) : Prop :=
  ∃ helpers : List (Option String × Loc), (∀ c ∈ helpers, ∃ name ∈ runtimeCalls, c.1 = some name) ∧
    calls.Perm (cs.map (fun c => (env.function? c.callee, c.loc)) ++ helpers)

theorem Serves.nil : env.Serves [] [] :=
  ⟨[], by simp, .refl _⟩

theorem Serves.append (h : env.Serves cs xs) (h' : env.Serves cs' ys) :
    env.Serves (cs ++ cs') (xs ++ ys) := by
  obtain ⟨hs, hruntime, hperm⟩ := h
  obtain ⟨hs', hruntime', hperm'⟩ := h'
  refine ⟨hs ++ hs', fun c hc => ?_, (hperm.append hperm').trans ?_⟩
  · exact (List.mem_append.mp hc).elim (hruntime c) (hruntime' c)
  · rw [List.perm_iff_count]
    intro c
    simp only [List.map_append, List.count_append]
    omega

end Lower.Env

namespace Analysis

variable {a : Analysis}

/-- An instruction compares the subject of a `Select` with a value, and the subject is void. -/
def TestsVoid (a : Analysis) (i : Instr) : Prop :=
  i.op = .cmpEq ∧ i.type = .boolean ∧ (∃ v w, i.operands = [v, w] ∧ v.type.kind = .void) ∧
    ∃ j e cs t, .stmt (.select j e cs) ∈ a.nodes ∧ a.types.isVoid e.typeId = true ∧
      t ∈ cs.flatMap Case.tests ∧ i.loc = t.info.loc

/-- What an instruction of a function is like. -/
def Allows (a : Analysis) (returned : Kind) (i : Instr) : Prop :=
  (i.Agrees returned ∨ a.TestsVoid i) ∧ (i.op = .call → a.Calls i)

/-- Code whose instructions are such, whatever is returned, and that makes given calls. -/
structure Accounts (a : Analysis) (cs : List Lower.CallSite) (code : List Instr) : Prop where
  allows : ∀ i ∈ code, i.op = .ret ∨ ∀ returned, a.Allows returned i
  serves : a.env.Serves cs (code.filterMap Instr.call?)

namespace Accounts

theorem nil : a.Accounts [] [] :=
  ⟨by simp, .nil⟩

theorem append (h : a.Accounts cs code) (h' : a.Accounts cs' code') :
    a.Accounts (cs ++ cs') (code ++ code') := by
  refine ⟨fun i hi => ?_, ?_⟩
  · exact (List.mem_append.mp hi).elim (h.allows i) (h'.allows i)
  · rw [List.filterMap_append]
    exact h.serves.append h'.serves

theorem of_agrees (h : ∀ k, i.Agrees k) (hop : i.op ≠ .call) : a.Accounts [] [i] := by
  refine ⟨List.forall_mem_singleton.mpr (.inr fun k => ⟨.inl (h k), fun hc => absurd hc hop⟩), ?_⟩
  simp only [List.filterMap_cons, Instr.call?, if_neg hop]
  exact .nil

theorem free (h : i.op.isFree = true) : a.Accounts [] [i] := by
  refine .of_agrees (fun k => ?_) fun hop => ?_
  · unfold Instr.Agrees
    cases hop : i.op <;> simp_all [Opcode.isFree]
  · rw [hop] at h
    cases h

theorem ret (h : i.op = .ret) : a.Accounts [] [i] := by
  refine ⟨List.forall_mem_singleton.mpr (.inl h), ?_⟩
  simp only [List.filterMap_cons, Instr.call?, h]
  exact .nil

theorem call (hop : i.op = .call) (h : a.Calls i) (hs : a.env.Serves cs [(some i.name, i.loc)]) :
    a.Accounts cs [i] := by
  refine ⟨List.forall_mem_singleton.mpr (.inr fun k => ⟨.inl ?_, fun _ => h⟩), ?_⟩
  · rw [Instr.Agrees, hop]
    trivial
  · simpa [Instr.call?, hop] using hs

theorem runtime (hop : i.op = .call) (h : i.name ∈ Lower.runtimeCalls) : a.Accounts [] [i] :=
  .call hop (.runtime h) ⟨[(some i.name, i.loc)], by simpa using h, .refl _⟩

theorem arith {op : BinaryOp} (hop : op.opcode.isCompare = false) (hc : op ≠ .concat)
    (hl : l.type.kind = type.kind) (hr : r.type.kind = type.kind) :
    a.Accounts [] [{ op := op.opcode, type, operands := [l, r], loc }] := by
  refine .of_agrees (fun k => ?_) ?_
  · cases op with
    | concat => exact absurd rfl hc
    | eq | ne | lt | le | gt | ge => cases hop
    | _ => exact ⟨l, r, rfl, hl, hr⟩
  · cases op <;> exact nofun

theorem concat (hl : l.type.kind = .str) (hr : r.type.kind = .str) :
    a.Accounts [] [{ op := .concat, type, operands := [l, r], loc }] :=
  .of_agrees (fun _ => ⟨l, r, rfl, hl, hr⟩) nofun

theorem compare (hop : op.isCompare = true) (h : l.type.kind = r.type.kind) :
    a.Accounts [] [{ op, type := .boolean, operands := [l, r], loc }] := by
  cases op with
  | cmpEq | cmpNe | cmpLt | cmpLe | cmpGt | cmpGe =>
    exact .of_agrees (fun _ => ⟨rfl, l, r, rfl, h⟩) nofun
  | _ => cases hop

end Accounts

end Analysis

theorem IL.Builder.block?_modifyBlock (b : Builder) (change : Block → Block) :
    (b.modifyBlock change).block? = b.block?.map change := by
  unfold modifyBlock block?
  cases hk : b.current with
  | none => cases b.function <;> simp [hk]
  | some k => cases hf : b.function <;> simp [modifyFunction, hf, hk]

namespace Lower

/-- A step whose code makes some calls of procedures, and what its value is like. -/
def Writes (a : Analysis) (cs : List CallSite) (x : Lower α) (Q : α → Prop) : Prop :=
  ∀ s b v s', s.builder.block? = some b → x s = .ok (v, s') → Q v ∧ ∃ b' code,
    s'.builder.block? = some b' ∧ a.Accounts cs code ∧
    b'.instrs.map Instr.anonymous = b.instrs.map Instr.anonymous ++ code

namespace Writes

variable {Q : α → Prop}

/-- The code that a step adds is such code. -/
theorem emits (hx : Writes a cs x Q) (h : Emits gs x v code) :
    Q v ∧ a.Accounts cs (code.map Instr.anonymous) := by
  obtain ⟨s, s', b, b', -, h, hb, hb', hcode⟩ := h
  obtain ⟨hq, b'', code', hb'', haccounts, hcode'⟩ := hx s b v s' hb h
  cases hb'.symm.trans hb''
  rw [hcode, List.map_append, List.append_cancel_left_eq] at hcode'
  exact ⟨hq, hcode' ▸ haccounts⟩

theorem of_block? (h : ∀ s v s', x s = .ok (v, s') →
    s'.builder.block? = s.builder.block? ∧ Q v) : Writes a [] x Q := by
  intro s b v s' hb hx
  obtain ⟨hs, hq⟩ := h s v s' hx
  exact ⟨hq, b, [], hs.trans hb, .nil, by simp⟩

theorem pure (h : Q v) : Writes a [] (Pure.pure v) Q := by
  refine .of_block? fun s w s' hx => ?_
  obtain ⟨rfl, rfl⟩ := pure_ok.mp hx
  exact ⟨rfl, h⟩

theorem throw (e : LowerError) : Writes a cs (MonadExcept.throw e : Lower α) Q := by
  intro s b v s' hb hx
  cases hx

theorem bind (hx : Writes a cs x Q)
    (hy : ∀ v, Q v → Writes a cs' (y v) R) : Writes a (cs ++ cs') (x >>= y) R := by
  intro s b w s' hb h
  obtain ⟨v, t, hv, hw⟩ := bind_ok.mp h
  obtain ⟨hq, b₁, code₁, hb₁, haccounts₁, hcode₁⟩ := hx s b v t hb hv
  obtain ⟨hr, b₂, code₂, hb₂, haccounts₂, hcode₂⟩ := hy v hq t b₁ w s' hb₁ hw
  refine ⟨hr, b₂, code₁ ++ code₂, hb₂, haccounts₁.append haccounts₂, ?_⟩
  rw [hcode₂, hcode₁, List.append_assoc]

/-- The first step calls no procedure. -/
theorem first (hx : Writes a [] x Q)
    (hy : ∀ v, Q v → Writes a cs (y v) R) : Writes a cs (x >>= y) R :=
  hx.bind hy

/-- The second step calls no procedure. -/
theorem andThen (hx : Writes a cs x Q)
    (hy : ∀ v, Q v → Writes a [] (y v) R) : Writes a cs (x >>= y) R := by
  have h := hx.bind hy
  rwa [List.append_nil] at h

/-- The second step only gives a result. -/
theorem result {f : α → β} (hx : Writes a cs x Q) :
    Writes a cs (x >>= fun v => Pure.pure (f v)) fun _ => True :=
  hx.andThen fun _ _ => .pure trivial

theorem imp (hx : Writes a cs x Q) (h : ∀ v, Q v → Q' v) :
    Writes a cs x Q' := by
  intro s b v s' hb hxv
  exact (hx s b v s' hb hxv).imp_left (h v)

/-- What a step delivers holds when it writes, too. -/
theorem delivers (hx : Writes a cs x Q) (h : Delivers x Q') :
    Writes a cs x Q' := by
  intro s b v s' hb hxv
  exact (hx s b v s' hb hxv).imp_left fun _ => h s v s' hxv

theorem naming (f : Names → α × Names) : Writes a [] (naming f) fun _ => True := by
  refine .of_block? fun s v s' h => ?_
  cases h
  exact ⟨rfl, trivial⟩

theorem get : Writes a [] (MonadState.get : Lower LowerState) fun _ => True := by
  refine .of_block? fun s v s' h => ?_
  cases h
  exact ⟨rfl, trivial⟩

theorem needed {Q : Value → Prop} (h : ∀ w, v = some w → Q w) :
    Writes a [] (needed e v) Q := by
  cases v with
  | none => exact .throw e
  | some v => exact .pure (h v rfl)

theorem valued {Q : Option Value → Prop} (hx : Writes a cs x Q) :
    Writes a cs (valued x) fun v => Q (some v) :=
  hx.andThen fun _ hq => .needed fun _ hv => hv ▸ hq

theorem forM {xs : List α}
    (h : ∀ v ∈ xs, Writes a (cs v) (step v) fun _ => True) :
    Writes a (xs.flatMap cs) (xs.forM step) fun _ => True := by
  induction xs with
  | nil => exact .pure trivial
  | cons v xs ih =>
    obtain ⟨hv, hxs⟩ := List.forall_mem_cons.mp h
    exact hv.bind fun _ _ => ih hxs

/-! ### Steps of the builder -/

theorem append (h : a.Accounts cs [i.anonymous]) :
    Writes a cs (emit (Build.append i)) fun _ => True := by
  intro s b v s' hb hx
  obtain ⟨b', hrun, rfl⟩ := emit_ok.mp hx
  rw [Build.run_append, hb] at hrun
  dsimp only at hrun
  split at hrun <;> cases hrun
  refine ⟨trivial, { b with instrs := b.instrs ++ [i] }, _, ?_, h, by simp⟩
  rw [Builder.block?_modifyBlock, hb]
  rfl

theorem appendResult (h : a.Accounts cs [i.anonymous]) :
    Writes a cs (emit (Build.appendResult i)) (·.type = i.type) := by
  rw [Build.appendResult, emit_bind]
  refine first (Q := (·.type = i.type)) (.of_block? fun s v s' h => ?_) fun v hv => ?_
  · cases h
    exact ⟨rfl, rfl⟩
  · rw [emit_bind]
    exact (append (i := { i with result := some v }) h).andThen fun _ _ => .pure hv

theorem call (h : a.Accounts cs [{ op := .call, type, operands := args, name := callee, loc }]) :
    Writes a cs (emit (Build.call callee args type loc)) fun _ => True := by
  unfold Build.call
  split
  · rw [emit_bind]
    exact (append h).result
  · rw [emit_bind]
    exact (appendResult h).result

theorem renameResult : Writes a [] (emit (Build.renameResult v target)) fun _ => True := by
  intro s b w s' hb hx
  obtain ⟨b', hrun, rfl⟩ := emit_ok.mp hx
  rw [Build.run_renameResult, hb, Option.bind_some] at hrun
  split at hrun
  · cases hrun
    exact ⟨trivial, b, [], hb, .nil, by simp⟩
  · rename_i last hlast
    split at hrun <;> cases hrun
    · have hinstrs := List.dropLast_append_getLast? last hlast
      refine ⟨trivial, { b with instrs := b.instrs.dropLast ++ [{ last with result := some target }] },
        [], ?_, .nil, ?_⟩
      · rw [Builder.block?_modifyBlock, hb]
        rfl
      · rw [List.append_nil, ← hinstrs]
        simp [Instr.anonymous]
    · exact ⟨trivial, b, [], hb, .nil, by simp⟩

theorem addLocal : Writes a [] (emit (Build.addLocal slot)) fun _ => True := by
  refine .of_block? fun s v s' h => ?_
  cases h
  refine ⟨?_, trivial⟩
  show (s.builder.modifyFunction _).block? = _
  unfold Builder.block? Builder.modifyFunction
  cases s.builder.function <;> rfl

end Writes

end Lower

end BasicSSA
