import BasicSSA.Proofs.IL.Build

/-!
# What a builder keeps

Calls of a builder may come in any order and may fail. Whatever was called, the module is well built:
global variables have different names, the blocks of a function have different labels, only the last
instruction of a block ends it, and no temporary is the result of two instructions. A call that fails
leaves the module as it was.

## Main definitions

* `Build.Call`: the calls of a builder;
* `Builder.Reached`: the builders that calls lead to;
* `Builder.Ok`: what all of them have in common.

## Main results

* `Build.Call.keeps`: what one call does to a builder;
* `Builder.Reached.module_wellBuilt`: what any number of calls leads to.
-/

namespace BasicSSA.IL

/-- A call of a builder. -/
inductive Build.Call where
  | addGlobal (g : Global)
  | addClass (c : ClassLayout)
  | startFunction (name : String) (returnType : Ty) (params : List Slot)
  | addBlock (label : String)
  | addBlockTo (function : Nat) (label : String)
  | continueAt (block : Nat)
  | addLocal (s : Slot)
  | freshTemp (type : Ty)
  | binary (op : Opcode) (type : Ty) (lhs rhs : Value) (loc : Loc)
  | unary (op : Opcode) (type : Ty) (operand : Value) (loc : Loc)
  | compare (op : Opcode) (lhs rhs : Value) (loc : Loc)
  | call (callee : String) (args : List Value) (returnType : Ty) (loc : Loc)
  | alloca (type : Ty) (loc : Loc)
  | load (type : Ty) (address : Value) (loc : Loc)
  | store (address value : Value) (loc : Loc)
  | gep (element : Ty) (base : Value) (indices : List Value) (loc : Loc)
  | cast (value : Value) (target : Ty) (loc : Loc)
  | assign (target value : Value) (loc : Loc)
  | fieldLoad (type : Ty) (object : Value) (field : String) (loc : Loc)
  | fieldStore (object : Value) (field : String) (value : Value) (loc : Loc)
  | newObject (type : Ty) (className : String) (args : List Value) (loc : Loc)
  | br (target : String) (loc : Loc)
  | cbr (cond : Value) (yes no : String) (loc : Loc)
  | switch (value : Value) (cases : List (Value × String)) (default : String) (loc : Loc)
  | ret (value : Option Value) (loc : Loc)
  | renameResult (temp target : Value)

namespace Build

/-- The step that a call is, without its answer. -/
def Call.step : Call → Build Unit
  | addGlobal g => Build.addGlobal g
  | addClass c => Build.addClass c
  | startFunction name type params => Build.startFunction name type params
  | addBlock label => discard (Build.addBlock label)
  | addBlockTo function label => Build.addBlockTo function label
  | continueAt block => Build.continueAt block
  | addLocal s => Build.addLocal s
  | freshTemp type => discard (Build.freshTemp type)
  | binary op type lhs rhs loc => discard (Build.binary op type lhs rhs loc)
  | unary op type operand loc => discard (Build.unary op type operand loc)
  | compare op lhs rhs loc => discard (Build.compare op lhs rhs loc)
  | call callee args type loc => discard (Build.call callee args type loc)
  | alloca type loc => discard (Build.alloca type loc)
  | load type address loc => discard (Build.load type address loc)
  | store address value loc => Build.store address value loc
  | gep element base indices loc => discard (Build.gep element base indices loc)
  | cast value target loc => discard (Build.cast value target loc)
  | assign target value loc => Build.assign target value loc
  | fieldLoad type object field loc => discard (Build.fieldLoad type object field loc)
  | fieldStore object field value loc => Build.fieldStore object field value loc
  | newObject type className args loc => discard (Build.newObject type className args loc)
  | br target loc => Build.br target loc
  | cbr cond yes no loc => Build.cbr cond yes no loc
  | switch value cases default loc => Build.switch value cases default loc
  | ret value loc => Build.ret value loc
  | renameResult temp target => discard (Build.renameResult temp target)

/-- The builder after a call, which may have failed. -/
def Call.after (c : Call) (b : Builder) : Builder :=
  (c.step.run.run b).2

/-- The error of a call, if it fails. -/
def Call.error? (c : Call) (b : Builder) : Option BuildError :=
  match (c.step.run.run b).1 with
  | .ok _ => none
  | .error e => some e

/-- A call goes on only at a block of the function that was started last. -/
def Call.Valid (b : Builder) : Call → Prop
  | continueAt k => ∃ f, b.function = some f ∧ k < f.blocks.length
  | _ => True

end Build

/-- A builder that calls lead to, from an empty module. -/
inductive Builder.Reached : Builder → Prop
  | start (name : String) : Reached { finished := { name } }
  | call (c : Build.Call) : Reached b → c.Valid b → Reached (c.after b)

/-! ### Well-built modules -/

/-- Only the last instruction of a block may end it. -/
def Block.EndsOnce (b : Block) : Prop :=
  ∀ i ∈ b.instrs.dropLast, i.op.isTerminator = false

/-- The temporaries that a function defines, as often as it defines them. -/
def Function.tempNumbers (f : Function) : List Nat :=
  f.blocks.flatMap fun b => IL.temps b.instrs

structure Function.WellBuilt (f : Function) : Prop where
  labels : (f.blocks.map (·.label)).Nodup
  named : ∀ b ∈ f.blocks, b.label ≠ ""
  ends : ∀ b ∈ f.blocks, b.EndsOnce
  temps : f.tempNumbers.Nodup

structure Module.WellBuilt (m : Module) : Prop where
  globals : (m.globals.map (·.name)).Nodup
  functions : ∀ f ∈ m.functions, f.WellBuilt

/-- A builder in the midst of calls: new temporaries are new, and the current block is there. -/
structure Builder.Ok (b : Builder) : Prop where
  module : b.module.WellBuilt
  fresh : ∀ f, b.function = some f → ∀ t ∈ f.tempNumbers, t < b.nextTemp
  current : ∀ k, b.current = some k → ∃ f, b.function = some f ∧ k < f.blocks.length

/-! ### Functions -/

namespace Function

variable {f : Function}

@[simp] theorem temps_addBlock :
    tempNumbers { f with blocks := f.blocks ++ [{ label := l }] } = f.tempNumbers := by
  simp [tempNumbers, IL.temps]

namespace WellBuilt

theorem addBlock (h : f.WellBuilt) (he : l.isEmpty = false) (hl : f.hasBlock l = false) :
    WellBuilt { f with blocks := f.blocks ++ [{ label := l }] } where
  labels := by
    have hnew : l ∉ f.blocks.map (·.label) := by
      simpa [hasBlock, blockIdx?] using hl
    simpa [List.nodup_append, h.labels] using hnew
  named b hb := by
    rcases List.mem_append.mp hb with hb | hb
    · exact h.named b hb
    · rw [List.mem_singleton.mp hb]
      rintro rfl
      cases he
  ends b hb := by
    rcases List.mem_append.mp hb with hb | hb
    · exact h.ends b hb
    · rw [List.mem_singleton.mp hb]
      simp [Block.EndsOnce]
  temps := by
    rw [temps_addBlock]
    exact h.temps

theorem modify (h : f.WellBuilt) (hk : k < f.blocks.length)
    (hlabel : ∀ b, (change b).label = b.label) (hends : (change f.blocks[k]).EndsOnce)
    (htemps : (Function.tempNumbers { f with blocks := f.blocks.modify k change }).Nodup) :
    WellBuilt { f with blocks := f.blocks.modify k change } := by
  have hmem {b} (hb : b ∈ f.blocks.modify k change) : b ∈ f.blocks ∨ b = change f.blocks[k] := by
    rw [List.modify_eq_take_cons_drop hk] at hb
    rcases List.mem_append.mp hb with hb | hb
    · exact .inl (List.mem_of_mem_take hb)
    · exact (List.mem_cons.mp hb).symm.imp_left List.mem_of_mem_drop
  constructor
  case labels =>
    have hsame : (f.blocks.modify k change).map (·.label) = f.blocks.map (·.label) := by
      refine List.ext_getElem? fun j => ?_
      by_cases hj : k = j <;> simp [hj, Function.comp_def, hlabel]
    exact hsame ▸ h.labels
  case named =>
    intro b hb
    rcases hmem hb with hb | rfl
    · exact h.named b hb
    · rw [hlabel]
      exact h.named _ (List.getElem_mem hk)
  case ends =>
    intro b hb
    rcases hmem hb with hb | rfl
    · exact h.ends b hb
    · exact hends
  case temps => exact htemps

end WellBuilt

/-- A block is replaced by one that defines temporaries of the block, and others. -/
theorem temps_modify (hk : k < f.blocks.length) (change : Block → Block)
    (h : (IL.temps (change f.blocks[k]).instrs).Sublist (IL.temps f.blocks[k].instrs ++ ts)) :
    ∃ us, (tempNumbers { f with blocks := f.blocks.modify k change }).Sublist us ∧
      us.Perm (f.tempNumbers ++ ts) := by
  let before := (f.blocks.take k).flatMap fun b => IL.temps b.instrs
  let after := (f.blocks.drop (k + 1)).flatMap fun b => IL.temps b.instrs
  have hsplit (change : Block → Block) :
      tempNumbers { f with blocks := f.blocks.modify k change } =
        before ++ (IL.temps (change f.blocks[k]).instrs ++ after) := by
    simp [tempNumbers, List.modify_eq_take_cons_drop hk, before, after]
  have hold : f.tempNumbers = before ++ (IL.temps f.blocks[k].instrs ++ after) := by
    have hid := hsplit id
    rwa [List.modify_id] at hid
  refine ⟨before ++ ((IL.temps f.blocks[k].instrs ++ ts) ++ after), ?_, ?_⟩
  · rw [hsplit]
    exact (List.Sublist.refl _).append (h.append (List.Sublist.refl _))
  · rw [hold, List.append_assoc, List.append_assoc, List.append_assoc]
    exact (List.Perm.append_left _ (List.Perm.append_left _ List.perm_append_comm))

end Function

/-! ### Builders -/

namespace Builder

variable {b : Builder}

theorem block?_eq (h : b.block? = some block) :
    ∃ f k, b.function = some f ∧ b.current = some k ∧ ∃ hk : k < f.blocks.length,
      block = f.blocks[k] := by
  simp only [block?, bind, Option.bind_eq_some_iff, List.getElem?_eq_some_iff] at h
  obtain ⟨f, hf, k, hc, hk, rfl⟩ := h
  exact ⟨f, k, hf, hc, hk, rfl⟩

namespace Ok

theorem start (name : String) : Ok { finished := { name } } where
  module := ⟨List.nodup_nil, fun _ h => nomatch h⟩
  fresh := by simp
  current := by simp

theorem wellBuilt (h : b.Ok) (hf : b.function = some f) : f.WellBuilt :=
  h.module.functions f (by simp [Builder.module, hf])

/-- The function under construction is replaced by one that has at least its blocks. -/
theorem withFunction (h : b.Ok) (hf : b.function = some f) (hw : f'.WellBuilt)
    (hfresh : ∀ t ∈ f'.tempNumbers, t < b.nextTemp) (hlen : f.blocks.length ≤ f'.blocks.length) :
    Ok { b with function := some f' } where
  module := by
    refine ⟨h.module.globals, fun g hg => ?_⟩
    rcases List.mem_append.mp hg with hg | hg
    · exact h.module.functions g (List.mem_append_left _ hg)
    · rwa [List.mem_singleton.mp hg]
  fresh := by
    rintro g ⟨⟩
    exact hfresh
  current k hk := by
    obtain ⟨g, hg, hlt⟩ := h.current k hk
    obtain rfl : f = g := Option.some.inj (hf.symm.trans hg)
    exact ⟨f', rfl, by omega⟩

theorem nextTemp (h : b.Ok) : Ok { b with nextTemp := b.nextTemp + 1 } where
  module := h.module
  fresh f hf t ht := Nat.lt_succ_of_lt (h.fresh f hf t ht)
  current := h.current

/-- The current block is changed. The temporaries that it then defines in addition are new. -/
theorem modifyBlock (h : b.Ok) (hblock : b.block? = some block)
    (hlabel : ∀ b, (change b).label = b.label) (hends : (change block).EndsOnce) (ts : List Nat)
    (htemps : (temps (change block).instrs).Sublist (temps block.instrs ++ ts)) (hts : ts.Nodup)
    (hlt : ∀ t ∈ ts, t < b.nextTemp) (hnew : ∀ f, b.function = some f → ∀ t ∈ f.tempNumbers, t ∉ ts) :
    (b.modifyBlock change).Ok := by
  obtain ⟨f, k, hf, hc, hk, rfl⟩ := block?_eq hblock
  have heq : b.modifyBlock change =
      { b with function := some { f with blocks := f.blocks.modify k change } } := by
    simp [Builder.modifyBlock, hc, Builder.modifyFunction, hf]
  obtain ⟨us, hsub, hperm⟩ := Function.temps_modify hk change htemps
  have hnodup : us.Nodup := by
    refine hperm.nodup_iff.mpr (List.nodup_append.mpr ⟨(h.wellBuilt hf).temps, hts, ?_⟩)
    rintro t ht _ hmem rfl
    exact hnew f hf t ht hmem
  rw [heq]
  refine h.withFunction hf ((h.wellBuilt hf).modify hk hlabel hends (hnodup.sublist hsub)) ?_ ?_
  · intro t ht
    rcases List.mem_append.mp (hperm.mem_iff.mp (hsub.mem ht)) with ht | ht
    · exact h.fresh f hf t ht
    · exact hlt t ht
  · simp

end Ok

end Builder

/-! ### Steps -/

namespace Build

/-- A step leads to a builder that is in order again. If it fails, the module is the same. -/
def Keeps (b : Builder) (x : Build α) : Prop :=
  (x.run.run b).2.Ok ∧ ∀ e, (x.run.run b).1 = .error e → (x.run.run b).2.module = b.module

namespace Keeps

theorem same (hb : b.Ok) (h : x.run.run b = (r, b)) : Keeps b x := by
  unfold Keeps
  rw [h]
  exact ⟨hb, fun _ _ => rfl⟩

theorem ok {x : Build α} (h : x.run.run b = (.ok a, b')) (hb : b'.Ok) : Keeps b x := by
  unfold Keeps
  rw [h]
  exact ⟨hb, fun _ he => by cases he⟩

theorem answer {x : Build α} (h : Keeps b x) (g : α → β) : Keeps b (x >>= fun a => pure (g a)) := by
  unfold Keeps at h ⊢
  rw [run_bind]
  rcases hx : x.run.run b with ⟨_ | _, b'⟩ <;> rw [hx] at h
  · exact ⟨h.1, fun e _ => h.2 _ rfl⟩
  · exact ⟨h.1, fun e he => by cases he⟩

theorem after (hx : x.run.run b = (.ok a, b'))
    (hm : b'.module = b.module) (hy : Keeps b' (y a)) : Keeps b (x >>= y) := by
  unfold Keeps at hy ⊢
  rw [run_bind, hx]
  exact ⟨hy.1, fun e he => (hy.2 e he).trans hm⟩

end Keeps

theorem keeps_addGlobal (hb : b.Ok) (g : Global) : Keeps b (addGlobal g) := by
  have hrun := run_addGlobal b g
  split at hrun
  case isTrue => exact .same hb hrun
  case isFalse hnew =>
    have hnot : ∀ x ∈ b.finished.globals, x.name ≠ g.name := by
      simpa [Module.global?] using hnew
    refine .ok hrun ⟨⟨?_, hb.module.functions⟩, hb.fresh, hb.current⟩
    show ((b.finished.globals ++ [g]).map (·.name)).Nodup
    rw [List.map_append, List.nodup_append]
    refine ⟨hb.module.globals, by simp, ?_⟩
    simpa using hnot

theorem keeps_startFunction (hb : b.Ok) (name : String) (type : Ty) (params : List Slot) :
    Keeps b (startFunction name type params) := by
  have hrun := run_startFunction b name type params
  split at hrun
  case isTrue => exact .same hb hrun
  case isFalse =>
    refine .ok hrun ⟨⟨hb.module.globals, fun f hf => ?_⟩, ?_, by simp⟩
    · rcases List.mem_append.mp hf with hf | hf
      · exact hb.module.functions f hf
      · rw [List.mem_singleton.mp hf]
        constructor <;> simp [Function.tempNumbers]
    · rintro f ⟨⟩ t ht
      cases ht

theorem keeps_addBlock (hb : b.Ok) (label : String) : Keeps b (addBlock label) := by
  have hrun := run_addBlock b label
  split at hrun
  case h_1 => exact .same hb hrun
  case h_2 f hf =>
    split at hrun
    · exact .same hb hrun
    split at hrun
    · exact .same hb hrun
    case isFalse he hl =>
      simp only [Builder.modifyFunction, hf, Option.map_some] at hrun
      refine .ok hrun (hb.withFunction hf ((hb.wellBuilt hf).addBlock (by simpa using he)
        (by simpa using hl)) ?_ (by simp))
      rw [Function.temps_addBlock]
      exact hb.fresh f hf

theorem keeps_addBlockTo (hb : b.Ok) (k : Nat) (label : String) : Keeps b (addBlockTo k label) := by
  have hrun := run_addBlockTo b k label
  split at hrun
  case h_1 => exact .same hb hrun
  case h_2 f hf =>
    split at hrun
    · exact .same hb hrun
    split at hrun
    · exact .same hb hrun
    case isFalse he hl =>
      obtain ⟨hk, rfl⟩ := List.getElem?_eq_some_iff.mp hf
      refine .ok hrun ⟨⟨hb.module.globals, fun g hg => ?_⟩, hb.fresh, hb.current⟩
      have hold : ∀ g ∈ b.finished.functions, g.WellBuilt := fun g hg =>
        hb.module.functions g (List.mem_append_left _ hg)
      rcases List.mem_append.mp hg with hg | hg
      · rw [List.modify_eq_take_cons_drop hk] at hg
        rcases List.mem_append.mp hg with hg | hg
        · exact hold g (List.mem_of_mem_take hg)
        rcases List.mem_cons.mp hg with rfl | hg
        · exact (hold _ (List.getElem_mem hk)).addBlock (by simpa using he) (by simpa using hl)
        · exact hold g (List.mem_of_mem_drop hg)
      · exact hb.module.functions g (List.mem_append_right _ hg)

theorem keeps_addLocal (hb : b.Ok) (s : Slot) : Keeps b (addLocal s) := by
  cases hf : b.function with
  | none =>
    refine .same hb (r := .ok ()) ?_
    show (_, b.modifyFunction _) = _
    rw [Builder.modifyFunction, hf, Option.map_none, ← hf]
  | some f =>
    have hw := hb.wellBuilt hf
    refine .ok rfl ?_
    show (b.modifyFunction _).Ok
    rw [Builder.modifyFunction, hf]
    exact hb.withFunction hf ⟨hw.labels, hw.named, hw.ends, hw.temps⟩ (hb.fresh f hf) (Nat.le_refl _)

/-- A block takes an instruction only if none of its instructions ends it. -/
theorem endsOnce_append {block : Block} (h : block.EndsOnce) (hopen : block.isTerminated = false)
    (i : Instr) : Block.EndsOnce { block with instrs := block.instrs ++ [i] } := by
  intro j hj
  rw [List.dropLast_concat] at hj
  rcases List.eq_nil_or_concat block.instrs with hnil | ⟨is, last, heq⟩
  · rw [hnil] at hj
    cases hj
  · rw [List.concat_eq_append] at heq
    rw [heq, List.mem_append] at hj
    rcases hj with hj | hj
    · exact h j (by rwa [heq, List.dropLast_concat])
    · simpa [Block.isTerminated, Block.terminator?, heq, List.mem_singleton.mp hj] using hopen

/-- An instruction is added whose result is no temporary that is there. -/
theorem keeps_append (hb : b.Ok) (i : Instr) (hlt : ∀ t, i.temp? = some t → t < b.nextTemp)
    (hnew : ∀ t, i.temp? = some t → ∀ f, b.function = some f → t ∉ f.tempNumbers) :
    Keeps b (append i) := by
  have hrun := run_append b i
  split at hrun
  case h_1 => exact .same hb hrun
  case h_2 block hblock =>
    split at hrun
    case isTrue => exact .same hb hrun
    case isFalse hopen =>
      obtain ⟨f, k, hf, -, hk, rfl⟩ := Builder.block?_eq hblock
      have hends := (hb.wellBuilt hf).ends _ (List.getElem_mem hk)
      refine .ok hrun (hb.modifyBlock hblock (fun _ => rfl)
        (endsOnce_append hends (by simpa using hopen) i) i.temp?.toList ?_ ?_ ?_ ?_)
      · rw [temps_append]
        cases ht : i.temp? <;> simp [temps, ht]
      · cases i.temp? <;> simp
      · simpa using hlt
      · intro g hg t ht hmem
        exact hnew t (by simpa using hmem) g hg ht

theorem keeps_append_of_none (hb : b.Ok) (i : Instr) (hi : i.temp? = none) :
    Keeps b (append i) :=
  keeps_append hb i (by simp [hi]) (by simp [hi])

theorem keeps_freshTemp (hb : b.Ok) (type : Ty) : Keeps b (freshTemp type) :=
  .ok rfl hb.nextTemp

theorem keeps_appendResult (hb : b.Ok) (i : Instr) : Keeps b (appendResult i) := by
  refine .after (x := freshTemp i.type) rfl rfl (.answer (keeps_append hb.nextTemp _ ?_ ?_) _)
  · rintro t ⟨⟩
    exact Nat.lt_succ_self _
  · rintro t ⟨⟩ f hf hmem
    exact Nat.lt_irrefl _ (hb.fresh f hf _ hmem)

theorem keeps_renameResult (hb : b.Ok) (temp target : Value) :
    Keeps b (renameResult temp target) := by
  have hrun := run_renameResult b temp target
  split at hrun
  case h_1 => exact .same hb hrun
  case h_2 last hlast =>
    split at hrun
    case isFalse => exact .same hb hrun
    case isTrue hc =>
      obtain ⟨block, hblock, hlast⟩ := Option.bind_eq_some_iff.mp hlast
      obtain ⟨is, his⟩ := List.getLast?_eq_some_iff.mp hlast
      obtain ⟨f, k, hf, -, hk, rfl⟩ := Builder.block?_eq hblock
      have hends := (hb.wellBuilt hf).ends _ (List.getElem_mem hk)
      have hvar : target.isVar = true := by
        simp only [canRename, Bool.and_eq_true] at hc
        exact hc.1.1.1.1
      have hnone : Instr.temp? { last with result := some target } = none := by
        cases target <;> first | rfl | cases hvar
      refine .ok hrun (hb.modifyBlock hblock (fun _ => rfl) ?_ [] ?_ ?_ ?_ ?_)
      · intro j hj
        rw [List.dropLast_concat] at hj
        exact hends j hj
      · rw [temps_append, his, List.dropLast_concat, temps_append, List.append_nil]
        exact (List.Sublist.refl _).append (by simp [temps, hnone])
      all_goals simp

/-! ### Calls -/

theorem Call.keeps (hb : b.Ok) (c : Call) (hc : c.Valid b) : Keeps b c.step := by
  have discarded {α : Type} {x : Build α} (h : Keeps b x) : Keeps b (discard x) :=
    h.answer fun _ => ()
  cases c with
  | addGlobal g => exact keeps_addGlobal hb g
  | addClass c => exact .ok rfl ⟨⟨hb.module.globals, hb.module.functions⟩, hb.fresh, hb.current⟩
  | startFunction name type params => exact keeps_startFunction hb name type params
  | addBlock label => exact discarded (keeps_addBlock hb label)
  | addBlockTo function label => exact keeps_addBlockTo hb function label
  | continueAt block =>
    refine .ok rfl ⟨hb.module, hb.fresh, ?_⟩
    rintro k ⟨⟩
    exact hc
  | addLocal s => exact keeps_addLocal hb s
  | freshTemp type => exact discarded (keeps_freshTemp hb type)
  | compare op lhs rhs loc =>
    refine discarded ?_
    unfold Build.compare
    split
    · exact keeps_appendResult hb _
    · exact .same hb rfl
  | call callee args type loc =>
    refine discarded ?_
    unfold Build.call
    split
    · exact (keeps_append_of_none hb _ rfl).answer _
    · exact (keeps_appendResult hb _).answer _
  | assign target value loc =>
    show Keeps b (Build.assign target value loc)
    unfold Build.assign
    split
    · refine keeps_append_of_none hb _ ?_
      cases target <;> first | rfl | contradiction
    · exact .same hb rfl
  | renameResult temp target => exact discarded (keeps_renameResult hb temp target)
  | store | fieldStore | br | cbr | switch | ret => exact keeps_append_of_none hb _ rfl
  | binary | unary | alloca | load | gep | cast | fieldLoad | newObject =>
    exact discarded (keeps_appendResult hb _)

end Build

theorem Builder.Reached.ok (h : Reached b) : b.Ok := by
  induction h with
  | start name => exact .start name
  | call c _ hc ih => exact (c.keeps ih hc).1

/-- Whatever was called on an empty module, the module is well built, and no call that fails changes
it. -/
theorem Builder.Reached.module_wellBuilt {b : Builder} (h : b.Reached) :
    b.module.WellBuilt ∧
      ∀ c : Build.Call, c.Valid b → c.error? b ≠ none → (c.after b).module = b.module := by
  refine ⟨h.ok.module, fun c hc herror => ?_⟩
  obtain ⟨e, he⟩ := Option.ne_none_iff_exists'.mp herror
  refine (c.keeps h.ok hc).2 e ?_
  unfold Build.Call.error? at he
  split at he
  · cases he
  · cases he
    assumption

/-- A block that has ended takes no instruction. A temporary was taken for the result, but the module
is the same. -/
theorem Builder.refused_afterRet :
    let b := [Build.Call.startFunction "f" {} [], .addBlock "entry", .continueAt 0,
      .binary .and .boolean (.bool true) (.bool false) {}, .ret none {}].foldl
        (fun b c => c.after b) { finished := { name := "m" } }
    let c := Build.Call.binary .and .boolean (.bool true) (.bool false) {}
    c.error? b = some (.afterTerminator "entry") ∧ (c.after b).nextTemp = 2 ∧
      b.module.WellBuilt ∧ (c.after b).module = b.module := by
  intro b c
  have hb : b.Reached :=
    .call _ (.call _ (.call _ (.call _ (.call _ (.start "m") trivial) trivial)
      ⟨_, rfl, by decide⟩) trivial) trivial
  have herror : c.error? b = some (.afterTerminator "entry") := by decide
  exact ⟨herror, by decide, hb.module_wellBuilt.1,
    hb.module_wellBuilt.2 c trivial (by simp [herror])⟩

end BasicSSA.IL
