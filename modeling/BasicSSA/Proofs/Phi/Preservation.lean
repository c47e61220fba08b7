import BasicSSA.Proofs.IL.Machine
import BasicSSA.Proofs.Phi.Placement

/-!
# Placing phis preserves runs

A run of a function by names and a run of the function with phis by versions go side by side. At
each point the registers agree on every variable that is still read: the register of its name holds
what the register of the version that reaches the point holds (`Agrees`). An instruction keeps that
up because it defines the version that reaches its successors, and an edge because the phis of the
block it enters move the versions over.
-/

namespace BasicSSA.IL

open IL.Graph

/-! ### Instructions -/

theorem Value.unversioned_use (env : Versions) (v : Value) :
    (v.use env).unversioned = v.unversioned := by
  cases v <;> rfl

theorem unversioned_renameInstr (env last : Versions) (i : Instr) :
    (renameInstr env last i).1.unversioned = i.unversioned := by
  have hoperands : (renamedOperands env i).map Value.unversioned =
      i.operands.map Value.unversioned := by
    unfold renamedOperands
    split
    · rfl
    · simp [Function.comp_def, Value.unversioned_use]
  rcases renameInstr_cases env last i with ⟨_, _, h⟩ | ⟨x, t, hvar, h⟩
  · rw [h]
    simp [Instr.unversioned, hoperands]
  · obtain ⟨v, hv⟩ : ∃ v, i.result = some (.var x v t) := by
      unfold Instr.definedVar? at hvar
      split at hvar <;> simp_all
    rw [h]
    simp [Instr.unversioned, hoperands, hv, Value.unversioned]

theorem renameInstr_kept (env last : Versions) (i : Instr) :
    (renameInstr env last i).1.name = i.name ∧ (renameInstr env last i).1.type = i.type ∧
      (renameInstr env last i).1.labels = i.labels := by
  rcases renameInstr_cases env last i with ⟨_, _, h⟩ | ⟨_, _, _, h⟩ <;> simp [h]

theorem operands_renameInstr (hop : i.op ≠ .phi) :
    (renameInstr env last i).1.operands = i.operands.map (Value.use env) := by
  rcases renameInstr_cases env last i with ⟨_, _, h⟩ | ⟨_, _, _, h⟩ <;>
    simp [h, renamedOperands, hop]

theorem length_renameInstrs (env last : Versions) (is : List Instr) :
    (renameInstrs env last is).1.length = is.length := by
  induction is generalizing env last with
  | nil => rfl
  | cons i is ih => simp [renameInstrs_cons, ih]

/-- What is read first after an instruction that does not define it is read first before. -/
theorem readsFirst_cons (hx : ∀ t, i.definedVar? ≠ some (x, t))
    (h : readsFirst x rest = true) : readsFirst x (i :: rest) = true := by
  rw [readsFirst, h, Bool.and_true, Bool.or_eq_true]
  refine .inr ?_
  cases hd : i.definedVar? with
  | none => rfl
  | some v =>
    have : v.1 ≠ x := fun he => hx v.2 (by rw [hd, ← he])
    simp [this]

/-! ### Registers -/

/-- The registers by version agree with those by name on what is still read: the variables that
some block needs from before, and those that the given instructions read first. -/
structure Agrees (f : Function) (env : Versions) (rest : List Instr) (r r' : Registers V) :
    Prop where
  temp : r.temp = r'.temp
  var : ∀ x, f.isLive f.graph.domTree x = true ∨ readsFirst x rest = true →
    r.var x (env.of x) = r'.var x 0

namespace Agrees

variable {r : Registers V}

theorem values (h : Agrees f env (i :: rest) r r') (last : Versions) (hop : i.op ≠ .phi)
    (S : Interpretation V W) :
    (renameInstr env last i).1.operands.map (r.read S .byVersion) =
      i.operands.map (r'.read S .byName) := by
  rw [operands_renameInstr hop, List.map_map]
  refine List.map_congr_left fun v hv => ?_
  cases v with
  | var x n t =>
    refine h.var x (.inr ?_)
    have hx : (x, t) ∈ varsOf i.operands := List.mem_filterMap.mpr ⟨_, hv, rfl⟩
    simp only [readsFirst, Bool.or_eq_true, List.any_eq_true]
    exact .inl ⟨_, hx, by simp⟩
  | temp n t => exact congrFun h.temp n
  | _ => rfl

theorem write (h : Agrees f env (i :: rest) r r') (last : Versions) (value : V) :
    Agrees f (renameInstr env last i).2.1 rest
      (r.write .byVersion (renameInstr env last i).1.result value)
      (r'.write .byName i.result value) := by
  unfold renameInstr
  rcases hres : i.result with _ | v
  · refine ⟨h.temp, fun x hx => h.var x (hx.imp_right ?_)⟩
    exact readsFirst_cons (by simp [Instr.definedVar?, hres])
  · cases v with
    | var y n t =>
      refine ⟨h.temp, fun x hx => ?_⟩
      by_cases hxy : x = y
      · subst hxy
        simp [Registers.write, Registers.setVar, Addressing.slot]
      · have hold := h.var x <| hx.imp_right <| readsFirst_cons (by
          simp [Instr.definedVar?, hres, Ne.symm hxy])
        simpa [Registers.write, Registers.setVar, hxy, Versions.of_cons_ne hxy] using hold
    | temp n t =>
      refine ⟨?_, fun x hx => h.var x (hx.imp_right ?_)⟩
      · simp [Registers.write, Registers.setTemp, h.temp]
      · exact readsFirst_cons (by simp [Instr.definedVar?, hres])
    | _ =>
      refine ⟨h.temp, fun x hx => h.var x (hx.imp_right ?_)⟩
      exact readsFirst_cons (by simp [Instr.definedVar?, hres])

end Agrees

/-! ### Phis -/

theorem lookup_zip_map {l : List Nat} {label : Nat → String} {v : Nat → Value}
    (hinj : ∀ q ∈ l, label q = label p → q = p) (hp : p ∈ l) :
    ((l.map label).zip (l.map v)).lookup (label p) = some (v p) := by
  induction l with
  | nil => cases hp
  | cons q l ih =>
    rw [List.map_cons, List.map_cons, List.zip_cons_cons, List.lookup_cons]
    by_cases hq : q = p
    · simp [hq]
    · have hne : label p ≠ label q := fun h => hq (hinj q List.mem_cons_self h.symm)
      rw [beq_false_of_ne hne]
      exact ih (fun q hq => hinj q (List.mem_cons_of_mem _ hq))
        ((List.mem_cons.mp hp).resolve_left (Ne.symm hq))

theorem dropWhile_phis {ps is : List Instr} (hps : ∀ i ∈ ps, i.op = .phi)
    (his : ∀ i ∈ is, i.op ≠ .phi) :
    (ps ++ is).takeWhile (·.op = .phi) = ps ∧ (ps ++ is).dropWhile (·.op = .phi) = is := by
  rw [List.takeWhile_append_of_pos (by simpa using hps),
    List.dropWhile_append_of_pos (by simpa using hps)]
  cases is with
  | nil => simp
  | cons i is => simp [his i]

namespace Function

variable {f : Function}

section

variable (hf : f.Ready) (hp : f.graph.Reachable p) (he : b ∈ f.graph.succs p) (mid : Versions)

include hf hp he mid

/-- A phi reads the version at the end of the predecessor that the run comes from. -/
theorem Ready.operandFor?_placedPhi (v : String × Ty) :
    (f.placedPhi b mid v).operandFor? (f.label p) = some (.var v.1 ((f.stop p).of v.1) v.2) := by
  refine lookup_zip_map (fun q hq h => ?_) ((mem_reachablePreds f.closed_graph hf.pos).mpr ⟨hp, he⟩)
  have hq := ((mem_reachablePreds f.closed_graph hf.pos).mp hq).1
  exact hf.label_inj (hf.lt_length hq) (hf.lt_length hp) h

/-- Phis of different variables each move one version over and leave the other variables alone. -/
theorem Ready.takePhis_placedPhi (S : Interpretation V W)
    {vs : List (String × Ty)} (hvs : (vs.map (·.1)).Nodup) (old r : Registers V) :
    let r' := old.takePhis S .byVersion (f.label p) (vs.map (f.placedPhi b mid)) r
    r'.temp = r.temp ∧
      (∀ x, x ∈ vs.map (·.1) → r'.var x (mid.of x) = old.var x ((f.stop p).of x)) ∧
      ∀ x v, x ∉ vs.map (·.1) → r'.var x v = r.var x v := by
  induction vs generalizing r with
  | nil => exact ⟨rfl, by simp, fun _ _ _ => rfl⟩
  | cons v vs ih =>
    obtain ⟨hv, hvs⟩ := List.nodup_cons.mp hvs
    simp only [List.map_cons, Registers.takePhis, hf.operandFor?_placedPhi hp he mid v]
    obtain ⟨htemp, hmoved, hkept⟩ := ih hvs (r.setVar v.1 (mid.of v.1) (old.var v.1 ((f.stop p).of v.1)))
    refine ⟨htemp, fun x hx => ?_, fun x n hx => ?_⟩
    · rcases List.mem_cons.mp hx with rfl | hx
      · refine (hkept _ _ hv).trans ?_
        simp [Registers.setVar]
      · exact hmoved x hx
    · rw [List.mem_cons, not_or] at hx
      refine (hkept x n hx.2).trans ?_
      simp [Registers.setVar, hx.1]

end

/-- A variable that a reachable block reads first is live. -/
theorem Ready.isLive_of_readsFirst (hf : f.Ready) (hb : f.graph.Reachable b)
    (h : readsFirst x (f.block b).instrs = true) : f.isLive f.graph.domTree x = true := by
  refine List.any_eq_true.mpr ⟨(f.block b, b), mem_reachable.mpr ⟨?_, ?_⟩, h⟩
  · exact getElem?_blocks (hf.lt_length hb)
  · exact (contains_domTree f.closed_graph hf.pos).mpr hb

/-! ### Labels -/

theorem labels_placePhis (f : Function) :
    f.placePhis.1.blocks.map (·.label) = f.blocks.map (·.label) := by
  by_cases hne : f.blocks = []
  · simp [placePhis, placePhisAlong, hne]
  · rw [placePhis_eq hne, rename_eq, withPhis_eq]
    refine List.ext_getElem? fun n => ?_
    simp only [List.getElem?_map, List.getElem?_zipIdx, Option.map_map]
    cases f.blocks[n]? with
    | none => rfl
    | some b =>
      simp only [Option.map_some, Function.comp_apply]
      split <;> rfl

theorem blockIdx?_eq (f : Function) (l : String) :
    f.blockIdx? l = (f.blocks.map (·.label)).findIdx? (· = l) := by
  rw [blockIdx?, List.findIdx?_map]
  rfl

theorem blockIdx?_placePhis (f : Function) : f.placePhis.1.blockIdx? = f.blockIdx? := by
  funext l
  rw [blockIdx?_eq, labels_placePhis, ← blockIdx?_eq]

theorem label_placePhis (f : Function) (n : Nat) : f.placePhis.1.label n = f.label n := by
  have hlabel (f : Function) : f.label n = ((f.blocks.map (·.label))[n]?).getD "" := by
    rw [label, block, List.getElem?_map, List.getD_eq_getElem?_getD]
    cases f.blocks[n]? <;> rfl
  rw [hlabel, hlabel, labels_placePhis]

end Function

/-! ### Runs -/

/-- A point of a run by versions and one of a run by names that stand at the same place. -/
structure SamePlace (f : Function) (c c' : Point V W) : Prop where
  block : c.block = c'.block
  world : c.world = c'.world
  reachable : f.graph.Reachable c'.block
  suffix : c'.rest <:+ (f.block c'.block).instrs
  rest : ∃ env last, c.rest = (renameInstrs env last c'.rest).1 ∧
    (renameInstrs env last c'.rest).2.1 = f.stop c'.block ∧ Agrees f env c'.rest c.regs c'.regs

namespace SamePlace

variable {r : Registers V} {w : W}

/-- Where an edge is taken, the phis of the block it enters keep up the agreement. -/
theorem enter (hf : f.Ready) (hentry : f.EntryUntargeted) (hp : f.graph.Reachable p)
    (he : b ∈ f.graph.succs p) (h : Agrees f (f.stop p) [] r r') (S : Interpretation V W) :
    SamePlace f (f.placePhis.1.enter S .byVersion (f.placePhis.1.label p) b r w)
      (f.enter S .byName (f.label p) b r' w) := by
  have hb := hp.step he
  have hfree := hf.phiFree.instrs b
  obtain ⟨mid, last, hplaced⟩ := hf.exists_placedBlock hb
  have hold := @dropWhile_phis [] _ (by simp) hfree
  have hnew := dropWhile_phis (f.op_placedPhis b mid (f.phiVars b))
    (renameInstrs_ne_phi mid last hfree)
  obtain ⟨htemp, hmoved, hkept⟩ :=
    hf.takePhis_placedPhi hp he mid S (f.nodup_phiVars (n := b)) r r
  simp only [Function.enter, hplaced.block, hnew, f.label_placePhis p]
  rw [List.nil_append] at hold
  simp only [hold]
  refine ⟨rfl, rfl, hb, List.suffix_refl _, mid, last, rfl, hplaced.stop, htemp.trans h.temp, ?_⟩
  intro x hx
  have hlive : f.isLive f.graph.domTree x = true := hx.elim id (hf.isLive_of_readsFirst hb)
  have hstop : r.var x ((f.stop p).of x) = r'.var x 0 := h.var x (.inl hlive)
  by_cases hphi : x ∈ (f.phiVars b).map (·.1)
  · exact (hmoved x hphi).trans hstop
  · refine (hkept x _ hphi).trans ?_
    rw [hplaced.kept x hphi, hf.start_of_edge hentry hp he hlive hphi]
    exact hstop

theorem initial (hf : f.Ready) (hentry : f.EntryUntargeted) (r : Registers V) (w : W) :
    SamePlace f ⟨0, (f.placePhis.1.block 0).instrs, r, w⟩ ⟨0, (f.block 0).instrs, r, w⟩ := by
  obtain ⟨mid, last, hplaced⟩ := hf.exists_placedBlock .entry
  refine ⟨rfl, rfl, .entry, List.suffix_refl _, mid, last, ?_, hplaced.stop, rfl, fun x _ => ?_⟩
  · rw [hplaced.block, hf.phiVars_entry hentry]
    rfl
  · rw [hplaced.kept x (by simp [hf.phiVars_entry hentry]), hf.start_entry]

section

variable (hm : functionError? m f = none) (hf : f.Ready) (hentry : f.EntryUntargeted)

include hm hf hentry

/-- After an instruction and the same instruction renamed, both runs go on to the same place. -/
theorem advance (hb : f.graph.Reachable b)
    (hsuffix : i :: is <:+ (f.block b).instrs)
    (hstop : (renameInstrs env last (i :: is)).2.1 = f.stop b) (h : Agrees f env (i :: is) r r')
    (S : Interpretation V W) (out : V × W × Nat) :
    let i' := renameInstr env last i
    let d := f.placePhis.1.advance S .byVersion ⟨b, is', r, w⟩ i'.1
      (renameInstrs i'.2.1 i'.2.2 is).1 out
    let d' := f.advance S .byName ⟨b, i :: is, r', w⟩ i is out
    d.1 = d'.1 ∧ SamePlace f d.2 d'.2 := by
  obtain ⟨value, world, target⟩ := out
  have hop : (renameInstr env last i).1.op = i.op := op_renameInstr env last i
  have hlabels := (renameInstr_kept env last i).2.2
  have hwrite := h.write last value
  rw [renameInstrs_cons] at hstop
  simp only [Function.advance, hop, hlabels, f.blockIdx?_placePhis]
  by_cases hterm : i.op.isTerminator = true
  · obtain rfl := terminator_last hm (hf.lt_length hb) hsuffix hterm
    simp only [renameInstrs] at hstop
    rw [hstop] at hwrite
    simp only [hterm, if_true]
    cases hidx : (i.labels[target]?).bind f.blockIdx? with
    | none => exact ⟨rfl, rfl, rfl, hb, List.nil_suffix, f.stop b, last, rfl, rfl, hwrite⟩
    | some n =>
      obtain ⟨l, hl, hn⟩ := Option.bind_eq_some_iff.mp hidx
      have hedge : n ∈ f.graph.succs b := by
        refine Function.mem_succs_graph.mpr ⟨l, Block.mem_targets.mpr ⟨i, ?_, ?_⟩, hn⟩
        · obtain ⟨pre, hpre⟩ := hsuffix
          simp [Block.terminator?, ← hpre, hterm]
        · exact List.mem_of_getElem? hl
      exact ⟨rfl, enter hf hentry hb hedge hwrite S⟩
  · simp only [hterm]
    refine ⟨rfl, rfl, rfl, hb, (List.suffix_cons i is).trans hsuffix, _, _, rfl, hstop, hwrite⟩

/-- From points at the same place both runs stop, or show the same and come to the same place. -/
theorem step (h : SamePlace f c c')
    (S : Interpretation V W) :
    (f.placePhis.1.step S .byVersion c = none ∧ f.step S .byName c' = none) ∨
      ∃ events d d', f.placePhis.1.step S .byVersion c = some (events, d) ∧
        f.step S .byName c' = some (events, d') ∧ SamePlace f d d' := by
  obtain ⟨b, rest, r, w⟩ := c
  obtain ⟨b', rest', r', w'⟩ := c'
  obtain ⟨hblock, hworld, hreach, hsuffix, env, last, hrest, hstop, hagrees⟩ := h
  simp only at hblock hworld hreach hsuffix hrest hstop hagrees
  subst hblock hworld hrest
  cases rest' with
  | nil => exact .inl ⟨rfl, rfl⟩
  | cons i is =>
    have hlt := hf.lt_length hreach
    have hop : i.op ≠ .phi :=
      hf.phiFree.instrs _ i (hsuffix.subset (by simp))
    -- the two instructions differ in nothing that an operation sees
    have hsame := unversioned_renameInstr env last i
    obtain ⟨hname, htype, _⟩ := renameInstr_kept env last i
    simp only [Function.step, renameInstrs_cons, op_renameInstr, hop, if_false, hname, htype,
      hagrees.values last hop S, hsame, length_renameInstrs]
    generalize S.exec w i.op i.name i.type (i.operands.map (r'.read S .byName)) = out
    obtain ⟨hevents, hplace⟩ := advance hm hf hentry hreach hsuffix hstop hagrees S out
    exact .inr ⟨_, _, _, rfl, by rw [hevents], hplace⟩

theorem trace_eq (S : Interpretation V W) (n : Nat)
    (h : SamePlace f c c') : f.placePhis.1.trace S .byVersion n c = f.trace S .byName n c' := by
  induction n generalizing c c' with
  | zero => rfl
  | succ n ih =>
    rcases h.step hm hf hentry S with ⟨hc, hc'⟩ | ⟨events, d, d', hc, hc', hd⟩
    · simp [Function.trace, hc, hc']
    · simp [Function.trace, hc, hc', ih hd]

end

end SamePlace

theorem Function.ready_of_accepted (hm : functionError? m f = none)
    (hfree : f.PhiFree) : f.Ready :=
  let ⟨hne, hlabels, _⟩ := functionError?_eq_none.mp hm
  ⟨hne, hlabels, hfree⟩

/-- Placing phis keeps the meaning of a function. Whatever the operations mean and whatever the
registers hold at the start, a run by names and a run with phis by versions enter the same blocks
and execute the same instructions with the same values of operands, in any number of steps. -/
theorem run_placePhis {m : Module} {f : Function} (hm : verify m = .ok ()) (hf : f ∈ m.functions)
    (hfree : f.PhiFree) (hentry : f.EntryUntargeted) (S : Interpretation V W)
    (regs : Registers V) (world : W) (steps : Nat) :
    f.placePhis.1.run S .byVersion regs world steps = f.run S .byName regs world steps := by
  have hok := functionError?_of_verify hm hf
  have hready := Function.ready_of_accepted hok hfree
  exact congrArg _ ((SamePlace.initial hready hentry regs world).trace_eq hok hready hentry S steps)

/-- Differences and comparisons of integers; a branch goes to its first target if its operand is
not zero. -/
def integers : Interpretation Int Unit where
  const
    | .int n _ => n
    | _ => 0
  exec _ op _ _ values :=
    match op, values with
    | .sub, [a, b] => (a - b, (), 0)
    | .cmpGt, [a, b] => (if a > b then 1 else 0, (), 0)
    | .assign, [a] => (a, (), 0)
    | .cbr, [a] => (0, (), if a = 0 then 1 else 0)
    | _, _ => (0, (), 0)

theorem run_placePhis_countdown :
    verify { functions := [countdown] } = .ok () ∧ countdown.PhiFree ∧
      countdown.EntryUntargeted ∧ countdown.placePhis.1 ≠ countdown ∧
      ∀ start steps, countdown.placePhis.1.run integers .byVersion ⟨fun _ _ => start, fun _ => 0⟩ ()
          steps =
        countdown.run integers .byName ⟨fun _ _ => start, fun _ => 0⟩ () steps :=
  ⟨rfl, by decide, by decide, by decide +kernel, fun start steps =>
    run_placePhis (m := { functions := [countdown] }) rfl List.mem_cons_self (by decide)
      (by decide) integers ⟨fun _ _ => start, fun _ => 0⟩ () steps⟩

end BasicSSA.IL
