import BasicSSA.Proofs.Lower.Written.Actions

/-!
# The instructions of a module

Each function of the module of an accepted program is that of a procedure, with as many parameters
as the procedure has, or it sets the variables of the module. All its instructions keep to the rule.
-/

namespace BasicSSA

open IL (Value Ty Opcode Instr Function Module)

namespace Analysis

variable {a : Analysis}

/-- A function is that of a procedure, or it sets the variables of the module. -/
inductive Heads (a : Analysis) (f : Function) : Prop
  | routine : r ∈ a.routines → f.name = r.name →
    f.params.length = r.owner.isSome.toNat + r.procedure.params.length → Heads a f
  | init : f.name = "__init" → f.params = [] → Heads a f

/-- A function of the module of a program. -/
structure Written (a : Analysis) (f : Function) : Prop where
  heads : a.Heads f
  instrs : ∀ b ∈ f.blocks, ∀ i ∈ b.instrs, a.Allows f.returnType.kind i

theorem Allows.of_anonymous (h : a.Allows k i.anonymous) : a.Allows k i := by
  refine ⟨h.1, fun hop => ?_⟩
  cases h.2 hop with
  | runtime hname => exact .runtime hname
  | site hn hc hfunction hlength hloc => exact .site hn hc hfunction hlength hloc

/-- What is returned is of the kind of the return type. -/
theorem allows_of_ret {f : Function} (hf : f.Built (a.policy f.returnType)) (hb : b ∈ f.blocks)
    (hi : i ∈ b.instrs) (hop : i.op = .ret) : a.Allows f.returnType.kind i := by
  rcases hf.instr hb hi with hallow | ht
  · have hterm := hallow.not_terminator
    rw [hop] at hterm
    cases hterm
  · refine ⟨.inl ?_, fun hc => by cases hop.symm.trans hc⟩
    rw [Policy.Ends, hop] at ht
    obtain ⟨-, -, hlen, hreturns⟩ := ht
    rw [Instr.Agrees, hop]
    intro v hv
    cases hoperands : i.operands with
    | nil =>
      rw [hoperands] at hv
      cases hv
    | cons w ws =>
      rw [hoperands] at hv hlen hreturns
      cases List.eq_nil_of_length_eq_zero (Nat.le_zero.mp (Nat.le_of_succ_le_succ hlen))
      cases List.mem_singleton.mp hv
      have hkind : some v.type.kind = f.returnType.returned? := hreturns
      unfold Ty.returned? at hkind
      split at hkind
      · cases hkind
      · exact Option.some.inj hkind

/-- Blocks keep to the rule if their code does, up to the results of instructions. -/
theorem written_of_code {f : Function} (hf : f.Built (a.policy f.returnType)) (hheads : a.Heads f)
    (hcode : ∀ b ∈ f.blocks, ∀ i ∈ b.instrs.map Instr.anonymous,
      i.op = .ret ∨ ∀ k, a.Allows k i) : a.Written f := by
  refine ⟨hheads, fun b hb i hi => ?_⟩
  rcases hcode b hb _ (List.mem_map_of_mem hi) with hop | hallows
  · exact allows_of_ret hf hb hi hop
  · exact (hallows _).of_anonymous

namespace Settled

variable (h : a.Settled)

include h

theorem ready (hl : lower a name = .ok m) : a.Ready := by
  have hm := Lower.lower_ok hl (Lower.keeps_anything _ _)
  have hnames := hm.names
  rw [hm.globals] at hnames
  exact ⟨h.accepted, h.isVoid_void, h.checked, hm.symbols, hnames⟩

end Settled

/-- Code is made from all statements of a procedure. -/
theorem uses_of_routine (hr : r ∈ a.routines) (hn : n ∈ Stmt.nodesList r.body) : a.Uses n := by
  cases n with
  | expr => trivial
  | stmt s =>
    obtain ⟨hitem, hbody⟩ := item_of_routine hr
    have hmem (n : Node Note) (h : n = .stmt s ∨ n ∈ a.env.stmtNodes s) : n ∈ a.evaluated := by
      refine List.mem_flatMap.mpr ⟨_, hitem, List.mem_flatMap.mpr ⟨.stmt s, ?_, ?_⟩⟩
      · rw [hbody]
        exact hn
      · exact List.mem_cons.mpr h
    exact ⟨hmem _ (.inl rfl), fun n hn => hmem n (.inr hn)⟩

end Analysis

namespace Lower

variable {a : Analysis}

theorem evaluated_of_deferred (hg : (name, type, e) ∈ deferred a.env a.items) : a.Evaluates e := by
  intro n hn
  obtain ⟨_, _, hitem, -⟩ := exists_deferred hg
  refine List.mem_flatMap.mpr ⟨_, hitem, ?_⟩
  simpa [Env.itemNodes, Env.evaluatedList] using hn

theorem CodeAt.within (h : a.CodeAt q) (hp : p.Within q) : a.CodeAt p := by
  obtain ⟨henv, hreturn, hme⟩ := hp
  obtain ⟨env, type, me, withValues, loops⟩ := p
  cases henv
  cases hreturn
  cases hme
  exact .inside h

section

variable (ha : a.Settled) (hnames : (a.globals.map (·.name)).Nodup) (hr : r ∈ a.routines)
  (hx : r.procedure.info.symbol = some x)
  (h : CarriesOut a.globals (bodyPlace a.env x r.owner) f H r.body) (hk : k < f.blocks.length)

include ha hnames hr hx h hk

/-- The pieces of the code of a procedure keep to the rule, and each makes the calls of its action. -/
theorem CarriesOut.accounts (hpiece : piece ∈ H k) : (∀ v, piece.value = some v → v.type.kind = .i1) ∧
      a.Accounts (a.env.actionCalls piece.action) (piece.code.map Instr.anonymous) := by
  obtain ⟨p, hp, hcode⟩ := (h.laid k hk).pieces piece hpiece
  have hact : piece.action ∈ Stmt.actionsList r.body :=
    h.actions.mem_iff.mpr (List.mem_flatMap.mpr
      ⟨k, List.mem_range.mpr hk, List.mem_map_of_mem hpiece⟩)
  exact Settles.accounts_of_codeOf ⟨ha, CodeAt.within (.body hr hx) hp⟩ hnames
    (Analysis.performs_of_nodesList _ (fun _ => Analysis.uses_of_routine hr) _ hact) hcode

/-- All instructions of the code of a procedure keep to the rule. -/
theorem CarriesOut.allows :
    ∀ i ∈ (f.block k).instrs.map Instr.anonymous, i.op = .ret ∨ ∀ k, a.Allows k i := by
  intro i hi
  obtain ⟨ending, -, hinstrs, hending⟩ := (h.laid k hk).code
  rw [hinstrs, List.map_append] at hi
  rcases List.mem_append.mp hi with hi | hi
  · obtain ⟨j, hj, rfl⟩ := List.mem_map.mp hi
    obtain ⟨piece, hpiece, hj⟩ := List.mem_flatMap.mp hj
    exact (h.accounts ha hnames hr hx hk hpiece).2.allows _ (List.mem_map_of_mem hj)
  · obtain ⟨t, ht, rfl⟩ := List.mem_map.mp hi
    obtain ⟨hterm, hcbr⟩ := hending t ht
    have hagrees (hop : t.op ≠ .call) (hk : ∀ k, t.Agrees k) : ∀ k, a.Allows k t.anonymous :=
      fun k => ⟨.inl (hk k), fun hc => absurd hc hop⟩
    cases hop : t.op with
    | ret => exact .inl hop
    | br | switch => exact .inr (hagrees (by simp [hop]) fun k => by simp [Instr.Agrees, hop])
    | cbr =>
      obtain ⟨v, hv, hoperands⟩ := hcbr hop
      obtain ⟨piece, hlast, hvalue⟩ := Option.bind_eq_some_iff.mp hv
      have hkind := (h.accounts ha hnames hr hx hk (List.mem_of_getLast? hlast)).1 v hvalue
      exact .inr (hagrees (by simp [hop]) fun k => by simp [Instr.Agrees, hop, hoperands, hkind])
    | _ =>
      rw [hop] at hterm
      cases hterm

end

theorem setGlobals_writes (ha : a.Settled) :
    a.Conforms ((deferred a.env a.items).flatMap fun g => a.env.calls a.env.newCalls g.2.2)
      (setGlobals a.env (deferred a.env a.items)) := by
  refine .forM fun (name, type, e) hg => ?_
  exact (Settles.expr_writes ⟨ha, .globals⟩ (evaluated_of_deferred hg)).andThen fun _ _ =>
    coerce_writes.first fun _ _ => effect_writes rfl

end Lower

/-- The functions of the module of an accepted program keep to the rule. -/
theorem Analysis.Settled.written (ha : a.Settled) (h : lower a name = .ok m) :
    ∀ f ∈ m.functions, a.Written f := by
  have hready := ha.ready h
  have hm := Lower.lower_ok h hready.keeps
  intro f hf
  have hbuilt := hm.built hf
  obtain ⟨fs, init, hfs, hlen, hall, -, hinit⟩ := hm.functions
  rw [hm.globals] at hall hinit
  rw [hfs] at hf
  rcases List.mem_append.mp hf with hf | hf
  · obtain ⟨k, hk, rfl⟩ := List.getElem_of_mem hf
    have hr := List.getElem?_eq_getElem (hlen ▸ hk)
    obtain ⟨f', hf', x, H, hx, -, hname, -, ⟨hparams, -⟩, -, hcarry⟩ := hall k _ hr
    rw [List.getElem?_eq_getElem hk] at hf'
    cases hf'
    have hmem : _ ∈ a.routines := List.mem_of_getElem? hr
    refine written_of_code hbuilt (.routine hmem hname hparams) fun b hb => ?_
    obtain ⟨n, hn, rfl⟩ := List.getElem_of_mem hb
    have hblock : (fs[k]).block n = (fs[k]).blocks[n] := by simp [Function.block, hn]
    exact hblock ▸ hcarry.allows ha hready.names hmem hx hn
  · obtain ⟨code, hcode, hblocks⟩ := (hinit f hf).code
    have haccounts := ((Lower.setGlobals_writes ha).emits hcode).2
    refine written_of_code hbuilt (.init (hinit f hf).name (hinit f hf).params) fun b hb i hi => ?_
    rw [hblocks b hb, List.map_append] at hi
    rcases List.mem_append.mp hi with hi | hi
    · exact haccounts.allows i hi
    · cases List.mem_singleton.mp hi
      exact .inl rfl

end BasicSSA
