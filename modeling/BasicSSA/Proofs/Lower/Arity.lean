import BasicSSA.Proofs.Lower.OperandKinds

/-!
# The arity of calls

A call of a function of the module has as many operands as the function has parameters, unless the
program calls a procedure in a way that analysis does not count: without parentheses, through the
name of a type, or as a constructor that is shared. A call can also meet a function that only has the
name of the one it is meant for.
-/

namespace BasicSSA

open IL (Instr Module)

namespace Lower.Env

variable (env : Env)

/-- A method of an object is named as a member of its type. -/
def throughType (x : SymbolId) : Expr Note → Bool
  | .member _ o _ => env.isInstanceMember x && env.isContainer o.info
  | _ => false

/-- A node calls a procedure, but not with the operands that it takes. -/
def miscalls (x : SymbolId) : Node Note → Bool
  | .expr (.call _ e _ _) => env.throughType x e
  | .expr (.new ..) => !env.isInstanceMember x
  | .expr e | .stmt (.expr _ e) => !(env.tree.symbol x).params.isEmpty || env.throughType x e
  | .stmt _ => false

variable {env}

theorem hasReceiver_eq (x : SymbolId) (e : Expr Note) :
    env.hasReceiver x e = (env.isInstanceMember x && !env.throughType x e) := by
  cases e with
  | member i o n => cases h : env.isInstanceMember x <;> simp [hasReceiver, throughType, h]
  | _ => simp [hasReceiver, throughType]

theorem isInstanceMember_of_throughType (h : env.throughType x e = true) :
    env.isInstanceMember x = true := by
  unfold throughType at h
  split at h
  · exact ((Bool.and_eq_true _ _).mp h).1
  · cases h

theorem callOf?_eq_some (h : env.callOf? e k loc = some c) :
    e.info.symbol = some c.callee ∧ env.isCallable c.callee = true ∧
      c.hasObject = env.hasReceiver c.callee e ∧ c.args = k := by
  obtain ⟨x, hx, rfl⟩ := Option.map_eq_some_iff.mp h
  obtain ⟨hsymbol, hcallable⟩ := Option.filter_eq_some_iff.mp hx
  exact ⟨hsymbol, hcallable, rfl, rfl⟩

/-- The object is there unless the method is named through its type. -/
theorem toNat_hasReceiver (env : Env) (x : SymbolId) (e : Expr Note) :
    (env.hasReceiver x e).toNat + (env.throughType x e).toNat = (env.isInstanceMember x).toNat := by
  rw [hasReceiver_eq]
  cases ht : env.throughType x e with
  | false => simp
  | true => simp [isInstanceMember_of_throughType ht]

end Lower.Env

namespace Analysis

variable {a : Analysis}

/-- The function of a name may be another one than a call asks for. -/
inductive Clashes (a : Analysis) : String → Prop
  /-- A procedure has the name of a function of the runtime. -/
  | runtime : r ∈ a.routines → r.name ∈ Lower.runtimeCalls → Clashes a r.name
  /-- The functions of two procedures have one name. -/
  | procedure : r ∈ a.routines → a.env.function? x = some r.name →
    r.procedure.info.symbol ≠ some x → Clashes a r.name
  /-- A procedure has the name of the function that sets the variables of the module. -/
  | init : a.env.function? x = some "__init" → Clashes a "__init"

namespace Settled

variable (h : a.Settled)

include h

/-- The symbol of a procedure with a body says what its function takes. -/
theorem signs_of_routine (hr : r ∈ a.routines) (hx : r.procedure.info.symbol = some x) :
    a.Signs r.owner.isSome r.procedure x := by
  obtain ⟨hitem, hbody⟩ := item_of_routine hr
  obtain ⟨y, hy, hsigns, -⟩ := (h.checked _ hitem _ hbody).resolve_left h.accepted
  cases hy.symm.trans hx
  exact hsigns

omit h in
theorem isInstanceMember_of_signs (hs : a.Signs b q x) :
    a.env.isInstanceMember x = b := by
  have hcallable : (a.env.tree.symbol x).isCallable = true := hs.isCallable
  rw [Lower.Env.isInstanceMember, hcallable, Bool.or_true, Bool.and_true, ← hs.bound]
  rfl

/-- A call site has the operands that the function takes exactly if it is no miscall. -/
theorem arity_of_site (hn : n ∈ a.nodes) (hc : a.env.callSite? n = some c) (hr : r ∈ a.routines)
    (hx : r.procedure.info.symbol = some c.callee) :
    c.hasObject.toNat + c.args = r.owner.isSome.toNat + r.procedure.params.length ↔
      a.env.miscalls c.callee n = false := by
  have hs := h.signs_of_routine hr hx
  rw [← isInstanceMember_of_signs hs, ← hs.params]
  have hbare (e : Expr Note) (loc : Loc) (hc : a.env.callOf? e 0 loc = some c) :
      c.hasObject.toNat + c.args =
          (a.env.isInstanceMember c.callee).toNat + (a.tree.symbol c.callee).params.length ↔
        (!(a.env.tree.symbol c.callee).params.isEmpty || a.env.throughType c.callee e) = false := by
    obtain ⟨-, -, hobject, hargs⟩ := Lower.Env.callOf?_eq_some hc
    have hsum := a.env.toNat_hasReceiver c.callee e
    rw [hobject, hargs, Bool.or_eq_false_iff, Bool.not_eq_false', List.isEmpty_iff,
      ← List.length_eq_zero_iff, ← Bool.toNat_eq_zero]
    show _ ↔ (a.tree.symbol c.callee).params.length = 0 ∧ _
    omega
  cases n with
  | stmt s =>
    cases s with
    | expr i e =>
      cases e with
      | call => cases hc
      | _ => exact hbare _ _ hc
    | _ => cases hc
  | expr e =>
    cases e with
    | call i e ts as =>
      obtain ⟨hsymbol, hcallable, hobject, hargs⟩ := Lower.Env.callOf?_eq_some hc
      have hanswers := (h.judges hn c.callee hsymbol).2 hcallable
      have hsum := a.env.toNat_hasReceiver c.callee e
      rw [hobject, hargs, hanswers.args, Lower.Env.miscalls, ← Bool.toNat_eq_zero]
      omega
    | new i t as =>
      obtain ⟨x, hcallee, rfl⟩ := Option.map_eq_some_iff.mp hc
      have hargs := (h.judges hn x (Option.filter_eq_some_iff.mp hcallee).1).2
      rw [Lower.Env.miscalls, Bool.not_eq_false', ← Bool.toNat_eq_one]
      show 1 + as.length = _ + (a.tree.symbol x).params.length ↔ _
      omega
    | name | member | withMember => exact hbare _ _ hc
    | _ => cases hc

end Settled

end Analysis

/-- A call of a function of the module has as many operands as the function has parameters exactly if
it is no miscall, unless the function only has the name of the one that the call asks for. -/
theorem arity_of_call (h : (analyze p).isAccepted = true) (hl : lower (analyze p) name = .ok m)
    (hf : f ∈ m.functions) (hb : b ∈ f.blocks) (hi : i ∈ b.instrs) (hop : i.op = .call)
    (hg : m.function? i.name = some g) :
    (analyze p).Clashes i.name ∨ ∃ n ∈ (analyze p).evaluated, ∃ c,
      (analyze p).env.callSite? n = some c ∧ i.loc = c.loc ∧
      (analyze p).env.function? c.callee = some i.name ∧
      (i.operands.length = g.params.length ↔ (analyze p).env.miscalls c.callee n = false) := by
  have ha := analyze_settled h
  have hname : g.name = i.name := by simpa using List.find?_some hg
  have hheads := (ha.written hl g (List.mem_of_find?_eq_some hg)).heads
  cases ((ha.written hl f hf).instrs b hb i hi).2 hop with
  | runtime hruntime =>
    cases hheads with
    | routine hr hr' _ =>
      rw [← hname, hr'] at hruntime ⊢
      exact .inl (.runtime hr hruntime)
    | init hinit _ =>
      rw [← hname, hinit] at hruntime
      exact absurd hruntime (by decide)
  | site hn hc hfunction hoperands hloc =>
    rename_i n c
    cases hheads with
    | routine hr hr' hparams =>
      rename_i r
      by_cases hx : r.procedure.info.symbol = some c.callee
      · refine .inr ⟨n, hn, c, hc, hloc, hfunction, ?_⟩
        rw [hoperands, hparams]
        exact ha.arity_of_site (Analysis.mem_nodes_of_evaluated hn) hc hr hx
      · rw [← hname, hr'] at hfunction ⊢
        exact .inl (.procedure hr hfunction hx)
    | init hinit _ =>
      rw [← hname, hinit] at hfunction ⊢
      exact .inl (.init hfunction)

/-- A method that is called on a new object. -/
def methodCall : String :=
  "Class C\nFunction F(n As Integer) As Integer\nReturn n\nEnd Function\nEnd Class\n" ++
    "Function G() As Integer\nReturn New C().F(1)\nEnd Function\n"

theorem methodCall_arity : ∃ tokens p m f b i g, tokenize methodCall 1 = .ok tokens ∧
    Translates tokens "main" p m ∧ f ∈ m.functions ∧ b ∈ f.blocks ∧ i ∈ b.instrs ∧ i.op = .call ∧
    m.function? i.name = some g ∧ i.operands.length = 2 ∧
    ((analyze p).Clashes i.name ∨ ∃ n ∈ (analyze p).evaluated, ∃ c,
      (analyze p).env.callSite? n = some c ∧ i.loc = c.loc ∧
      (analyze p).env.function? c.callee = some i.name ∧
      (i.operands.length = g.params.length ↔
        (analyze p).env.miscalls c.callee n = false)) := by
  have hm : (module? 1 "main" methodCall).map (fun m => m.hasInstr fun i =>
      i.op = .call && (m.function? i.name).isSome && i.operands.length = 2) = some true := by
    decide +kernel
  obtain ⟨tokens, p, m, -, htokens, h, htest⟩ := exists_of_module? hm
  obtain ⟨f, hf, b, hb, i, hi, htest⟩ := Module.exists_of_hasInstr htest
  simp only [Bool.and_eq_true, decide_eq_true_eq] at htest
  obtain ⟨⟨hop, hg⟩, hlength⟩ := htest
  obtain ⟨g, hg⟩ := Option.isSome_iff_exists.mp hg
  exact ⟨tokens, p, m, f, b, i, g, htokens, h, hf, hb, hi, hop, hg, hlength,
    arity_of_call h.accepted h.lowered hf hb hi hop hg⟩

/-- The bare name of a function that has a parameter. -/
def bareCall : String :=
  "Function F(x As Integer) As Integer\nReturn x\nEnd Function\n" ++
    "Sub S()\nDim y As Integer = F\nEnd Sub\n"

/-- The function is called without an operand. -/
theorem bareCall_misses : ∃ tokens p m f b i g, tokenize bareCall 1 = .ok tokens ∧
    Translates tokens "main" p m ∧ f ∈ m.functions ∧ b ∈ f.blocks ∧ i ∈ b.instrs ∧ i.op = .call ∧
    m.function? i.name = some g ∧ i.operands.length ≠ g.params.length := by
  have hm : (module? 1 "main" bareCall).map (fun m => m.hasInstr fun i => i.op = .call &&
      (m.function? i.name).any fun g => i.operands.length ≠ g.params.length) = some true := by
    decide +kernel
  obtain ⟨tokens, p, m, -, htokens, h, htest⟩ := exists_of_module? hm
  obtain ⟨f, hf, b, hb, i, hi, htest⟩ := Module.exists_of_hasInstr htest
  obtain ⟨hop, hg⟩ := (Bool.and_eq_true _ _).mp htest
  obtain ⟨g, hg, hdiffers⟩ := (Option.any_eq_true _ _).mp hg
  exact ⟨tokens, p, m, f, b, i, g, htokens, h, hf, hb, hi, of_decide_eq_true hop, hg,
    of_decide_eq_true hdiffers⟩

end BasicSSA
