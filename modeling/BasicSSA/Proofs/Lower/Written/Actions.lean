import BasicSSA.Proofs.Lower.Written

/-!
# The instructions that actions are made into
-/

namespace BasicSSA

open IL (Value Ty Kind Instr Build)
open List (forall_mem_cons forall_mem_append)

/-- A statement without statements in it. -/
def Stmt.isSimple : Stmt Note → Bool
  | .throw .. | .return_ .. | .exit .. | .assign .. | .expr .. | .var _ | .const _ => true
  | _ => false

/-- The expressions that the code of an action is made from. -/
def Action.exprs : Action → List (Expr Note)
  | .simple (.assign _ t _ e) => [t, e]
  | .simple (.expr _ e) | .subject e | .test e | .caseTest _ e | .start (.forEach _ _ _ e _) => [e]
  | .simple (.throw _ e) | .simple (.return_ _ e) => e.toList
  | .simple (.var d) => d.init.toList
  | .simple (.const d) => d.value.toList
  | .start (.forLoop _ _ a z s _) => a :: z :: s.toList
  | _ => []

/-- The calls that the code of an action makes, in the order in which it makes them. -/
def Lower.Env.actionCalls (env : Env) : Action → List CallSite
  | .simple (.assign _ t op e) =>
    env.calls env.newCalls e ++
      ((if op = .assign then [] else env.calls env.newCalls t) ++ env.storeCalls env.newCalls t)
  | .simple (.expr _ e) => env.effectCalls env.newCalls e
  | a => env.callsList env.newCalls a.exprs

namespace Analysis

variable {a : Analysis}

/-- Code is made from an expression. -/
def Evaluates (a : Analysis) (e : Expr Note) : Prop :=
  ∀ n ∈ a.env.evaluated e, n ∈ a.evaluated

/-- Code is made from a statement. -/
def Compiles (a : Analysis) (s : Stmt Note) : Prop :=
  .stmt s ∈ a.evaluated ∧ ∀ n ∈ a.env.stmtNodes s, n ∈ a.evaluated

/-- Code is made for an action. -/
def Performs (a : Analysis) : Action → Prop
  | .simple s => s.isSimple = true ∧ a.Compiles s
  | .subject e | .test e => a.Evaluates e
  | .caseTest e t => ∃ i cs, a.Compiles (.select i e cs) ∧ t ∈ cs.flatMap Case.tests
  | .start s | .inRange s | .element s | .next s => a.Compiles s
  | .caught _ => True

theorem evaluates_of_list (h : ∀ n ∈ a.env.evaluatedList es, n ∈ a.evaluated) (he : e ∈ es) :
    a.Evaluates e :=
  fun n hn => h n (Lower.Env.mem_evaluatedList.mpr ⟨e, he, hn⟩)

/-- Code is made from a node, if it is a statement. -/
def Uses (a : Analysis) : Node Note → Prop
  | .stmt s => a.Compiles s
  | .expr _ => True

mutual

/-- Code is made for the actions of a statement if it is made from the statements in it. -/
theorem performs_of_nodes : (s : Stmt Note) → (∀ n ∈ s.nodes, a.Uses n) →
    ∀ x ∈ s.actions, a.Performs x
  | .ifThen i c b e, h => by
    simp only [Stmt.nodes, forall_mem_cons, forall_mem_append] at h
    obtain ⟨hself, ⟨-, hb⟩, he⟩ := h
    simp only [Stmt.actions, forall_mem_cons, forall_mem_append]
    exact ⟨evaluates_of_list hself.2 (by simp), performs_of_nodesList b hb,
      performs_of_nodesElse e (fun c hc => evaluates_of_list hself.2 (by simp [hc])) he⟩
  | .select i e cs, h => by
    obtain ⟨hself, h⟩ := forall_mem_cons.mp h
    simp only [Stmt.actions, forall_mem_cons, forall_mem_append, List.forall_mem_map]
    exact ⟨evaluates_of_list hself.2 (by simp), fun t ht => ⟨i, cs, hself, ht⟩,
      performs_of_nodesCases cs (forall_mem_append.mp h).2⟩
  | .forLoop i v s z k b, h | .forEach i v s z b, h => by
    obtain ⟨hself, h⟩ := forall_mem_cons.mp h
    have hself : a.Compiles _ := hself
    have hb := performs_of_nodesList b (forall_mem_append.mp h).2
    simpa [Stmt.actions, or_imp, forall_and, Performs, hself] using hb
  | .whileLoop i c b, h | .withBlock i c b, h => by
    obtain ⟨hself, h⟩ := forall_mem_cons.mp h
    exact forall_mem_cons.mpr ⟨hself.2, performs_of_nodesList b (forall_mem_append.mp h).2⟩
  | .doLoop i none b, h => performs_of_nodesList b (forall_mem_cons.mp h).2
  | .doLoop i (some c) b, h => by
    obtain ⟨hself, h⟩ := forall_mem_cons.mp h
    have hc : a.Performs (.test c.cond) := evaluates_of_list hself.2 (by simp)
    have hb := performs_of_nodesList b (forall_mem_append.mp h).2
    rw [Stmt.actions]
    split
    · simpa [or_imp, forall_and] using ⟨hc, hb⟩
    · simpa [or_imp, forall_and] using ⟨hb, hc⟩
  | .tryCatch i b cs none, h => by
    obtain ⟨hb, hcs⟩ := forall_mem_append.mp (forall_mem_cons.mp h).2
    exact forall_mem_append.mpr ⟨performs_of_nodesList b hb, performs_of_nodesCatches cs hcs⟩
  | .tryCatch i b cs (some l), h => by
    simp only [Stmt.nodes, forall_mem_cons, forall_mem_append] at h
    obtain ⟨-, ⟨hb, hcs⟩, hl⟩ := h
    simp only [Stmt.actions, forall_mem_append]
    exact ⟨⟨performs_of_nodesList b hb, performs_of_nodesCatches cs hcs⟩,
      performs_of_nodesList l hl⟩
  | .throw .., h | .return_ .., h | .exit .., h | .assign .., h | .expr .., h | .var _, h
  | .const _, h => List.forall_mem_singleton.mpr ⟨rfl, (forall_mem_cons.mp h).1⟩

theorem performs_of_nodesList : (ss : List (Stmt Note)) → (∀ n ∈ Stmt.nodesList ss, a.Uses n) →
    ∀ x ∈ Stmt.actionsList ss, a.Performs x
  | [], _ => nofun
  | s :: ss, h => by
    obtain ⟨hs, hss⟩ := forall_mem_append.mp h
    refine forall_mem_append.mpr ⟨performs_of_nodes s hs, ?_⟩
    split
    · exact nofun
    · exact performs_of_nodesList ss hss

theorem performs_of_nodesElse : (e : Else Note) → (∀ c ∈ e.conditions, a.Evaluates c) →
    (∀ n ∈ Stmt.nodesElse e, a.Uses n) → ∀ x ∈ Stmt.actionsElse e, a.Performs x
  | .nothing, _, _ => nofun
  | .block b, _, h => performs_of_nodesList b h
  | .elseIf i c b e, hc, h => by
    simp only [Stmt.nodesElse, forall_mem_append] at h
    obtain ⟨⟨-, hb⟩, he⟩ := h
    obtain ⟨hc, hcs⟩ := forall_mem_cons.mp hc
    simp only [Stmt.actionsElse, forall_mem_cons, forall_mem_append]
    exact ⟨hc, performs_of_nodesList b hb, performs_of_nodesElse e hcs he⟩

theorem performs_of_nodesCases : (cs : List (Case Note)) →
    (∀ n ∈ Stmt.nodesCases cs, a.Uses n) → ∀ x ∈ Stmt.actionsCases cs, a.Performs x
  | [], _ => nofun
  | .values _ _ b :: cs, h => by
    obtain ⟨h, hcs⟩ := forall_mem_append.mp h
    exact forall_mem_append.mpr
      ⟨performs_of_nodesList b (forall_mem_append.mp h).2, performs_of_nodesCases cs hcs⟩
  | .otherwise _ b :: cs, h => by
    obtain ⟨hb, hcs⟩ := forall_mem_append.mp h
    exact forall_mem_append.mpr ⟨performs_of_nodesList b hb, performs_of_nodesCases cs hcs⟩

theorem performs_of_nodesCatches : (cs : List (Catch Note)) →
    (∀ n ∈ Stmt.nodesCatches cs, a.Uses n) → ∀ x ∈ Stmt.actionsCatches cs, a.Performs x
  | [], _ => nofun
  | .mk _ _ _ b :: cs, h => by
    obtain ⟨hb, hcs⟩ := forall_mem_append.mp h
    exact forall_mem_cons.mpr ⟨trivial, forall_mem_append.mpr
      ⟨performs_of_nodesList b hb, performs_of_nodesCatches cs hcs⟩⟩

end

namespace Settled

variable (h : a.Settled)

include h

theorem isVoid_compound (hn : .stmt (.assign i t op e) ∈ a.nodes) (hop : op ≠ .assign) :
    (a.env.typeOf t.info).isVoid = false := by
  obtain ⟨r, hr⟩ := h.accepts hn
  have ht := h.isVoid_of_numeric (.inl (hr.1 hop))
  rwa [Ty.isVoid, Expr.typeId, h.lawful.kind_getD] at ht

theorem isVoid_counter (hn : .stmt (.forLoop i v s z k b) ∈ a.nodes) (hx : i.symbol = some x) :
    (a.env.typeOfSymbol x).isVoid = false := by
  obtain ⟨r, hr⟩ := h.accepts hn
  have ht := h.isVoid_of_numeric (.inl (hr x hx).type)
  rwa [Ty.isVoid, h.lawful.kind_getD] at ht

end Settled

end Analysis

namespace Lower

/-! ### Expressions -/

/-- Where the statements of a function stand. -/
structure Settles (a : Analysis) (p : Place) : Prop where
  settled : a.Settled
  place : a.CodeAt p

namespace Settles

variable (h : Settles a p)

include h

theorem expr_writes (he : a.Evaluates e) :
    a.Conforms (a.env.calls a.env.newCalls e) (expr p e) := by
  have hp := h.place.env
  unfold Analysis.Evaluates at he
  rw [← hp] at he ⊢
  exact Lower.expr_writes h.settled hp he

theorem list_writes (he : a.Evaluates e) :
    a.Conforms (a.env.callsList a.env.newCalls [e]) (expr p e) := by
  rw [Env.callsList, Env.callsList, List.append_nil]
  exact h.expr_writes he

theorem assign_writes (he : ∀ n ∈ a.env.targetNodes e, n ∈ a.evaluated) :
    a.Conforms (a.env.storeCalls a.env.newCalls e) (assign p e v loc) := by
  have hp := h.place.env
  rw [← hp] at he ⊢
  exact store_writes (grounded h.settled hp) e he

/-- A statement that names a procedure is a call site of its own. -/
theorem exprStmt_writes (hn : a.Compiles (.expr i e)) :
    a.Conforms (a.env.effectCalls a.env.newCalls e) (exprStmt p e) := by
  obtain ⟨hnode, hn⟩ := hn
  have hp := h.place.env
  rw [← hp] at hn ⊢
  have hg := grounded h.settled hp
  cases hx : e.info.symbol.filter p.isCallable with
  | none =>
    have hcalls : p.effectCalls p.newCalls e = p.calls p.newCalls e := by
      unfold Env.effectCalls Env.callee?
      rw [hx]
      cases e <;> rfl
    have hrun : exprStmt p e = (do let _ ← expr? initFields p e) := by
      unfold exprStmt
      rw [hx]
      cases e <;> rfl
    rw [hcalls, hrun]
    exact (expr?_writes hg e (Env.effectNodes_of_none hx ▸ hn)).result
  | some x =>
    obtain ⟨hsymbol, hc⟩ := Option.filter_eq_some_iff.mp hx
    change ∀ n ∈ p.effectNodes e, n ∈ a.evaluated at hn
    unfold exprStmt Env.effectCalls
    unfold Env.effectNodes at hn
    unfold Env.callee? at hn ⊢
    rw [hx] at hn ⊢
    cases e with
    | call => exact (expr?_writes hg _ hn).result
    | _ =>
      refine (receiver_writes hg x _ hsymbol hc hn).bind fun self hself => ?_
      exact (callProcedure_writes hp hnode (Env.callOf?_eq hsymbol hc) hself rfl).result

/-! ### Simple statements -/

omit h in
theorem returnDefault_writes : a.Conforms [] (returnDefault p loc) := by
  unfold returnDefault
  split
  · exact .append (.ret rfl)
  · exact zero_writes.first fun _ _ => .append (.ret rfl)

omit h in
theorem freshValue_writes : a.Conforms [] (freshValue p d x) := by
  unfold freshValue
  dsimp only
  split
  · split
    · exact free_writes rfl
    · exact free_writes rfl
    · exact zero_writes.imp fun _ _ => trivial
  · split
    · exact (runtime_writes (by simp [runtimeCalls])).imp fun _ _ => trivial
    · exact .pure trivial

theorem assignStmt_writes (hn : a.Compiles (.assign i t op e)) :
    a.Conforms (a.env.actionCalls (.simple (.assign i t op e))) (assignStmt p loc t op e) := by
  obtain ⟨hnode, hn⟩ := hn
  simp only [Env.stmtNodes, List.mem_append] at hn
  have ht {v : Value} : a.Conforms _ (assign p t v loc) :=
    h.assign_writes fun n h => hn n (by simp [h])
  unfold assignStmt
  rw [Env.actionCalls]
  refine (h.expr_writes fun n h => hn n (by simp [h])).bind fun v _ => ?_
  dsimp only
  cases hbop : compoundOp? (p.typeOf t.info) op with
  | none =>
    have hop : op = .assign := by
      cases op <;> first | rfl | cases hbop
    rw [if_pos hop]
    exact ht
  | some bop =>
    have hop : op ≠ .assign := by
      rintro rfl
      cases hbop
    have hcompare : bop.opcode.isCompare = false := by
      unfold compoundOp? at hbop
      split at hbop <;> cases hbop <;> first | rfl | (split <;> rfl)
    have hvoid : (p.typeOf t.info).isVoid = false := by
      rw [h.place.env]
      exact h.settled.isVoid_compound (Analysis.mem_nodes_of_evaluated hnode) hop
    rw [if_neg hop] at hn ⊢
    exact (h.expr_writes fun n h => hn n (by simp [h])).bind fun _ _ =>
      (arith_writes hcompare fun _ => hvoid).first fun _ _ => ht

theorem stmt_writes (hs : s.isSimple = true) (hn : a.Compiles s) :
    a.Conforms (a.env.actionCalls (.simple s)) (stmt p s) := by
  have he {e : Expr Note} {es : List (Expr Note)} (hes : a.env.stmtNodes s = a.env.evaluatedList es)
      (he : e ∈ es) : a.Conforms (a.env.callsList a.env.newCalls [e]) (expr p e) :=
    h.list_writes (Analysis.evaluates_of_list (hes ▸ hn.2) he)
  cases s with
  | throw i e =>
    have hcall (args : List Value) : a.Conforms [] (emit (Build.call "__throw" args {} i.loc)) :=
      .call (.runtime rfl (by simp [runtimeCalls]))
    unfold stmt
    cases e with
    | none => exact (hcall _).first fun _ _ => .pure trivial
    | some e =>
      exact (he rfl (by simp)).andThen fun _ _ => (hcall _).first fun _ _ => .pure trivial
  | return_ i e =>
    unfold stmt
    cases e with
    | none => exact returnDefault_writes
    | some e =>
      exact (he rfl (by simp)).andThen fun _ _ => coerce_writes.first fun _ _ => .append (.ret rfl)
  | exit i kind =>
    unfold stmt exitStmt
    split
    · exact returnDefault_writes
    · exact returnDefault_writes
    · split
      · exact Writes.get.first fun _ _ => effect_writes rfl
      · exact .throw _
  | assign i t op e => exact h.assignStmt_writes hn
  | expr i e => exact h.exprStmt_writes hn
  | var d =>
    unfold stmt varDecl
    split
    · exact .throw _
    · refine declare_writes.first fun _ _ => ?_
      change a.Conforms (a.env.callsList _ d.init.toList) _
      split
      · rename_i e hinit
        rw [hinit]
        exact (he rfl (by simp [hinit])).andThen fun _ _ => bind_writes
      · rename_i hinit
        rw [hinit]
        exact freshValue_writes.first fun _ _ => bind_writes
  | const d =>
    unfold stmt constDecl
    change a.Conforms (a.env.callsList _ d.value.toList) _
    split
    · rename_i hvalue
      rw [hvalue]
      exact declare_writes.first fun _ _ =>
        (he rfl (by simp [hvalue])).andThen fun _ _ => bind_writes
    · exact .throw _
  | _ => cases hs

/-! ### Loops -/

omit h in
theorem readCounter_writes : Writes a [] (readCounter p loc x) (·.type = p.typeOfSymbol x) := by
  unfold readCounter
  split
  · exact .appendResult (.free rfl)
  · exact read_writes

omit h in
theorem writeCounter_writes : a.Conforms [] (writeCounter p loc x v) := by
  unfold writeCounter
  split
  · exact storeGlobal_writes
  · exact bind_writes

omit h in
theorem declareCounter_writes : a.Conforms [] (declareCounter p x) := by
  refine Writes.get.first fun s _ => ?_
  dsimp only
  split
  · exact declare_writes
  · exact .pure trivial

theorem isVoid_counter (hn : a.Compiles (.forLoop i v s z k b)) (hx : i.symbol = some x) :
    (p.typeOfSymbol x).isVoid = false := by
  rw [h.place.env]
  exact h.settled.isVoid_counter (Analysis.mem_nodes_of_evaluated hn.1) hx

/-- The last value and the step of a loop are stored as its variable is. -/
theorem forStart_writes (hx : (p.typeOfSymbol x).isVoid = false)
    (hn : ∀ e ∈ start :: stop :: step.toList, a.Evaluates e) :
    Writes a (a.env.callsList a.env.newCalls (start :: stop :: step.toList))
      (forStart p loc x start stop step) fun (last, step) =>
        last.type.kind = (p.typeOfSymbol x).kind ∧ step.type.kind = (p.typeOfSymbol x).kind := by
  unfold forStart
  rw [Env.callsList, Env.callsList]
  refine declareCounter_writes.first fun _ _ => (h.expr_writes (hn _ (by simp))).bind fun _ _ =>
    writeCounter_writes.first fun _ _ => (h.expr_writes (hn _ (by simp))).bind fun _ _ =>
      coerce_writes.first fun last hlast => ?_
  cases step with
  | none => exact .pure ⟨hlast hx, congrArg Ty.kind (Ty.type_one _)⟩
  | some e =>
    exact (h.list_writes (hn e (by simp))).andThen fun _ _ => coerce_writes.first fun step hstep =>
      .pure ⟨hlast hx, hstep hx⟩

omit h in
theorem forTest_writes (hlast : last.type.kind = (p.typeOfSymbol x).kind) :
    Writes a [] (forTest p loc x last step) (·.type.kind = .i1) := by
  refine readCounter_writes.first fun counter hcounter => ?_
  have hkind : counter.type.kind = last.type.kind := by rw [hcounter, hlast]
  refine compare_writes ?_ hkind
  split <;> rfl

omit h in
theorem forNext_writes (hstep : step.type.kind = (p.typeOfSymbol x).kind) :
    a.Conforms [] (forNext p loc x step) := by
  refine readCounter_writes.first fun counter hcounter => ?_
  refine (operation_writes .add rfl nofun ?_ hstep).first fun _ _ => writeCounter_writes
  rw [hcounter]

theorem eachStart_writes (he : a.Evaluates e) :
    Writes a (a.env.callsList a.env.newCalls [e]) (eachStart p loc x e)
      (·.length.type.kind = .i64) := by
  refine declare_writes.first fun _ _ => (h.list_writes he).andThen fun _ _ => ?_
  refine (runtime_writes (by simp [runtimeCalls])).first fun length hlength => ?_
  refine (Writes.naming _).first fun _ _ => Writes.addLocal.first fun _ _ =>
    bindName_writes.first fun _ _ => .pure ?_
  exact congrArg Ty.kind hlength

omit h in
theorem eachTest_writes (hlength : es.length.type.kind = .i64) :
    Writes a [] (eachTest loc es) (·.type.kind = .i1) := by
  refine readName_writes.first fun i hi => compare_writes rfl ?_
  rw [hi, hlength]
  rfl

omit h in
theorem eachElement_writes : a.Conforms [] (eachElement p loc x es) :=
  readName_writes.first fun _ _ => (free_writes rfl).first fun _ _ =>
    (free_writes rfl).first fun _ _ => bind_writes

omit h in
theorem eachNext_writes : a.Conforms [] (eachNext loc es) := by
  refine readName_writes.first fun i hi => ?_
  have hone : (Value.int 1 .long).type.kind = Ty.long.kind := rfl
  refine (operation_writes .add rfl nofun ?_ hone).first fun _ _ => bindName_writes
  rw [hi]

/-! ### Select -/

/-- The subject of a `Select` is void only if analysis says so. -/
theorem subject_isVoid (hnames : (a.globals.map (·.name)).Nodup) (he : a.Evaluates e)
    (hv : Emits a.globals (expr p e) v code) (hkind : v.type.kind = .void) :
    a.types.isVoid e.typeId = true := by
  obtain ⟨s, s', -, -, hglobals, hx, -⟩ := hv
  refine Bool.of_not_eq_false fun hvoid => ?_
  have hnode := Analysis.mem_nodes_of_evaluated (he _ (Env.mem_evaluated_self e))
  have hmatch := h.settled.kind_expr? h.place.env hnames hglobals (h.place.kind_me h.settled) e
    (a.nodes_closed _ hnode) hvoid (valued_ok hx)
  have htype := Catalog.isVoid_lowered hvoid
  unfold Env.Matches at hmatch
  split at hmatch
  · cases hkind.symm.trans hmatch.1
  · exact absurd (hmatch.symm.trans hkind) (of_decide_eq_false htype)

/-- A test compares values of one kind, unless the subject is void. -/
theorem caseTest_writes (hselect : .stmt (.select i e cs) ∈ a.nodes)
    (hsubject : subject.type.kind = .void → a.types.isVoid e.typeId = true)
    (ht : t ∈ cs.flatMap Case.tests) (hn : a.Evaluates t) :
    Writes a (a.env.callsList a.env.newCalls [t]) (caseTest p subject t) (·.type.kind = .i1) := by
  refine (h.list_writes hn).andThen fun _ _ => coerce_writes.first fun v hv => ?_
  refine (Writes.appendResult ?_).imp fun _ hv => congrArg Ty.kind hv
  cases hvoid : subject.type.isVoid with
  | false => exact .compare rfl (hv hvoid).symm
  | true =>
    have hkind := of_decide_eq_true hvoid
    refine ⟨List.forall_mem_singleton.mpr (.inr fun k => ⟨.inr ?_, nofun⟩), .nil⟩
    exact ⟨rfl, rfl, ⟨subject, v, rfl, hkind⟩, i, e, cs, t, hselect, hsubject hkind, ht, rfl⟩

omit h in
theorem catchVar_writes : a.Conforms [] (catchVar p i) := by
  unfold catchVar
  split
  · exact .pure trivial
  · exact declare_writes.first fun _ _ => zero_writes.first fun _ _ => bind_writes

/-! ### All actions -/

/-- The code of an action keeps to the rule and makes the calls of the action, and the value of a
test is a truth value. -/
theorem accounts_of_codeOf (hnames : (a.globals.map (·.name)).Nodup) (hact : a.Performs action)
    (hc : CodeOf a.globals p action code value) :
    (∀ v, value = some v → v.type.kind = .i1) ∧
      a.Accounts (a.env.actionCalls action) (code.map Instr.anonymous) := by
  have htest {x : Lower Value} {cs : List CallSite} {v : Value}
      (hx : Writes a cs x (·.type.kind = .i1)) (hv : Emits a.globals x v code) :
      (∀ w, some v = some w → w.type.kind = .i1) ∧ a.Accounts cs (code.map Instr.anonymous) := by
    refine (hx.emits hv).imp_left fun hkind => ?_
    rintro _ ⟨⟩
    exact hkind
  have hnone {α : Type} {x : Lower α} {cs : List CallSite} {v : α} {Q : α → Prop}
      (hx : Writes a cs x Q) (hv : Emits a.globals x v code) :
      (∀ w : Value, none = some w → w.type.kind = .i1) ∧
        a.Accounts cs (code.map Instr.anonymous) :=
    ⟨by simp, (hx.emits hv).2⟩
  cases hc with
  | simple hv => exact hnone (h.stmt_writes hact.1 hact.2) hv
  | subject hv => exact hnone (h.list_writes hact) hv
  | test hv => exact htest ((h.list_writes hact).andThen fun _ _ => toBoolean_writes) hv
  | caseTest hsubject hv =>
    obtain ⟨i, cs, ⟨hnode, hn⟩, ht⟩ := hact
    have he := Analysis.evaluates_of_list hn List.mem_cons_self
    exact htest (h.caseTest_writes (Analysis.mem_nodes_of_evaluated hnode)
      (h.subject_isVoid hnames he hsubject) ht
      (Analysis.evaluates_of_list hn (List.mem_cons_of_mem _ ht))) hv
  | forStart hx hv =>
    exact hnone (h.forStart_writes (h.isVoid_counter hact hx) fun _ =>
      Analysis.evaluates_of_list hact.2) hv
  | forTest hx hstart hv =>
    have hwrites := (h.forStart_writes (h.isVoid_counter hact hx) fun _ =>
      Analysis.evaluates_of_list hact.2).emits hstart
    exact htest (forTest_writes hwrites.1.1) hv
  | forNext hx hstart hv =>
    have hwrites := (h.forStart_writes (h.isVoid_counter hact hx) fun _ =>
      Analysis.evaluates_of_list hact.2).emits hstart
    exact hnone (forNext_writes hwrites.1.2) hv
  | eachStart hx hv => exact hnone (h.eachStart_writes hact.2) hv
  | eachTest hx hstart hv =>
    exact htest (eachTest_writes ((h.eachStart_writes hact.2).emits hstart).1) hv
  | eachElement hx hstart hv => exact hnone eachElement_writes hv
  | eachNext hx hstart hv => exact hnone eachNext_writes hv
  | caught hv => exact hnone catchVar_writes hv

end Settles

end Lower

end BasicSSA
