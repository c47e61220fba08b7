import BasicSSA.Proofs.Analysis.Course.Program
import BasicSSA.Proofs.Compile.Text
import BasicSSA.Proofs.IL.Accepted
import BasicSSA.Proofs.Lower.Constants
import BasicSSA.Proofs.Lower.Faithful
import BasicSSA.Proofs.Parser.Members
import Mathlib.Data.List.Nodup

/-!
# Lowered modules are valid

The functions of a lowered module have the structure that the verifier asks for. A constant of the
module can still be stored to, in two ways that analysis does not see: by a step of an operand whose
type is a type parameter, and through the address of a function that has the name of the constant.
-/

namespace BasicSSA

open IL (Value Ty Opcode Instr Block Function Global Module)

/-! ### What the verifier asks for -/

/-- A function of blocks that end with their only terminator. Branches lead to its blocks, but not
to the first one. -/
structure IL.Function.Structured (f : Function) : Prop where
  nonempty : f.blocks ≠ []
  labels : (f.blocks.map (·.label)).Nodup
  ended : ∀ b ∈ f.blocks, ∃ body t, b.instrs = body ++ [t] ∧ t.op.isTerminator = true ∧
    ∀ i ∈ body, i.op.isTerminator = false
  targets : ∀ b ∈ f.blocks, ∀ i ∈ b.instrs, i.op.isTerminator = true → ∀ l ∈ i.labels,
    f.hasBlock l = true ∧ l ≠ f.label 0
  returns : ∀ b ∈ f.blocks, ∀ i ∈ b.instrs, i.op = .ret →
    i.operands.length = if f.returnType.isVoid then 0 else 1
  calls : ∀ b ∈ f.blocks, ∀ i ∈ b.instrs, i.op = .call → i.name ≠ ""

/-- Some instruction stores to a constant of the module. -/
def IL.Module.StoresToConstant (m : Module) (g : String) : Prop :=
  (m.global? g).any (·.isConstant) = true ∧ ∃ f ∈ m.functions, ∃ b ∈ f.blocks, ∃ i ∈ b.instrs,
    i.op = .store ∧ ∃ type v, i.operands = [.global g type, v]

/-- A policy for the code of a function that returns a value of some type. -/
structure Policy.Strict (π : Policy) (type : Ty) : Prop where
  calls : ∀ name, π.calls name → name ≠ ""
  returns : ∀ k, π.returns k → k = type.returned?

namespace IL

variable {π : Policy} {f : Function}

/-- A block with a number above zero can be branched to. -/
theorem Function.target_label (hl : (f.blocks.map (·.label)).Nodup) (hk : 0 < k)
    (hlt : k < f.blocks.length) : f.hasBlock (f.label k) = true ∧ f.label k ≠ f.label 0 := by
  have hidx := Function.blockIdx?_label hl hlt
  refine ⟨by rw [hasBlock, hidx]; rfl, fun h => ?_⟩
  rw [h, Function.blockIdx?_label hl (Nat.zero_lt_of_lt hlt)] at hidx
  cases hidx
  exact Nat.lt_irrefl 0 hk

theorem length_operands_ret {vs : List Value} {type : Ty} (hone : vs.length ≤ 1)
    (hr : vs.head?.map (·.type.kind) = type.returned?) :
    vs.length = if type.isVoid then 0 else 1 := by
  unfold Ty.returned? at hr
  cases vs with
  | nil => cases hv : type.isVoid <;> simp [hv] at hr ⊢
  | cons v vs =>
    cases hv : type.isVoid with
    | true => simp [hv] at hr
    | false => simpa using hone

theorem Function.Built.block (h : f.Built π) (hb : b ∈ f.blocks) :
    ∃ body t, b.instrs = body ++ [t] ∧ (∀ i ∈ body, π.Allows i) ∧ π.Ends f t := by
  obtain ⟨k, hk, rfl⟩ := List.getElem_of_mem hb
  have hb : f.block k = f.blocks[k] := by simp [Function.block, hk]
  exact hb ▸ h.ended k hk

theorem Function.Built.instr (h : f.Built π) (hb : b ∈ f.blocks) (hi : i ∈ b.instrs) :
    π.Allows i ∨ π.Ends f i := by
  obtain ⟨body, t, he, hbody, ht⟩ := h.block hb
  rw [he] at hi
  rcases List.mem_append.mp hi with hi | hi
  · exact .inl (hbody i hi)
  · exact .inr (List.mem_singleton.mp hi ▸ ht)

theorem Function.Built.structured (h : f.Built π) (hπ : π.Strict f.returnType) : f.Structured := by
  refine ⟨List.length_pos_iff.mp h.nonempty, h.labels, fun b hb => ?_, fun b hb i hi hop l hmem => ?_,
    fun b hb i hi hop => ?_, fun b hb i hi hop => ?_⟩
  · obtain ⟨body, t, he, hbody, ht⟩ := h.block hb
    exact ⟨body, t, he, ht.terminator, fun i hi => (hbody i hi).not_terminator⟩
  · rcases h.instr hb hi with ha | he
    · rw [ha.not_terminator] at hop
      cases hop
    · obtain ⟨-, he⟩ := he
      split at he
      · obtain ⟨k, h0, hk, hl⟩ := he
        rw [hl] at hmem
        exact List.mem_singleton.mp hmem ▸ target_label h.labels h0 hk
      · obtain ⟨j, k, ⟨hj0, hj⟩, ⟨hk0, hk⟩, hl⟩ := he
        rw [hl] at hmem
        rcases List.mem_cons.mp hmem with rfl | hmem
        · exact target_label h.labels hj0 hj
        · exact List.mem_singleton.mp hmem ▸ target_label h.labels hk0 hk
      · rw [he.1] at hmem
        cases hmem
      · cases he
  · rcases h.instr hb hi with ha | he
    · rw [Policy.Allows, hop] at ha
      cases ha.2
    · rw [Policy.Ends, hop] at he
      exact length_operands_ret he.2.2.1 (hπ.returns _ he.2.2.2)
  · rcases h.instr hb hi with ha | he
    · rw [Policy.Allows, hop] at ha
      exact hπ.calls _ ha.2
    · rw [Policy.Ends, hop] at he
      cases he.2

theorem instrFault?_of_allows (h : π.Allows i) (hπ : π.Strict type)
    (hf : instrFault? m f i = some fault) : ∃ g, fault = .storeToConstant g ∧
      (m.global? g).any (·.isConstant) = true ∧ i.op = .store ∧
      ∃ type v, i.operands = [.global g type, v] := by
  replace h := h.2
  cases hop : i.op with
  | call =>
    have hname : i.name.isEmpty = false := by simpa [hop] using hπ.calls i.name (by simpa [hop] using h)
    simp [instrFault?, hop, hname] at hf
  | store =>
    rw [hop] at h
    obtain ⟨a, v, ha, -⟩ := h
    rw [instrFault?, hop, ha] at hf
    cases a with
    | global g type =>
      dsimp only at hf
      split at hf
      · cases hf
        exact ⟨g, rfl, ‹_›, rfl, type, v, ha⟩
      · cases hf
    | _ => cases hf
  | assign =>
    rw [hop] at h
    simp [instrFault?, hop, h.1, h.2] at hf
  | phi | br | cbr | switch | ret =>
    rw [hop] at h
    cases h
  | _ =>
    rw [hop] at h
    rw [instrFault?, hop] at hf
    dsimp only at h hf
    split at hf
    · rename_i hbad
      obtain ⟨hb, hne⟩ := (Bool.and_eq_true _ _).mp hbad
      exact absurd (h hb) (of_decide_eq_true hne)
    · cases hf

theorem instrFault?_of_ends (h : π.Ends f t) (hl : (f.blocks.map (·.label)).Nodup)
    (hπ : π.Strict f.returnType) : instrFault? m f t = none := by
  replace h := h.2
  unfold instrFault?
  cases hop : t.op with
  | br =>
    rw [hop] at h
    obtain ⟨k, h0, hk, he⟩ := h
    simp [targetFault?, he, (Function.target_label hl h0 hk).1]
  | cbr =>
    rw [hop] at h
    obtain ⟨j, k, ⟨hj0, hj⟩, ⟨hk0, hk⟩, he⟩ := h
    simp [targetFault?, he, (Function.target_label hl hj0 hj).1, (Function.target_label hl hk0 hk).1]
  | ret =>
    rw [hop] at h
    have hlen := length_operands_ret h.2.1 (hπ.returns _ h.2.2)
    cases hv : f.returnType.isVoid with
    | true =>
      rw [hv, if_pos rfl] at hlen
      simp [List.eq_nil_of_length_eq_zero hlen]
    | false =>
      rw [hv] at hlen
      simpa using hlen
  | _ =>
    rw [hop] at h
    cases h

theorem placeFault?_eq_none (hi : i.op ≠ .phi) (ht : i.op.isTerminator = isLast) :
    placeFault? f preds isLast after i = none := by
  simp [placeFault?, hi, ht]

theorem instrsError?_built (hl : (f.blocks.map (·.label)).Nodup) (hπ : π.Strict f.returnType)
    (hbody : ∀ i ∈ body, π.Allows i) (ht : π.Ends f t)
    (h : instrsError? m f preds after (body ++ [t]) = some (fault, loc)) :
    ∃ g, fault = .storeToConstant g ∧ (m.global? g).any (·.isConstant) = true ∧
      ∃ i ∈ body, i.op = .store ∧ ∃ type v, i.operands = [.global g type, v] := by
  induction body generalizing after with
  | nil =>
    have hphi : t.op ≠ .phi := fun hop => by
      rw [Policy.Ends, hop] at ht
      exact ht.2
    rw [List.nil_append, instrsError?, List.isEmpty_nil, placeFault?_eq_none hphi ht.terminator,
      instrFault?_of_ends ht hl hπ] at h
    cases h
  | cons i body ih =>
    obtain ⟨hi, hbody⟩ := List.forall_mem_cons.mp hbody
    have hphi : i.op ≠ .phi := fun hop => by
      rw [Policy.Allows, hop] at hi
      exact hi.2
    have hmore : (body ++ [t]).isEmpty = false := by simp
    rw [List.cons_append, instrsError?, hmore, placeFault?_eq_none hphi hi.not_terminator] at h
    cases hf : instrFault? m f i with
    | none =>
      rw [hf] at h
      obtain ⟨g, he, hg, j, hj, hstore⟩ := ih hbody h
      exact ⟨g, he, hg, j, List.mem_cons_of_mem i hj, hstore⟩
    | some fault' =>
      rw [hf] at h
      cases h
      obtain ⟨g, he, hg, hstore⟩ := instrFault?_of_allows hi hπ hf
      exact ⟨g, he, hg, i, List.mem_cons_self, hstore⟩

/-- The only problem that the verifier finds in a finished function. -/
theorem functionError?_built (hf : f.Built π) (hπ : π.Strict f.returnType)
    (h : functionError? m f = some e) : ∃ l g, e.problem = .inBlock f.name l (.storeToConstant g) ∧
      (m.global? g).any (·.isConstant) = true ∧ ∃ b ∈ f.blocks, ∃ i ∈ b.instrs, i.op = .store ∧
        ∃ type v, i.operands = [.global g type, v] := by
  have hne : f.blocks.isEmpty = false := by
    simpa using List.length_pos_iff.mp hf.nonempty
  rw [functionError?, hne, firstRepeated?_eq_none.mpr ⟨hf.labels, by simp⟩] at h
  obtain ⟨⟨b, n⟩, hb, he⟩ := List.exists_of_findSome?_eq_some h
  have hb : b ∈ f.blocks := List.mem_of_getElem? (List.mem_zipIdx_iff_getElem?.mp hb)
  obtain ⟨body, t, hinstrs, hbody, ht⟩ := hf.block hb
  have hnonempty : b.instrs.isEmpty = false := by simp [hinstrs]
  dsimp only [blockError?] at he
  rw [hnonempty, hinstrs] at he
  obtain ⟨⟨fault, loc⟩, hfault, rfl⟩ := Option.map_eq_some_iff.mp he
  obtain ⟨g, rfl, hg, i, hi, hstore⟩ := instrsError?_built hf.labels hπ hbody ht hfault
  refine ⟨b.label, g, rfl, hg, b, hb, i, ?_, hstore⟩
  rw [hinstrs]
  exact List.mem_append_left _ hi

/-- The only messages of the verifier about finished functions. -/
theorem verify_built (πs : Function → Policy)
    (hf : ∀ f ∈ m.functions, f.Built (πs f) ∧ (πs f).Strict f.returnType)
    (h : verify m = .error e) : (∃ name, e.problem = .duplicateFunction name) ∨
      ∃ f l g, e.problem = .inBlock f l (.storeToConstant g) ∧ m.StoresToConstant g := by
  have herror : functionsError? m [] m.functions = some e := by
    unfold verify at h
    split at h
    · cases h
      assumption
    · cases h
  unfold Module.StoresToConstant
  generalize m.functions = fs, [] = seen at hf herror ⊢
  induction fs generalizing seen with
  | nil => cases herror
  | cons f fs ih =>
    obtain ⟨⟨hbuilt, hstrict⟩, hfs⟩ := List.forall_mem_cons.mp hf
    rw [functionsError?] at herror
    split at herror
    · cases herror
      exact .inl ⟨f.name, rfl⟩
    · cases hfe : functionError? m f with
      | some e' =>
        rw [hfe] at herror
        cases herror
        obtain ⟨l, g, he, hg, hstore⟩ := functionError?_built hbuilt hstrict hfe
        exact .inr ⟨f.name, l, g, he, hg, f, List.mem_cons_self, hstore⟩
      | none =>
        rw [hfe] at herror
        rcases ih _ hfs herror with hdup | ⟨f', l, g, he, hg, f₁, hmem, hstore⟩
        · exact .inl hdup
        · exact .inr ⟨f', l, g, he, hg, f₁, List.mem_cons_of_mem f hmem, hstore⟩

end IL

/-! ### How a constant can be stored to -/

/-- The expressions and statements that code is made from. -/
def Item.nodes : Item → List (Node Note)
  | .global _ _ init _ => init.elim [] Expr.nodes
  | .cls _ _ _ fields _ => fields.flatMap fun d => d.init.elim [] Expr.nodes
  | .record .. => []
  | .procedure p _ _ => p.body.elim [] Stmt.nodesList

namespace Analysis

variable {a : Analysis}

def nodes (a : Analysis) : List (Node Note) :=
  a.items.flatMap Item.nodes

/-- A variable of the module is the operand of a step, and its type there is a type parameter. -/
def StepsGeneric (a : Analysis) (name : String) : Prop :=
  ∃ i op e x, .expr (.unary i op e) ∈ a.nodes ∧ op.isStep = true ∧ e.info.symbol = some x ∧
    a.env.globals.lookup x = some name ∧ a.types.isParameter e.typeId = true

/-- The address of a function of a name is taken. -/
def TakesAddress (a : Analysis) (name : String) : Prop :=
  ∃ i e x, .expr (.addressOf i e) ∈ a.nodes ∧ e.info.symbol = some x ∧
    a.env.function? x = some name

/-- Zero, one and the numbers of the literals, and their negatives. -/
def Writes (a : Analysis) (n : Int) : Prop :=
  n.natAbs ≤ 1 ∨ ∃ i l, .expr (.literal i l) ∈ a.nodes ∧ l.number? = some n.natAbs

/-- The numbers of elements of the arrays that are declared, and for those that are written out also
the numbers of their elements. -/
def Counts (a : Analysis) (n : Int64) : Prop :=
  (∃ d, .stmt (.var d) ∈ a.nodes ∧ 0 < n ∧ n = Lower.elementCount d.dims) ∨
    ∃ i es, .expr (.collection i es) ∈ a.nodes ∧ ∃ k ≤ es.length, n = .ofNat k

theorem writes_closed (a : Analysis) : ClosedInts a.Writes where
  zero := .inl (by decide)
  one := .inl (by decide)
  neg n h := by rwa [Writes, Int.natAbs_neg]

/-- The variables of the module. -/
def globals (a : Analysis) : List Global :=
  a.items.filterMap (·.global? a.env)

/-- What the code of a function with some return type may do. -/
def policy (a : Analysis) (type : Ty) : Policy where
  calls name := (∀ d ∈ a.program, d.Named) → name ≠ ""
  addresses := a.TakesAddress
  stores name := (∃ g ∈ a.globals, g.name = name ∧ g.isConstant = true) →
    a.StepsGeneric name ∨ a.TakesAddress name
  returns k := k = type.returned?
  ints := a.Writes
  counts := a.Counts

theorem strict_policy (h : ∀ d ∈ a.program, d.Named) (type : Ty) : (a.policy type).Strict type :=
  ⟨fun _ hname => hname h, fun _ h => h⟩

/-- What is known about a program that was accepted and whose variables were declared. -/
structure Ready (a : Analysis) : Prop where
  accepted : ¬a.Failed
  void : a.types.isVoid .void = true
  checked : ∀ item ∈ a.items, item.Checked a.toAnalysisState
  symbols : ∀ i name init isConstant, Item.global i name init isConstant ∈ a.items →
    i.symbol ≠ none
  names : (a.globals.map (·.name)).Nodup

end Analysis

theorem Expr.symbol_of_target? {e : Expr Note} (h : e.target? = some x) : e.info.symbol = some x := by
  cases e <;> first | exact h | cases h

theorem Catalog.isVoid_lowered {c : Catalog} {r : Option TypeId}
    (hr : c.isVoid (r.getD .object) = false) : (c.lowered r).isVoid = false := by
  cases r with
  | none => rfl
  | some t =>
    have ht : c.isVoid t = false := hr
    dsimp only [lowered]
    split
    · rename_i kind hk
      unfold TypeId.kind? at hk
      repeat' split at hk
      all_goals cases hk <;> rfl
    · rw [ht]
      rfl

/-- A function with a return type that is not void gives values. -/
theorem AnalysisState.Returns.isVoid_resultType {a : Analysis} (h : a.Returns x r)
    (hv : a.types.isVoid .void = true) (hr : a.types.isVoid (r.getD .object) = false) :
    (Lower.resultType a.env x).isVoid = false := by
  rcases h.kind with hk | ⟨-, rfl⟩
  · have hresult : Lower.resultType a.env x = a.types.lowered r := by
      rw [← h.returnType]
      exact if_pos hk
    rw [hresult]
    exact Catalog.isVoid_lowered hr
  · cases hv.symm.trans hr

namespace Analysis.Ready

variable {a : Analysis} (h : a.Ready)

include h

theorem global_unique (hg : g ∈ a.globals) (hg' : g' ∈ a.globals) (he : g.name = g'.name) :
    g = g' :=
  List.inj_on_of_nodup_map h.names hg hg' he

theorem mayWrite (hk : (a.tree.symbol x).kind ≠ .constant) :
    a.env.MayWrite (a.policy type).stores x := by
  rintro name hname ⟨g, hg, rfl, hc⟩
  obtain ⟨i, init, isConstant, hitem, hy⟩ := Lower.exists_global hname
  have hno : isConstant = false := by
    refine Bool.eq_false_iff.mpr fun hyes => hk ?_
    exact (((h.checked _ hitem).2.2 hyes x hy).resolve_left h.accepted).2
  have hmem : _ ∈ a.globals := List.mem_filterMap.mpr ⟨_, hitem, by rw [Item.global?, hy]; rfl⟩
  have := h.global_unique hg hmem rfl
  rw [this, hno] at hc
  cases hc

theorem permits (hn : n ∈ a.nodes) (hchecked : a.Checked r n)
    (hr : a.types.isVoid (r.getD .object) = false → type.isVoid = false) :
    a.env.Permits (a.policy type) n := by
  have hc := hchecked.resolve_left h.accepted
  unfold Lower.Env.Permits
  split
  · rename_i i op e
    intro hop x hx
    have hstep : op.isStep = true := by
      cases op <;> first | rfl | cases hop
    have hx := Expr.symbol_of_target? hx
    rcases ((hc.2.2 hstep).2 x hx).2 with hk | hparam
    · exact h.mayWrite hk
    · exact fun name hname _ => .inl ⟨i, op, e, x, hn, hstep, hx, hname, hparam⟩
  · rename_i i e
    exact fun x name hx hf => ⟨i, e, x, hn, hx, hf⟩
  · exact fun m hm => .inr ⟨_, _, hn, hm⟩
  · exact fun k hk => .inr ⟨_, _, hn, k, hk, rfl⟩
  · exact fun hpos => .inl ⟨_, hn, hpos, rfl⟩
  · exact fun x hx => h.mayWrite (hc.2 x (Expr.symbol_of_target? hx)).2
  · exact fun x hx => h.mayWrite (hc x hx).kind
  · intro hnone
    simp [policy, Ty.returned?, hr hc] at hnone
  · trivial

/-- Code outside procedures returns nothing. -/
theorem permits_value (hitem : item ∈ a.items)
    (hv : a.ChecksValue v) (he : v = some e) (hnodes : ∀ n ∈ e.nodes, n ∈ item.nodes) :
    ∀ n ∈ e.nodes, a.env.Permits (a.policy type) n := by
  intro n hn
  refine h.permits (List.mem_flatMap.mpr ⟨item, hitem, hnodes n hn⟩) (hv e he (some .void) n hn) ?_
  intro hvoid
  cases h.void.symm.trans hvoid

theorem fields (hds : a.env.classes.lookup t = some ds) (hd : d ∈ ds) (he : d.init = some e) :
    ∀ n ∈ e.nodes, a.env.Permits (a.policy type) n := by
  obtain ⟨_, _, _, _, hitem, -⟩ := Lower.exists_class hds
  refine h.permits_value hitem (h.checked _ hitem d hd) he fun n hn => ?_
  exact List.mem_flatMap.mpr ⟨d, hd, by rw [he]; exact hn⟩

omit h in
theorem function_ne_empty (hf : a.env.function? x = some name) (hnamed : ∀ d ∈ a.program, d.Named) :
    name ≠ "" := by
  unfold Lower.Env.function? at hf
  rw [Option.orElse_eq_orElse, Option.orElse_eq_or] at hf
  rcases Option.or_eq_some_iff.mp hf with hbuiltin | ⟨-, hproc⟩
  · split at hbuiltin
    · obtain ⟨b, hb, rfl⟩ := Option.map_eq_some_iff.mp hbuiltin
      have hall : ∀ b ∈ Builtin.all, b.runtime ≠ "" := by decide
      exact hall b (List.mem_of_find?_eq_some hb)
    · cases hbuiltin
  · obtain ⟨l, l', hl, -⟩ := List.lookup_eq_some_iff.mp hproc
    have hmem : (x, name) ∈ a.env.procedures := by simp [hl]
    obtain ⟨item, hitem, hx⟩ := List.mem_filterMap.mp hmem
    cases item with
    | procedure p full owner =>
      obtain ⟨_, -, heq⟩ := Option.map_eq_some_iff.mp hx
      cases heq
      exact Decl.name_ne_empty_list _ (.inr hnamed) hitem
    | _ => cases hx

/-- An integer that a variable of the module starts with is the number of a literal, of one that is
no wider than the variable. -/
theorem constant (hitem : .global i name (some e) isConstant ∈ a.items) (hx : i.symbol = some x)
    (he : e.constant? (a.env.typeOfSymbol x) = some (.int k u)) :
    ∃ j l, .expr (.literal j l) ∈ a.nodes ∧ l.number? = some k.natAbs ∧
      (u.kind = .i32 → l.typeId = .integer) := by
  obtain ⟨j, l, negate, hl, hc, htype⟩ := Expr.exists_of_constant? he
  obtain ⟨rfl, hi, hn, hnumber⟩ := Literal.constant?_eq_int hc
  obtain ⟨hchecks, hsuits, -⟩ := h.checked _ hitem
  obtain ⟨-, htakes⟩ := (hsuits x hx).resolve_left h.accepted
  have htype := htype a.toAnalysisState fun e' he' =>
    ((hchecks e rfl none _ he').resolve_left h.accepted).2
  have hlowered : a.env.typeOfSymbol x = a.types.lowered (a.tree.symbol x).type := rfl
  rw [hlowered] at hi ⊢
  cases ht : (a.tree.symbol x).type with
  | none =>
    rw [ht] at hi
    cases hi
  | some t =>
    rw [ht] at hi
    obtain ⟨hwhole, hnarrow⟩ := (htype ▸ htakes e t rfl ht).whole hn hi
    exact ⟨j, l, List.mem_flatMap.mpr ⟨_, hitem, hl⟩, hnumber hwhole, hnarrow⟩

theorem obeys (hm : m.globals = a.globals) : a.env.Obeys (a.policy type) m where
  known name v hv := by
    obtain ⟨g, hg, hk⟩ := Option.bind_eq_some_iff.mp hv
    have hmem : g ∈ a.globals := hm ▸ List.mem_of_find?_eq_some hg
    obtain ⟨item, hitem, hglobal⟩ := List.mem_filterMap.mp hmem
    cases item with
    | global i name' init isConstant =>
      obtain ⟨x, hx, rfl⟩ := Option.map_eq_some_iff.mp hglobal
      simp only [Global.known?, Option.ite_none_right_eq_some] at hk
      obtain ⟨e, rfl, he⟩ := Option.bind_eq_some_iff.mp hk.2
      cases v with
      | global name type =>
        obtain ⟨_, _, _, -, hl, -⟩ := Expr.exists_of_constant? he
        exact absurd rfl (Literal.constant?_ne_global hl name type)
      | int k u =>
        obtain ⟨j, l, hl, hnumber, -⟩ := h.constant hitem hx he
        exact .inr ⟨j, l, hl, hnumber⟩
      | _ => trivial
    | _ => cases hglobal
  functions x name := function_ne_empty
  runtime := by simp [Lower.runtimeCalls, policy]
  addresses name ha _ := .inr ha
  ints := a.writes_closed
  fields t ds hds d hd e he := h.fields hds hd he

/-- A variable whose value needs code is no constant of the module. -/
theorem stores_deferred (hg : (name, type', e) ∈ Lower.deferred a.env a.items) :
    (a.policy type).stores name ∧ ∀ n ∈ e.nodes, a.env.Permits (a.policy type) n := by
  obtain ⟨i, isConstant, hitem, hneeds⟩ := Lower.exists_deferred hg
  refine ⟨fun ⟨g, hg, hname, hc⟩ => ?_, ?_⟩
  · obtain ⟨x, hy⟩ := Option.ne_none_iff_exists'.mp (h.symbols _ _ _ _ hitem)
    have hmem : _ ∈ a.globals := List.mem_filterMap.mpr ⟨_, hitem, by rw [Item.global?, hy]; rfl⟩
    rw [h.global_unique hg hmem hname] at hc
    have htype : Lower.namedType? a.env.tree i = (a.env.tree.symbol x).type := by
      rw [Lower.namedType?, hy, Option.bind_some]
    rw [htype] at hneeds
    exact absurd ((Bool.and_eq_true _ _).mp hc).2 hneeds
  · exact h.permits_value hitem (h.checked _ hitem).1 rfl fun n hn => hn

theorem keeps : a.env.Keeps a.policy a.items where
  returns _ := rfl
  obeys _ _ := h.obeys
  routines r hr x hx n hn := by
    obtain ⟨hitem, hbody⟩ := item_of_routine hr
    obtain ⟨y, hy, -, t, ht, hnodes⟩ := (h.checked _ hitem _ hbody).resolve_left h.accepted
    cases hy.symm.trans hx
    refine h.permits (List.mem_flatMap.mpr ⟨_, hitem, ?_⟩) (hnodes n hn) fun hvoid => ?_
    · rw [Item.nodes, hbody]
      exact hn
    · exact ht.isVoid_resultType h.void hvoid
  deferred g hg := h.stores_deferred hg

end Analysis.Ready

theorem Translates.ready (h : Translates tokens name p m) : (analyze p).Ready := by
  have hm := Lower.lower_ok h.lowered (Lower.keeps_anything _ _)
  obtain ⟨hok, -, hgrown, -, hchecked⟩ := analyze_checked h.accepted
  have hnames := hm.names
  rw [hm.globals] at hnames
  exact ⟨hok, hgrown.types.void .void, fun item hitem => (hchecked item hitem).1, hm.symbols, hnames⟩

theorem Translates.named (h : Translates tokens name p m) : ∀ d ∈ (analyze p).program, d.Named :=
  (analyze_checked h.accepted).2.2.2.1 (named_of_parse h.parsed)

theorem exists_constant {m : Module} (h : (m.global? name).any (·.isConstant) = true) :
    ∃ g ∈ m.globals, g.name = name ∧ g.isConstant = true := by
  obtain ⟨g, hg, hc⟩ := (Option.any_eq_true _ _).mp h
  exact ⟨g, List.mem_of_find?_eq_some hg, by simpa using List.find?_some hg, hc⟩

/-- The functions of a module keep to the policies of their return types. -/
theorem Lower.Assembled.built (h : Assembled π env items m) (hf : f ∈ m.functions) :
    f.Built (π f.returnType) := by
  obtain ⟨fs, init, hfs, hlen, hall, -, hinit⟩ := h.functions
  rw [hfs] at hf
  rcases List.mem_append.mp hf with hf | hf
  · obtain ⟨k, hk, rfl⟩ := List.getElem_of_mem hf
    obtain ⟨f', hf', x, H, -, -, -, htype, -, hbuilt, -⟩ :=
      hall k _ (List.getElem?_eq_getElem (hlen ▸ hk))
    rw [List.getElem?_eq_getElem hk] at hf'
    cases hf'
    exact htype ▸ hbuilt
  · exact (hinit f hf).returnType ▸ (hinit f hf).built

/-- Code that stores to a constant steps it as something generic, or goes through the address of a
function of its name. -/
theorem Translates.storesToConstant (h : Translates tokens name p m) (hg : m.StoresToConstant g) :
    (analyze p).StepsGeneric g ∨ (analyze p).TakesAddress g := by
  have hm := Lower.lower_ok h.lowered h.ready.keeps
  obtain ⟨hconst, f, hf, b, hb, i, hi, hop, type, v, ho⟩ := hg
  rcases (hm.built hf).instr hb hi with hallow | hends
  · rw [Policy.Allows, hop] at hallow
    obtain ⟨-, w, v', hw, hstores⟩ := hallow
    cases ho.symm.trans hw
    obtain ⟨c, hc, hname, hc'⟩ := exists_constant hconst
    rw [hm.globals] at hc
    exact hstores g type rfl ⟨c, hc, hname, hc'⟩
  · have hterm := hends.terminator
    rw [hop] at hterm
    cases hterm

/-- The functions of a lowered module are structured, and the verifier can only find two functions
of one name or a store to a constant. Only a step of a generic operand and the address of a function
lead to such a store. -/
theorem verify_lower (h : Translates tokens name p m) :
    (∀ f ∈ m.functions, f.Structured) ∧
      (∀ g, m.StoresToConstant g → (analyze p).StepsGeneric g ∨ (analyze p).TakesAddress g) ∧
      ∀ e, IL.verify m = .error e → (∃ f, e.problem = .duplicateFunction f) ∨
        ∃ f l g, e.problem = .inBlock f l (.storeToConstant g) ∧ m.StoresToConstant g := by
  have hm := Lower.lower_ok h.lowered h.ready.keeps
  refine ⟨fun f hf => ?_, fun g => h.storesToConstant, fun e he => ?_⟩
  · exact (hm.built hf).structured (Analysis.strict_policy h.named _)
  · exact IL.verify_built (fun f => (analyze p).policy f.returnType)
      (fun f hf => ⟨hm.built hf, Analysis.strict_policy h.named _⟩) he

theorem verify_lower_loop : ∃ tokens p m, tokenize loopText 1 = .ok tokens ∧
    Translates tokens "main" p m ∧ m.functions.map (·.name) = ["C.F", "__init"] ∧
    (∀ f ∈ m.functions, f.Structured) ∧ ∀ g, ¬m.StoresToConstant g := by
  have hm : (module? 1 "main" loopText).map (fun m => (m.functions.map (·.name), m.globals)) =
      some (["C.F", "__init"], [{ name := "total", type := ⟨.i32, "Integer"⟩ }]) := by
    decide +kernel
  obtain ⟨tokens, p, m, -, htokens, h, heq⟩ := exists_of_module? hm
  refine ⟨tokens, p, m, htokens, h, congrArg Prod.fst heq, (verify_lower h).1, fun g hg => ?_⟩
  obtain ⟨c, hc, -, hconst⟩ := exists_constant hg.1
  have hglobals : m.globals = _ := congrArg Prod.snd heq
  rw [hglobals] at hc
  cases List.mem_singleton.mp hc
  cases hconst

/-- A constant of a generic class is stepped. -/
def steppedConstant : String :=
  "Class C(Of T)\nConst K As T = Nothing\nSub S()\nK++\nEnd Sub\nEnd Class\n"

theorem storeToConstant_of_step : ∃ tokens p m e, tokenize steppedConstant 1 = .ok tokens ∧
    Translates tokens "main" p m ∧ IL.verify m = .error e ∧
    e.problem = .inBlock "C.S" "entry" (.storeToConstant "C.K") := by
  have hm : (module? 1 "main" steppedConstant).map IL.verify = some (.error
      { problem := .inBlock "C.S" "entry" (.storeToConstant "C.K"), loc := ⟨1, 4, 1⟩ }) := by
    decide +kernel
  obtain ⟨tokens, p, m, -, htokens, h, hverify⟩ := exists_of_module? hm
  exact ⟨tokens, p, m, _, htokens, h, hverify, rfl⟩

end BasicSSA
