import BasicSSA.Proofs.Lower.ValueKinds
import BasicSSA.Proofs.Lower.Writes

/-!
# The instructions that expressions are made into
-/

namespace BasicSSA

open IL (Value Ty Kind Opcode Instr Build)
open List (forall_mem_cons forall_mem_append)

theorem IL.Kind.forComparison_ne_void {a b : Kind} (h : a ≠ b) : a.forComparison b ≠ .void := by
  cases a <;> cases b <;> first | exact absurd rfl h | decide

namespace Analysis

variable {a : Analysis}

namespace Settled

variable (h : a.Settled)

include h

theorem isVoid_of_numeric (ht : t.isNumeric = true ∨ a.types.isParameter t = true) :
    (a.types.lowered (some t)).isVoid = false := by
  rcases ht with ht | ht
  · simp only [TypeId.isNumeric, TypeId.isIntegral, TypeId.isFloating, Bool.or_eq_true,
      decide_eq_true_eq] at ht
    rcases ht with (rfl | rfl) | (rfl | rfl) <;> rfl
  · rw [Ty.isVoid, h.lawful.kind_of_isParameter ht]
    rfl

theorem isVoid_void : a.types.isVoid .void = true := by
  rw [Catalog.isVoid, Catalog.shape, (h.lawful.start .void (by decide)).2.1.shape]
  rfl

/-- The type of an operation that is no comparison is not void. -/
theorem isVoid_binary (hn : .expr (.binary i op l r) ∈ a.nodes)
    (hop : op.opcode.isCompare = false) : (a.env.typeOf i).isVoid = false := by
  obtain ⟨t, ht, hy⟩ := h.judges hn
  rw [Lower.Env.typeOf, ht]
  cases op with
  | add | sub | mul | div | mod => exact h.isVoid_of_numeric hy
  | eq | ne | lt | le | gt | ge => cases hop
  | _ =>
    rw [hy]
    rfl

/-- The operand of `++` and `--` is a number, or what a type parameter stands for. -/
theorem isVoid_step (hn : .expr (.unary i op e) ∈ a.nodes) (hop : Lower.stepOp? op = some step) :
    (a.env.typeOf e.info).isVoid = false := by
  have hstep : op.isStep = true := by
    cases op <;> first | rfl | cases hop
  have ht := h.isVoid_of_numeric ((h.judges hn).2 hstep).1
  rwa [Ty.isVoid, Expr.typeId, h.lawful.kind_getD] at ht

end Settled

end Analysis

/-- A step whose code keeps to the rule and makes given calls. -/
abbrev Analysis.Conforms (a : Analysis) (cs : List Lower.CallSite) (x : Lower α) : Prop :=
  Lower.Writes a cs x fun _ => True

namespace Lower

variable {a : Analysis}

/-! ### Steps on values -/

theorem free_writes (h : i.op.isFree = true) : a.Conforms [] (emit (Build.appendResult i)) :=
  (Writes.appendResult (.free h)).imp fun _ _ => trivial

theorem effect_writes (h : i.op.isFree = true) : a.Conforms [] (emit (Build.append i)) :=
  .append (.free h)

theorem coerce_writes : Writes a [] (coerce v type loc) fun w =>
    type.isVoid = false → w.type.kind = type.kind := by
  have hw : a.Conforms [] (coerce v type loc) := by
    unfold coerce
    split
    · exact .pure trivial
    · split
      · exact .pure trivial
      · exact free_writes rfl
  exact hw.delivers fun s w s' hx hvoid => coerce_delivers hvoid s w s' hx

theorem runtime_writes (h : name ∈ runtimeCalls) :
    Writes a [] (runtime name args type loc) (·.type = type) := by
  have hw : a.Conforms [] (runtime name args type loc) :=
    (Writes.call (.runtime rfl h)).andThen fun _ _ => .needed fun _ _ => trivial
  exact hw.delivers runtime_delivers

theorem zero_writes : Writes a [] (zero type) (·.type.kind = type.kind) :=
  .needed fun _ => Ty.kind_zero?

theorem compare_writes (hop : op.isCompare = true) (h : l.type.kind = r.type.kind) :
    Writes a [] (emit (Build.compare op l r loc)) (·.type.kind = .i1) := by
  rw [Build.compare, if_pos hop]
  exact (Writes.appendResult (.compare hop h)).imp fun _ hv => congrArg Ty.kind hv

theorem operation_writes (op : BinaryOp) (hop : op.opcode.isCompare = false) (hc : op ≠ .concat)
    (hl : l.type.kind = type.kind) (hr : r.type.kind = type.kind) :
    a.Conforms [] (emit (Build.binary op.opcode type l r loc)) :=
  (Writes.appendResult (.arith hop hc hl hr)).imp fun _ _ => trivial

theorem toBoolean_writes : Writes a [] (toBoolean v loc) (·.type.kind = .i1) := by
  unfold toBoolean
  split
  · exact .pure ‹_›
  · exact zero_writes.first fun _ hz => compare_writes rfl hz.symm

theorem toText_writes : Writes a [] (toText v loc) (·.type.kind = .str) := by
  unfold toText
  split
  · exact .pure ‹_›
  · exact (runtime_writes (by simp [runtimeCalls])).imp fun _ hv => congrArg Ty.kind hv

theorem joined_writes (hb : ∀ w, before = some w → w.type.kind = .str) (hv : v.type.kind = .str) :
    Writes a [] (joined before v loc) (·.type.kind = .str) := by
  unfold joined
  split
  · exact .pure hv
  · exact (Writes.appendResult (.concat (hb _ rfl) hv)).imp fun _ hv => congrArg Ty.kind hv

/-! ### Variables -/

theorem nameOf_writes : a.Conforms [] (nameOf p x) :=
  .naming _

theorem readName_writes : Writes a [] (readName name type) (·.type = type) :=
  Writes.get.first fun _ _ => .pure rfl

theorem read_writes : Writes a [] (read p x) (·.type = p.typeOfSymbol x) :=
  nameOf_writes.first fun _ _ => readName_writes

theorem bindName_writes : a.Conforms [] (bindName name type v loc) := by
  unfold bindName
  refine (Writes.naming _).first fun _ _ => Writes.renameResult.first fun b _ => ?_
  split
  · exact effect_writes rfl
  · exact .pure trivial

theorem bind_writes : a.Conforms [] (bind p x v loc) :=
  coerce_writes.first fun _ _ => nameOf_writes.first fun _ _ => bindName_writes

theorem declare_writes : a.Conforms [] (declare p x) :=
  nameOf_writes.first fun _ _ => .addLocal

/-! ### Operators -/

theorem arith_writes (hop : op.opcode.isCompare = false)
    (hv : op ≠ .concat → type.isVoid = false) : a.Conforms [] (arith op l r type loc) := by
  unfold arith
  split
  · refine toText_writes.first fun _ hl => toText_writes.first fun _ hr => ?_
    exact (Writes.appendResult (.concat hl hr)).imp fun _ _ => trivial
  · rename_i hc
    refine coerce_writes.first fun _ hl => coerce_writes.first fun _ hr => ?_
    exact operation_writes op hop hc (hl (hv hc)) (hr (hv hc))

/-- The type to which `=` brings its two sides, where they are not stored alike. -/
def comparedAs (p : Place) (li ri : Note) (l r : Value) : Ty :=
  if l.isNull then r.type
  else if r.isNull then l.type
  else
    let kind := l.type.kind.forComparison r.type.kind
    let common := p.types.lowered (some (p.types.common (li.type.getD .object)
      (ri.type.getD .object)))
    if common.kind = kind then common else { kind }

/-- Two values that are neither stored alike nor `Nothing` are converted to the type of the pair. -/
theorem unify_of_values (hne : l.type.kind ≠ r.type.kind) (hl : l.isNull = false)
    (hr : r.isNull = false) : unify p li ri l r = do
      let l' ← coerce l (comparedAs p li ri l r) li.loc
      let r' ← coerce r (comparedAs p li ri l r) ri.loc
      return (l', r') := by
  simp [unify, comparedAs, hne, hl, hr]

theorem comparedAs_not_void {l r : Value} (p : Place) (li ri : Note)
    (hne : l.type.kind ≠ r.type.kind) (hl : l.isNull = false) (hr : r.isNull = false) :
    (comparedAs p li ri l r).isVoid = false := by
  have hvoid := Kind.forComparison_ne_void hne
  simp only [comparedAs, hl, hr, Bool.false_eq_true, if_false, Ty.isVoid, decide_eq_false_iff_not]
  split
  · exact fun h => hvoid (‹_ = _›.symm.trans h)
  · exact hvoid

/-- Both sides of a comparison are of one kind. -/
theorem unify_writes : Writes a [] (unify p li ri l r) fun (l, r) =>
    l.type.kind = r.type.kind := by
  by_cases hvalues : l.type.kind ≠ r.type.kind ∧ l.isNull = false ∧ r.isNull = false
  · obtain ⟨hk, hl, hr⟩ := hvalues
    have hvoid := comparedAs_not_void p li ri hk hl hr
    rw [unify_of_values hk hl hr]
    exact coerce_writes.first fun _ hl => coerce_writes.first fun _ hr =>
      .pure ((hl hvoid).trans (hr hvoid).symm)
  · unfold unify
    split
    · exact .pure ‹_›
    split
    · exact .pure rfl
    split
    · exact .pure rfl
    · simp_all

theorem binary_writes
    (hv : op.opcode.isCompare = false → (p.typeOf i).isVoid = false) :
    a.Conforms [] (binary p i op li ri l r) := by
  unfold binary
  split
  · rename_i hop
    exact unify_writes.first fun _ hlr => (compare_writes hop hlr).imp fun _ _ => trivial
  · rename_i hop
    have hop := Bool.eq_false_iff.mpr hop
    exact arith_writes hop fun _ => hv hop

theorem unary_writes : a.Conforms [] (unary p i op v) := by
  unfold unary
  split
  · exact .pure trivial
  · exact .pure trivial
  · exact coerce_writes.first fun _ _ => free_writes rfl
  · exact .pure trivial
  · exact free_writes rfl
  · exact free_writes rfl
  · exact .pure trivial

theorem cast_writes : a.Conforms [] (cast p i v) := by
  unfold cast
  dsimp only
  split
  · exact free_writes rfl
  · exact coerce_writes.imp fun _ _ => trivial

/-! ### Variables, procedures and objects -/

theorem me_writes : a.Conforms [] (me p) :=
  .needed fun _ _ => trivial

theorem withValue_writes : a.Conforms [] (withValue p member) :=
  .needed fun _ _ => trivial

theorem readSymbol_writes : a.Conforms [] (readSymbol p i x) := by
  unfold readSymbol
  split
  · refine Writes.get.first fun s _ => ?_
    split
    · exact .pure trivial
    · exact free_writes rfl
  · dsimp only
    split
    · exact me_writes.first fun _ _ => free_writes rfl
    · exact read_writes.imp fun _ _ => trivial
    · exact read_writes.imp fun _ _ => trivial
    · exact read_writes.imp fun _ _ => trivial
    · exact .throw _

theorem storeGlobal_writes : a.Conforms [] (storeGlobal p name x v loc) :=
  coerce_writes.first fun _ _ => effect_writes rfl

theorem storeField_writes : a.Conforms [] (storeField p object x v loc) :=
  coerce_writes.first fun _ _ => effect_writes rfl

theorem argument_writes : a.Conforms [] (argument p param v loc) := by
  unfold argument
  split
  · exact .pure trivial
  · dsimp only
    split
    · exact .pure trivial
    · exact coerce_writes.imp fun _ _ => trivial

theorem callProcedure_writes (hp : p.toEnv = a.env) (hn : n ∈ a.evaluated)
    (hc : p.callSite? n = some { callee := x, hasObject := b, args := k, loc := site.loc })
    (hself : self.isSome = b) (hargs : args.length = k) :
    a.Conforms (p.callSite? n).toList (callProcedure p site x self args) := by
  unfold callProcedure
  split
  · exact .throw _
  · rename_i name hname
    rw [hc]
    rw [hp] at hc hname
    refine .call (.call rfl (.site hn hc hname ?_ rfl) ⟨[], by simp, by simp [hname]⟩)
    rw [List.length_append, hargs, ← hself]
    cases self <;> rfl

theorem onObject_writes (h : a.Conforms cs object) :
    Writes a (if isNeeded then cs else []) (onObject isNeeded object) (·.isSome = isNeeded) := by
  unfold onObject
  cases isNeeded with
  | true => exact h.andThen fun _ _ => .pure rfl
  | false => exact .pure rfl

theorem onObject_silent (h : a.Conforms [] object) :
    Writes a [] (onObject isNeeded object) (·.isSome = isNeeded) := by
  simpa using onObject_writes h

section

variable {env : Env}

theorem Env.callOf?_eq (hx : e.info.symbol = some x) (hc : env.isCallable x = true) :
    env.callOf? e k loc =
      some { callee := x, hasObject := env.hasReceiver x e, args := k, loc } := by
  simp [callOf?, callee?, hx, hc]

theorem Env.callOf?_eq_none (hx : e.info.symbol = some x) (hc : env.isCallable x = false) :
    env.callOf? e k loc = none := by
  simp [callOf?, callee?, hx, hc]

theorem Env.callee?_isSome (hx : i.symbol = some x) :
    (env.callee? i).isSome = env.isCallable x := by
  cases h : env.isCallable x <;> simp [callee?, hx, h]

theorem Env.needsObject_eq (hx : i.symbol = some x) : env.needsObject i o =
    if env.isCallable x then env.isInstanceMember x && !env.isContainer o
    else (env.globals.lookup x).isNone := by
  cases hc : env.isCallable x <;> simp [needsObject, callee?, isOwned, hx, Option.filter_some, hc]

end

/-! ### Expressions -/

section

/-- What the code of an expression relies on where it stands. -/
structure Grounded (a : Analysis) (fc : TypeId → List CallSite)
    (fields : Place → Value → TypeId → Lower Unit) (p : Place) : Prop where
  settled : a.Settled
  env : p.toEnv = a.env
  fields : ∀ o t, a.Conforms (fc t) (fields p o t)

/-- A procedure that is called without arguments, for its value. -/
theorem calledValue_writes (hp : p.toEnv = a.env) (hn : n ∈ a.evaluated)
    (hc : p.callSite? n = some { callee := x, hasObject := b, args := 0, loc := site.loc })
    (hself : self.isSome = b) : a.Conforms (p.callSite? n).toList (do
      return some (← needed e (← callProcedure p site x self []))) :=
  (callProcedure_writes hp hn hc hself rfl).andThen fun _ _ =>
    (Writes.needed fun _ _ => trivial).result

/-- The code of a member makes the calls of the object where it needs the object. -/
theorem readMember_writes (hp : p.toEnv = a.env) (he : .expr e ∈ a.evaluated)
    (hsite : p.callSite? (.expr e) = p.callOf? e 0 e.info.loc)
    (hself : ∀ x, p.hasReceiver x e = (p.isInstanceMember x && !isContainer))
    (ho : a.Conforms cs object)
    (hpre : ∀ x, e.info.symbol = some x → pre = if (if p.isCallable x then p.hasReceiver x e
      else (p.globals.lookup x).isNone) then cs else []) :
    a.Conforms (pre ++ (p.callSite? (.expr e)).toList)
      (readMember p e.info n isContainer object) := by
  unfold readMember
  cases hx : e.info.symbol with
  | none => exact .throw _
  | some x =>
    have hpre := hpre x hx
    rw [hself] at hpre
    dsimp only
    cases hc : p.isCallable x with
    | true =>
      rw [hc, if_pos rfl] at hpre
      rw [hpre]
      exact (onObject_writes ho).bind fun self hsome =>
        calledValue_writes hp he (hsite.trans (Env.callOf?_eq hx hc)) (hsome.trans (hself x).symm)
    | false =>
      rw [hc, if_neg Bool.false_ne_true] at hpre
      rw [hpre, hsite, Env.callOf?_eq_none hx hc, Option.toList_none, List.append_nil]
      cases hglobal : p.globals.lookup x with
      | some name => exact readSymbol_writes.result
      | none => exact ho.andThen fun _ _ => (free_writes rfl).result

theorem storeMember_writes (ho : a.Conforms cs object) :
    a.Conforms (if p.isOwned i then cs else []) (storeMember p i object v loc) := by
  unfold storeMember
  cases hx : i.symbol with
  | none => exact .throw _
  | some x =>
    dsimp only
    cases hglobal : p.globals.lookup x with
    | some name =>
      rw [if_neg (by simp [Env.isOwned, hx, hglobal])]
      exact storeGlobal_writes
    | none =>
      rw [if_pos (by simp [Env.isOwned, hx, hglobal])]
      exact ho.andThen fun _ _ => storeField_writes

theorem stepped_writes : a.Conforms [] (stepped p op e old new) := by
  unfold stepped
  split
  · exact .pure trivial
  · split
    · exact read_writes.result
    · exact .pure trivial

mutual

/-- The code of an expression keeps to the rule, and makes the calls of the expression. -/
theorem expr?_writes (hg : Grounded a fc fields p) : (e : Expr Note) →
    (∀ n ∈ p.evaluated e, n ∈ a.evaluated) → a.Conforms (p.calls fc e) (expr? fields p e)
  | .literal i v, _ => .pure trivial
  | .me i, _ => me_writes.result
  | .name i n, h => by
    have hnode := h _ (Env.mem_evaluated_self _)
    rw [Env.calls, expr?]
    cases hx : i.symbol with
    | none => exact .throw _
    | some x =>
      dsimp only
      cases hc : p.isCallable x with
      | true =>
        exact (onObject_silent me_writes).first fun self hself =>
          calledValue_writes hg.env hnode (Env.callOf?_eq hx hc) hself
      | false =>
        have hnone : p.callSite? (.expr (.name i n)) = none := Env.callOf?_eq_none hx hc
        rw [hnone]
        exact readSymbol_writes.result
  | .binary i op l r, h => by
    obtain ⟨hnode, h⟩ := forall_mem_cons.mp h
    obtain ⟨hl, hr⟩ := forall_mem_append.mp h
    rw [Env.calls, expr?]
    refine (expr?_writes hg l hl).valued.bind fun _ _ =>
      (expr?_writes hg r hr).valued.andThen fun _ _ => ?_
    refine (binary_writes fun hop => ?_).result
    rw [hg.env]
    exact hg.settled.isVoid_binary (Analysis.mem_nodes_of_evaluated hnode) hop
  | .unary i op e, h => by
    obtain ⟨hnode, h⟩ := forall_mem_cons.mp h
    have he := (expr?_writes hg e h).valued
    rw [Env.calls, expr?]
    cases hstep : stepOp? op with
    | none =>
      simp only [Option.isSome_none, Bool.false_eq_true, if_false, List.append_nil]
      exact he.andThen fun _ _ => unary_writes.result
    | some step =>
      have hop : step.opcode.isCompare = false := by
        cases op <;> cases hstep <;> rfl
      have hvoid : (p.typeOf e.info).isVoid = false := by
        rw [hg.env]
        exact hg.settled.isVoid_step (Analysis.mem_nodes_of_evaluated hnode) hstep
      refine he.bind fun old _ => (arith_writes hop fun _ => hvoid).first fun new _ => ?_
      exact (store_writes hg e fun n hn => h n (Env.mem_evaluated_of_target hn)).andThen
        fun _ _ => stepped_writes
  | .member i o n, h => by
    obtain ⟨hnode, h⟩ := forall_mem_cons.mp h
    rw [Env.calls, expr?]
    refine readMember_writes (e := .member i o n) hg.env hnode rfl (fun _ => rfl)
      (expr?_writes hg o h).valued fun x hx => ?_
    rw [Env.needsObject_eq (i := i) hx]
    rfl
  | .withMember i n, h => by
    rw [Env.calls, expr?]
    change a.Conforms ([] ++ _) _
    exact readMember_writes (e := .withMember i n) hg.env
      (h _ (Env.mem_evaluated_self _)) rfl (fun _ => (Bool.and_true _).symm) withValue_writes
      fun _ _ => (ite_self _).symm
  | .call i callee ts args, h => by
    obtain ⟨hnode, h⟩ := forall_mem_cons.mp h
    obtain ⟨h, hargs⟩ := forall_mem_append.mp h
    rw [Env.calls, expr?]
    cases hx : callee.info.symbol with
    | none => exact .throw _
    | some x =>
      dsimp only
      rw [Env.callee?_isSome hx] at h ⊢
      cases hc : p.isCallable x with
      | true =>
        rw [hc, if_pos rfl] at h
        refine (receiver_writes hg x callee hx hc h).bind
          fun self hself => (arguments_writes hg _ args hargs).bind fun vs hvs => ?_
        exact callProcedure_writes hg.env hnode (Env.callOf?_eq hx hc) hself hvs
      | false =>
        have hnone : p.callSite? (.expr (.call i callee ts args)) = none :=
          Env.callOf?_eq_none hx hc
        rw [hc, if_neg nofun] at h
        rw [hnone, Option.toList_none, List.append_nil]
        refine (expr?_writes hg callee h).valued.bind fun _ _ =>
          (arguments_writes hg _ args hargs).andThen fun _ _ => ?_
        exact .call (.runtime rfl (by simp [runtimeCalls]))
  | .index i e is, h => by
    obtain ⟨he, his⟩ := forall_mem_append.mp (forall_mem_cons.mp h).2
    rw [Env.calls, expr?]
    refine (expr?_writes hg e he).valued.bind fun _ _ =>
      (indices_writes hg is his).andThen fun _ _ => ?_
    exact (free_writes rfl).first fun _ _ => (free_writes rfl).result
  | .new i t args, h => by
    obtain ⟨hnode, h⟩ := forall_mem_cons.mp h
    rw [Env.calls, expr?]
    cases i.type with
    | none => exact .throw _
    | some type =>
      refine (free_writes rfl).first fun object _ => (hg.fields _ _).bind fun _ _ => ?_
      cases hx : i.symbol with
      | none =>
        rw [if_neg (by simp [Env.callee?, hx])]
        exact .pure trivial
      | some x =>
        rw [Env.callee?_isSome hx]
        dsimp only
        cases hc : p.isCallable x with
        | false => exact .pure trivial
        | true =>
          have hsite : p.callSite? (.expr (.new i t args)) =
              some { callee := x, hasObject := true, args := args.length, loc := i.loc } := by
            simp [Env.callSite?, Env.callee?, hx, hc]
          refine (arguments_writes hg _ args h).bind fun vs hvs => ?_
          exact (callProcedure_writes hg.env hnode hsite rfl hvs).result
  | .cast i e t, h => by
    rw [Env.calls, expr?]
    exact (expr?_writes hg e (forall_mem_cons.mp h).2).valued.andThen fun _ _ => cast_writes.result
  | .interpolated i ps, h => by
    rw [Env.calls, expr?]
    exact (parts_writes hg none nofun ps (forall_mem_cons.mp h).2).result
  | .collection i es, h => by
    rw [Env.calls, expr?]
    refine (runtime_writes (by simp [runtimeCalls])).first fun _ _ => ?_
    exact (elements_writes hg _ es (forall_mem_cons.mp h).2).result
  | .addressOf i e, h => by
    obtain ⟨-, h⟩ := forall_mem_cons.mp h
    rw [Env.calls, expr?]
    change a.Conforms _ (match p.callee? e.info with | some x => _ | none => _)
    cases hx : p.callee? e.info with
    | some x =>
      dsimp only
      cases p.function? x with
      | none => exact .throw _
      | some name => exact .pure trivial
    | none =>
      rw [hx] at h
      refine (expr?_writes hg e h).valued.andThen fun _ _ => ?_
      exact (free_writes rfl).first fun _ _ => (effect_writes rfl).result

/-- There is an object if the procedure is called on one. -/
theorem receiver_writes (hg : Grounded a fc fields p) (x : SymbolId) : (e : Expr Note) →
    e.info.symbol = some x → p.isCallable x = true →
    (∀ n ∈ p.receiverNodes e, n ∈ a.evaluated) →
    Writes a (p.receiverCalls fc e) (receiver fields p x e) (·.isSome = p.hasReceiver x e)
  | .member i o _, hx, hc, h => by
    simp only [Env.receiverNodes] at h
    rw [Env.receiverCalls, Env.needsObject_eq (i := i) hx, hc, receiver]
    exact onObject_writes (expr?_writes hg o h).valued
  | .withMember .., _, _, _ => onObject_silent withValue_writes
  | .literal .., _, _, _ | .name .., _, _, _ | .me .., _, _, _ | .binary .., _, _, _
  | .unary .., _, _, _ | .call .., _, _, _ | .index .., _, _, _ | .new .., _, _, _
  | .cast .., _, _, _ | .interpolated .., _, _, _ | .collection .., _, _, _
  | .addressOf .., _, _, _ => onObject_silent me_writes

theorem arguments_writes (hg : Grounded a fc fields p) :
    (params : List ParamInfo) → (es : List (Expr Note)) →
    (∀ n ∈ p.evaluatedList es, n ∈ a.evaluated) →
    Writes a (p.callsList fc es) (arguments fields p params es) (·.length = es.length)
  | _, [], _ => .pure rfl
  | params, e :: es, h => by
    obtain ⟨he, hes⟩ := forall_mem_append.mp h
    rw [Env.callsList, arguments]
    refine (expr?_writes hg e he).valued.bind fun _ _ =>
      argument_writes.first fun _ _ => ?_
    exact (arguments_writes hg _ es hes).andThen fun _ hlen =>
      .pure (congrArg (· + 1) hlen)

theorem indices_writes (hg : Grounded a fc fields p) : (es : List (Expr Note)) →
    (∀ n ∈ p.evaluatedList es, n ∈ a.evaluated) →
    a.Conforms (p.callsList fc es) (indices fields p es)
  | [], _ => .pure trivial
  | e :: es, h => by
    obtain ⟨he, hes⟩ := forall_mem_append.mp h
    rw [Env.callsList, indices]
    refine (expr?_writes hg e he).valued.bind fun _ _ =>
      coerce_writes.first fun _ _ => ?_
    exact (indices_writes hg es hes).result

theorem parts_writes (hg : Grounded a fc fields p) (before : Option Value)
    (hb : ∀ w, before = some w → w.type.kind = .str) :
    (ps : List (Part Note)) → (∀ n ∈ p.evaluatedParts ps, n ∈ a.evaluated) →
    a.Conforms (p.callsParts fc ps) (parts fields p loc before ps)
  | [], _ => .pure trivial
  | .text s :: ps, h => by
    rw [Env.callsParts, parts]
    refine (joined_writes hb rfl).first fun v hv => parts_writes hg (some v) ?_ ps h
    rintro _ ⟨⟩
    exact hv
  | .expr e :: ps, h => by
    obtain ⟨he, hps⟩ := forall_mem_append.mp h
    rw [Env.callsParts, parts]
    refine (expr?_writes hg e he).valued.bind fun _ _ =>
      toText_writes.first fun _ hv => (joined_writes hb hv).first fun v hv => ?_
    refine parts_writes hg (some v) ?_ ps hps
    rintro _ ⟨⟩
    exact hv

theorem elements_writes (hg : Grounded a fc fields p) : (k : Nat) → (es : List (Expr Note)) →
    (∀ n ∈ p.evaluatedList es, n ∈ a.evaluated) →
    a.Conforms (p.callsList fc es) (elements fields p type array k es)
  | _, [], _ => .pure trivial
  | k, e :: es, h => by
    obtain ⟨he, hes⟩ := forall_mem_append.mp h
    rw [Env.callsList, elements]
    refine (expr?_writes hg e he).valued.bind fun _ _ =>
      coerce_writes.first fun _ _ => (free_writes rfl).first fun _ _ => ?_
    exact (effect_writes rfl).first fun _ _ =>
      elements_writes hg (k + 1) es hes

/-- A store makes the calls of its target again. -/
theorem store_writes (hg : Grounded a fc fields p) : (e : Expr Note) →
    (∀ n ∈ p.targetNodes e, n ∈ a.evaluated) →
    a.Conforms (p.storeCalls fc e) (store fields p v loc e)
  | .name i _, _ => by
    rw [store]
    split
    · exact .throw _
    · split
      · exact storeGlobal_writes
      · split
        · exact me_writes.first fun _ _ => storeField_writes
        · exact bind_writes
  | .member i o _, h => storeMember_writes (expr?_writes hg o h).valued
  | .withMember i n, _ => by
    show a.Conforms [] (storeMember p i (withValue p n) v loc)
    simpa using storeMember_writes withValue_writes
  | .index i e is, h => by
    obtain ⟨he, his⟩ := forall_mem_append.mp h
    rw [Env.storeCalls, store]
    refine (expr?_writes hg e he).valued.bind fun _ _ =>
      (indices_writes hg is his).andThen fun _ _ => ?_
    exact (free_writes rfl).first fun _ _ => coerce_writes.first fun _ _ => effect_writes rfl
  | .unary i op e, h => by
    cases op with
    | deref =>
      rw [Env.storeCalls, store]
      exact (expr?_writes hg e h).valued.andThen fun _ _ => coerce_writes.first fun _ _ =>
        effect_writes rfl
    | _ => exact .throw _
  | .literal .., _ | .me .., _ | .binary .., _ | .call .., _ | .new .., _ | .cast .., _
  | .interpolated .., _ | .collection .., _ | .addressOf .., _ => .throw _

end

end

/-! ### New objects -/

theorem initField_writes
    (h : ∀ e, d.init = some e → a.Conforms (cs e) (lowered e)) :
    a.Conforms (d.init.elim [] cs) (initField p lowered object d) := by
  unfold initField
  cases hinit : d.init with
  | none => exact .pure trivial
  | some e =>
    exact (h e hinit).andThen fun _ _ => coerce_writes.first fun _ _ => effect_writes rfl

theorem initFieldsAux_writes (fuel : Nat) (ha : a.Settled) (hp : p.toEnv = a.env) :
    a.Conforms (p.fieldCalls fuel t) (initFieldsAux fuel p object t) := by
  induction fuel generalizing p object t with
  | zero => exact .throw _
  | succ fuel ih =>
    refine .forM fun t _ => .forM fun d hd => initField_writes fun e he => ?_
    have hg : Grounded a (p.fieldCalls fuel) (initFieldsAux fuel) { p with me := some object } :=
      ⟨ha, hp, fun _ _ => ih hp⟩
    refine (expr?_writes hg e ?_).valued
    show ∀ n ∈ p.evaluated e, _
    rw [hp]
    simp only [hp] at hd
    cases hds : a.env.classes.lookup t with
    | none => simp [hds] at hd
    | some ds => exact Analysis.evaluated_of_field hds (by simpa [hds] using hd) he

theorem grounded (ha : a.Settled) (hp : p.toEnv = a.env) :
    Grounded a p.newCalls initFields p :=
  ⟨ha, hp, fun _ _ => initFieldsAux_writes _ ha hp⟩

theorem expr_writes (ha : a.Settled) (hp : p.toEnv = a.env)
    (h : ∀ n ∈ p.evaluated e, n ∈ a.evaluated) :
    a.Conforms (p.calls p.newCalls e) (expr p e) :=
  (expr?_writes (grounded ha hp) e h).valued

end Lower

end BasicSSA
