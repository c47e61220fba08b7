import BasicSSA.Proofs.Lower.Discipline

/-!
# Disciplined code of expressions

The code of an expression keeps every lawful discipline, if its nodes ask only for what is there.
-/

namespace BasicSSA.Lower

open IL (Value Ty Build)
open List (forall_mem_cons forall_mem_append)

/-- A symbol may be written: if it is a variable of the module, code may store to that. -/
def Env.MayWrite (env : Env) (stores : String → Prop) (x : SymbolId) : Prop :=
  ∀ name, env.globals.lookup x = some name → stores name

namespace Discipline

/-- A function whose address is a value. -/
def Addresses (D : Discipline γ) (name : String) : Prop :=
  ∀ k c type, D.Made k c (.global name type)

/-- What an assignment to an expression writes may be written. -/
def Writes (D : Discipline γ) (env : Env) (e : Expr Note) : Prop :=
  ∀ x, e.target? = some x → env.MayWrite D.Stores x

/-- A node of an expression asks only for what is there, and does what is permitted. -/
def Fine (D : Discipline γ) (c : Config γ) (p : Place) : Node Note → Prop
  | .expr (.name i n) =>
    (i.symbol = none → D.Fails (.notAnalyzed ("identifier '" ++ n ++ "'"))) ∧
      ∀ x, i.symbol = some x → p.IsLocal x → D.Reads c x
  | .expr (.unary _ op e) =>
    (stepOp? op).isSome → ((p.bound? e).isSome → D.Binds) ∧ D.Writes p.toEnv e
  | .expr (.addressOf _ e) =>
    ∀ x name, e.info.symbol = some x → p.function? x = some name → D.Addresses name
  | .expr (.withMember _ n) => p.withValues = [] → D.Fails (.outsideWith n)
  | .expr (.literal _ l) => ∀ n, l.number? = some n → D.Ints n
  | .expr (.collection _ es) => ∀ k ≤ es.length, D.Counts (.ofNat k)
  | .expr (.new i t _) => i.type = none → D.Fails (.notAnalyzed ("'New " ++ t.name ++ "'"))
  | _ => True

/-- The values of fields ask for nothing that belongs to a procedure. -/
def FieldsFine (D : Discipline γ) (env : Env) : Prop :=
  ∀ t ds, env.classes.lookup t = some ds → ∀ d ∈ ds, ∀ e, d.init = some e → ∀ n ∈ e.nodes,
    ∀ c (p : Place), p.toEnv = env → D.Fine c p n

/-- Code may use the objects at hand. If `Me` is a temporary, it has at least the number `k`. -/
structure Stands (D : Discipline γ) (k : Nat) (p : Place) (c : Config γ) : Prop where
  temps : k ≤ D.time c
  calls : ∀ x name, p.function? x = some name → D.Calls name
  me : ∀ v, p.me = some v → D.Made k c v
  withValues : ∀ v ∈ p.withValues, D.Made 0 c v

/-- New objects at a place get the values of their fields. -/
def Fills (D : Discipline γ) (fields : Place → Value → TypeId → Lower Unit) (p : Place) : Prop :=
  ∀ c o t, D.Stands 0 p c → D.Made 0 c o → D.Steps c (fields p o t) fun _ _ => True

variable {D : Discipline γ} {p : Place}

namespace Lawful

variable (hD : D.Lawful)
include hD

theorem keepFine (hle : D.Le c c') {n : Node Note} (h : D.Fine c p n) : D.Fine c' p n := by
  unfold Fine at h ⊢
  split at h
  case h_1 => exact ⟨h.1, fun x hx hl => hD.keepReads hle (h.2 x hx hl)⟩
  all_goals exact h

theorem keepAllFine {ns : List (Node Note)} (h : ∀ n ∈ ns, D.Fine c p n) (hle : D.Le c c') :
    ∀ n ∈ ns, D.Fine c' p n :=
  fun n hn => hD.keepFine hle (h n hn)

theorem later (hp : D.Stands k p c) (hle : D.Le c c') : D.Stands k p c' where
  temps := Nat.le_trans hp.temps (hD.temps hle)
  calls := hp.calls
  me v hv := hD.keep hle (hp.me v hv)
  withValues v hv := hD.keep hle (hp.withValues v hv)

theorem forgetMe (hp : D.Stands k p c) : D.Stands 0 p c :=
  ⟨Nat.zero_le _, hp.calls, fun v hv => hD.anyValue (hp.me v hv), hp.withValues⟩

/-! ### Parts of expressions -/

theorem me (hp : D.Stands k p c) : D.Steps c (Lower.me p) (D.Made k) :=
  hD.needed hp.me trivial

theorem withValue (hp : D.Stands k p c) (h : p.withValues = [] → D.Fails (.outsideWith n)) :
    D.Steps c (Lower.withValue p n) (D.Made 0) := by
  unfold Lower.withValue
  cases hw : p.withValues with
  | nil => exact .throw (h hw)
  | cons v vs => exact hD.made (hp.withValues v (by simp [hw]))

theorem valued (h : D.Steps c step (D.MadeIfAny k)) : D.Steps c (Lower.valued step) (D.Made k) :=
  hD.seq h fun _ _ _ hv => hD.needed hv trivial

theorem someOf (h : D.Steps c x (D.Made k)) :
    D.Steps c (x >>= fun v => pure (some v)) (D.MadeIfAny k) :=
  hD.seq h fun _ _ _ hv => hD.madeSome hv

theorem listed {rest : Lower (List Value)} (hx : D.Steps c x (D.Made 0))
    (hrest : D.Steps c rest fun c' vs => ∀ v ∈ vs, D.Made 0 c' v) :
    D.Steps c (do let v ← x; let vs ← rest; return v :: vs) fun c' vs => ∀ v ∈ vs, D.Made 0 c' v :=
  hD.both hx hrest fun _ _ _ _ hv hvs => hD.done fun _ hle =>
    forall_mem_cons.mpr ⟨hD.keep hle hv, fun v hm => hD.keep hle (hvs v hm)⟩

theorem readSymbol (hp : D.Stands k p c) (h : p.IsLocal x → D.Reads c x) :
    D.Steps c (Lower.readSymbol p i x) (D.Made k) := by
  unfold Lower.readSymbol
  dsimp only
  split
  · refine hD.get fun c' hi hle => ?_
    split
    · exact hD.made (hD.known hi ‹_›)
    · exact hD.result (hD.later hp hle).temps hD.loadGlobal
  · rename_i hglobal
    split
    · exact hD.seq (hD.me hp) fun o c₁ hle ho => hD.unaryResult (hD.anyValue ho)
        (hD.later hp hle).temps ⟨rfl, rfl, rfl⟩ rfl
    · exact hD.read p (h ⟨hglobal, .inl ‹_›⟩)
    · exact hD.read p (h ⟨hglobal, .inr (.inl ‹_›)⟩)
    · exact hD.read p (h ⟨hglobal, .inr (.inr ‹_›)⟩)
    · exact hD.stops trivial

theorem onObject (h : D.Steps c object (D.Made 0)) :
    D.Steps c (Lower.onObject isNeeded object) (D.MadeIfAny 0) := by
  unfold Lower.onObject
  split
  · exact hD.someOf h
  · exact hD.done fun _ _ => madeIfAny_none

theorem called (hp : D.Stands k p c) (hself : D.Steps c self (D.MadeIfAny 0)) :
    D.Steps c
      (do
        let v ← Lower.callProcedure p i x (← self) []
        return some (← Lower.needed (.subroutineAsValue n) v))
      (D.MadeIfAny k) :=
  hD.seq hself fun _ _ hle hself =>
    hD.seq (hD.callProcedure hp.calls hself (by simp)) fun _ _ _ hv => hD.someOf <|
      hD.needed (fun a ha => hD.weaken (hD.later hp hle).temps (hv a ha)) trivial

theorem readMember (hp : D.Stands k p c) (ho : D.Steps c object (D.Made 0)) :
    D.Steps c (Lower.readMember p i n isContainer object) (D.MadeIfAny k) := by
  unfold Lower.readMember
  split
  · exact .throw (hD.gaps _ (.inr (.inr ⟨n, rfl⟩)))
  · split
    · exact hD.called hp (hD.onObject ho)
    · split
      · rename_i hglobal
        refine hD.someOf (hD.readSymbol hp fun hl => ?_)
        simp [hl.1] at hglobal
      · exact hD.seq ho fun o c₁ hle ho => hD.someOf
          (hD.unaryResult ho (hD.later hp hle).temps ⟨rfl, rfl, rfl⟩ rfl)

theorem storeMember (ho : D.Steps c object (D.Made 0))
    (hw : ∀ x, i.symbol = some x → p.MayWrite D.Stores x) (hv : D.Made 0 c v) :
    D.Steps c (Lower.storeMember p i object v loc) fun _ _ => True := by
  unfold Lower.storeMember
  split
  · exact .throw (hD.gaps _ (.inl rfl))
  · rename_i x hx
    split
    · exact hD.storeGlobal (hw x hx _ ‹_›) hv
    · exact hD.seq ho fun _ _ hle ho => hD.storeField ho (hD.keep hle hv)

theorem storeAt (ha : D.Made 0 c a) (hv : D.Made 0 c v) :
    D.Steps c (do emit (Build.store a (← Lower.coerce v type loc) loc)) fun _ _ => True :=
  hD.seq (hD.coerce hv (Nat.zero_le _)) fun _ _ hle hv =>
    hD.append ⟨rfl, rfl, rfl⟩ (by simp [hD.keep hle ha, hv])

theorem keeping (hi : D.Inv c) (hb : D.Le b c) (h : D.Steps c x fun _ _ => True)
    (hnone : p.bound? e = none) : D.Runs b c x fun c' _ =>
      (p.bound? e = none → D.Le c c') ∧ ∀ x, p.bound? e = some x → D.Reads c' x :=
  hD.since hb ((hD.run hi h).mono fun _ _ hle _ => ⟨fun _ => hle, by simp [hnone]⟩)

theorem stepped (hold : D.Made k c old) (hnew : p.bound? e = none → D.Made k c new)
    (hreads : ∀ x, p.bound? e = some x → D.Reads c x) :
    D.Steps c (Lower.stepped p op e old new) (D.MadeIfAny k) := by
  unfold Lower.stepped
  split
  · exact hD.madeSome hold
  · split
    · exact hD.someOf (hD.read p (hreads _ ‹_›))
    · exact hD.madeSome (hnew ‹_›)

/-- What is done with the address of an element. -/
theorem address {y : Value → Lower α} (ha : D.Steps c array (D.Made 0))
    (his : D.Steps c is fun c' vs => ∀ v ∈ vs, D.Made 0 c' v)
    (hy : ∀ v c', D.Le c c' → D.Made 0 c' v → D.Steps c' (y v) R) :
    D.Steps c (do let a ← array; let vs ← is; y (← emit (Build.gep type a vs loc))) R :=
  hD.both ha his fun _ _ _ hle₁ ha hvs =>
    hD.seq (hD.appendResult ⟨rfl, rfl, rfl⟩ (by simpa using ⟨ha, hvs⟩)) fun v c' hle₂ hv =>
      hy v c' (hD.trans hle₁ hle₂) (hD.anyValue hv)

/-! ### Expressions -/

mutual

theorem expr? (hf : D.Fills fields p) : (e : Expr Note) → ∀ {k c}, D.Stands k p c →
    (∀ n ∈ e.nodes, D.Fine c p n) → D.Steps c (Lower.expr? fields p e) (D.MadeIfAny k)
  | .literal i v => by
    intro hp h
    have hfine := h _ (Expr.mem_nodes_self _)
    refine hD.madeSome (hD.literal ?_)
    cases v <;> first | exact hfine _ rfl | rfl
  | .me i => fun hp _ => hD.someOf (hD.me hp)
  | .name i n => by
    intro hp h
    obtain ⟨hnone, hlocal⟩ := h _ (Expr.mem_nodes_self _)
    unfold Lower.expr?
    split
    · exact .throw (hnone ‹_›)
    · split
      · exact hD.called hp (hD.onObject (hD.me (hD.forgetMe hp)))
      · exact hD.someOf (hD.readSymbol hp (hlocal _ ‹_›))
  | .binary i op l r => by
    intro hp h
    obtain ⟨hl, hr⟩ := forall_mem_append.mp (forall_mem_cons.mp h).2
    have hp₀ := hD.forgetMe hp
    unfold Lower.expr?
    exact hD.both (hD.valued (expr? hf l hp₀ hl)) (hD.valued (expr? hf r hp₀ hr))
      fun _ _ _ hle hl hr => hD.someOf (hD.result (hD.later hp hle).temps (hD.binaryOp hl hr))
  | .unary i op e => by
    intro hp h
    obtain ⟨hwrites, hnodes⟩ := forall_mem_cons.mp h
    have he := hD.valued (expr? hf e hp hnodes)
    unfold Lower.expr?
    split
    · exact hD.seq he fun _ _ hle hv => hD.someOf (hD.unaryOp (hD.later hp hle).temps hv)
    · rename_i step hstep
      have hop : step.opcode.isPlain = true := by
        cases op <;> cases hstep <;> rfl
      refine hD.seq he fun old c₁ hle hold c₁ hi hle₁ => ?_
      -- The new value is made after `c₁`, so storing it keeps what was there at `c₁`.
      have hold := hD.keep hle₁ hold
      have hle := hD.trans hle hle₁
      have hp₁ := hD.later hp hle
      refine (hD.run hi (hD.arith hop (hD.anyValue hold) hD.madeOne)).bind
        fun new c₂ hi₂ hle₂ hnew => ?_
      obtain ⟨hbinds, hwrites⟩ := hwrites (by simp [hstep])
      refine (store hf e hi hle₂ hi₂ (hD.forgetMe (hD.later hp₁ hle₂)) hnew hbinds hwrites
        (hD.keepAllFine hnodes (hD.trans hle hle₂))).bind fun _ c₃ hi hle₃ ⟨hkeep, hreads⟩ => ?_
      exact hD.since hle₃ (hD.run hi (hD.stepped (hD.keep hle₃ hold)
        (fun hnone => hD.keep (hkeep hnone) (hD.weaken hp₁.temps hnew)) hreads))
  | .member i o n => fun hp h =>
    hD.readMember hp (hD.valued (expr? hf o (hD.forgetMe hp) (forall_mem_cons.mp h).2))
  | .withMember i n => fun hp h =>
    hD.readMember hp (hD.withValue hp (h _ (Expr.mem_nodes_self _)))
  | .call i callee ts args => by
    intro hp h
    obtain ⟨hcallee, hargs⟩ := forall_mem_append.mp (forall_mem_cons.mp h).2
    have hp₀ := hD.forgetMe hp
    unfold Lower.expr?
    split
    · exact .throw (hD.gaps _ (.inr (.inl rfl)))
    · split
      · refine hD.seq (receiver hf callee hp₀ hcallee) fun self c₁ hle₁ hself => ?_
        refine hD.seq (hD.after hle₁ (arguments hf _ args hp₀ hargs)) fun vs c₂ hle₂ hvs => ?_
        have hself : D.MadeIfAny 0 c₂ self := fun a ha => hD.keep hle₂ (hself a ha)
        exact (hD.callProcedure hp.calls hself hvs).mono fun _ _ hv a ha =>
          hD.weaken (hD.later hp (hD.trans hle₁ hle₂)).temps (hv a ha)
      · refine hD.both (hD.valued (expr? hf callee hp₀ hcallee)) (arguments hf _ args hp₀ hargs)
          fun f vs c' hle hfv hvs => ?_
        have hinvoke := hD.runtimeCalls "__invoke" (by simp [Lower.runtimeCalls])
        refine (hD.call hinvoke ?_).mono fun _ _ hv a ha =>
          hD.weaken (hD.later hp hle).temps (hv a ha)
        simpa using ⟨hfv, hvs⟩
  | .index i a is => by
    intro hp h
    obtain ⟨ha, his⟩ := forall_mem_append.mp (forall_mem_cons.mp h).2
    unfold Lower.expr?
    have hp₀ := hD.forgetMe hp
    exact hD.address (hD.valued (expr? hf a hp₀ ha)) (indices hf is hp₀ his) fun _ _ hle ha =>
      hD.someOf (hD.unaryResult ha (hD.later hp hle).temps ⟨rfl, rfl, rfl⟩ rfl)
  | .new i t args => by
    intro hp h
    obtain ⟨htype, hargs⟩ := forall_mem_cons.mp h
    unfold Lower.expr?
    split
    · exact .throw (htype ‹_›)
    · dsimp only
      refine hD.seq (hD.result hp.temps (hD.appendResult ⟨rfl, rfl, rfl⟩ (by simp)))
        fun object c₁ hle₁ ho => ?_
      have hp₁ := hD.forgetMe (hD.later hp hle₁)
      refine hD.seq (hf c₁ object _ hp₁ (hD.anyValue ho)) fun _ c₂ hle₂ _ => ?_
      have ho := hD.keep hle₂ ho
      split
      · split
        · refine hD.seq (arguments hf _ args (hD.later hp₁ hle₂)
            (hD.keepAllFine hargs (hD.trans hle₁ hle₂))) fun vs c₃ hle₃ hvs => ?_
          have ho := hD.keep hle₃ ho
          exact hD.seq (hD.callProcedure hp.calls (madeIfAny_some.mpr (hD.anyValue ho)) hvs)
            fun _ _ hle _ => hD.madeSome (hD.keep hle ho)
        · exact hD.madeSome ho
      · exact hD.madeSome ho
  | .cast i e t => fun hp h =>
    hD.seq (hD.valued (expr? hf e hp (forall_mem_cons.mp h).2)) fun _ _ hle hv =>
      hD.someOf (hD.cast (hD.later hp hle).temps hv)
  | .interpolated i ps => by
    intro hp h
    unfold Lower.expr?
    refine hD.seq (parts hf ps none hp madeIfAny_none (forall_mem_cons.mp h).2)
      fun text c₁ _ ht => hD.madeSome ?_
    cases text with
    | none => exact hD.literal rfl
    | some v => exact ht v rfl
  | .collection i es => by
    intro hp h
    obtain ⟨hcounts, hes⟩ := forall_mem_cons.mp h
    unfold Lower.expr?
    refine hD.seq (hD.result hp.temps (hD.runtimeArray (hcounts _ (Nat.le_refl _))))
      fun array c₁ hle ha => ?_
    exact hD.seq (elements hf 0 es (hD.forgetMe (hD.later hp hle)) (hD.anyValue ha)
      (fun k hk => hcounts k (by omega)) (hD.keepAllFine hes hle))
      fun _ _ hle _ => hD.madeSome (hD.keep hle ha)
  | .addressOf i e => by
    intro hp h
    obtain ⟨haddress, he⟩ := forall_mem_cons.mp h
    unfold Lower.expr?
    split
    · rename_i x hx
      split
      · exact hD.stops trivial
      · exact hD.madeSome (haddress x _ (Option.filter_eq_some_iff.mp hx).1 ‹_› _ _ _)
    · refine hD.seq (hD.valued (expr? hf e (hD.forgetMe hp) he)) fun v c₁ hle hv => ?_
      refine hD.seq (hD.result (hD.later hp hle).temps (hD.appendResult ⟨rfl, rfl, rfl⟩ (by simp)))
        fun slot c₂ hle hs => ?_
      refine hD.seq (hD.append ⟨rfl, rfl, rfl⟩ ?_) fun _ c₃ hle _ => hD.madeSome (hD.keep hle hs)
      simpa using ⟨hD.anyValue hs, hD.keep hle hv⟩

theorem receiver (hf : D.Fills fields p) : (e : Expr Note) → ∀ {c}, D.Stands 0 p c →
    (∀ n ∈ e.nodes, D.Fine c p n) →
      D.Steps c (Lower.receiver fields p x e) (D.MadeIfAny 0)
  | .member _ o _ => fun hp h => hD.onObject (hD.valued (expr? hf o hp (forall_mem_cons.mp h).2))
  | .withMember .. => fun hp h => hD.onObject (hD.withValue hp (h _ (Expr.mem_nodes_self _)))
  | .literal .. | .name .. | .me .. | .binary .. | .unary .. | .call .. | .index .. | .new ..
  | .cast .. | .interpolated .. | .collection .. | .addressOf .. => fun hp _ =>
    hD.onObject (hD.me hp)

theorem arguments (hf : D.Fills fields p) : (params : List ParamInfo) → (es : List (Expr Note)) →
    ∀ {c}, D.Stands 0 p c → (∀ n ∈ Expr.nodesList es, D.Fine c p n) →
      D.Steps c (Lower.arguments fields p params es) fun c' vs => ∀ v ∈ vs, D.Made 0 c' v
  | _, [] => fun _ _ => hD.done (by simp)
  | params, e :: es => fun hp h =>
    have ⟨he, hes⟩ := forall_mem_append.mp h
    hD.seq (hD.valued (expr? hf e hp he)) fun _ _ hle hv =>
      hD.listed (hD.argument hv) (hD.after hle (arguments hf params.tail es hp hes))

theorem indices (hf : D.Fills fields p) : (es : List (Expr Note)) → ∀ {c}, D.Stands 0 p c →
    (∀ n ∈ Expr.nodesList es, D.Fine c p n) →
      D.Steps c (Lower.indices fields p es) fun c' vs => ∀ v ∈ vs, D.Made 0 c' v
  | [] => fun _ _ => hD.done (by simp)
  | e :: es => fun hp h =>
    have ⟨he, hes⟩ := forall_mem_append.mp h
    hD.seq (hD.valued (expr? hf e hp he)) fun _ _ hle hv =>
      hD.listed (hD.coerce hv (Nat.zero_le _)) (hD.after hle (indices hf es hp hes))

theorem parts (hf : D.Fills fields p) : (ps : List (Part Note)) → (before : Option Value) →
    ∀ {k c}, D.Stands k p c → D.MadeIfAny k c before →
    (∀ n ∈ Expr.nodesParts ps, D.Fine c p n) →
      D.Steps c (Lower.parts fields p loc before ps) (D.MadeIfAny k)
  | [], before => fun _ hbefore _ => hD.done fun _ hle a ha => hD.keep hle (hbefore a ha)
  | .text s :: ps, before => by
    intro hp hbefore h
    unfold Lower.parts
    refine hD.seq (hD.joined hp.temps hbefore (hD.literal rfl)) fun v c₁ hle hv => ?_
    exact parts hf ps (some v) (hD.later hp hle) (madeIfAny_some.mpr hv) (hD.keepAllFine h hle)
  | .expr e :: ps, before => by
    intro hp hbefore h
    obtain ⟨he, hps⟩ := forall_mem_append.mp h
    unfold Lower.parts
    refine hD.seq (hD.valued (expr? hf e hp he)) fun v c₁ hle₁ hv => ?_
    have hp₁ := hD.later hp hle₁
    refine hD.seq (hD.toText hv hp₁.temps) fun v c₂ hle₂ hv => ?_
    have hle := hD.trans hle₁ hle₂
    have hp₂ := hD.later hp hle
    refine hD.seq (hD.joined hp₂.temps (fun a ha => hD.keep hle (hbefore a ha)) hv)
      fun v c₃ hle₃ hv => ?_
    exact parts hf ps (some v) (hD.later hp₂ hle₃) (madeIfAny_some.mpr hv)
      (hD.keepAllFine hps (hD.trans hle hle₃))

theorem elements (hf : D.Fills fields p) : (j : Nat) → (es : List (Expr Note)) →
    ∀ {c}, D.Stands 0 p c → D.Made 0 c array → (∀ k < j + es.length, D.Counts (.ofNat k)) →
      (∀ n ∈ Expr.nodesList es, D.Fine c p n) →
        D.Steps c (Lower.elements fields p type array j es) fun _ _ => True
  | _, [] => fun _ _ _ _ => hD.skip
  | j, e :: es => by
    intro hp ha hcounts h
    rw [List.length_cons] at hcounts
    obtain ⟨he, hes⟩ := forall_mem_append.mp h
    unfold Lower.elements
    refine hD.seq (hD.valued (expr? hf e hp he)) fun v c₁ hle₁ hv => ?_
    refine hD.both (hD.coerce hv (Nat.zero_le _))
      (hD.element (hcounts j (by omega)) (hD.keep hle₁ ha))
      fun v address c₂ hle₂ hv hd => ?_
    refine hD.seq (hD.append ⟨rfl, rfl, rfl⟩ (by simpa using ⟨hD.anyValue hd, hv⟩))
      fun _ _ hle₃ _ => ?_
    have hle := hD.trans hle₁ (hD.trans hle₂ hle₃)
    exact hD.after hle (elements hf (j + 1) es hp ha (fun k hk => hcounts k (by omega)) hes)

/-- A value that was made after `b` is stored. What was there at `b` is kept, and all the rest too
unless a variable gets the value. -/
theorem store (hf : D.Fills fields p) : (e : Expr Note) → ∀ {b c}, D.Inv b → D.Le b c → D.Inv c →
    D.Stands 0 p c → D.Made (D.time b) c v → ((p.bound? e).isSome → D.Binds) →
    D.Writes p.toEnv e → (∀ n ∈ e.nodes, D.Fine c p n) →
      D.Runs b c (Lower.store fields p v loc e) fun c' _ =>
        (p.bound? e = none → D.Le c c') ∧ ∀ x, p.bound? e = some x → D.Reads c' x
  | .name i n => by
    intro hib hb hi hp hv hbinds hw _
    unfold Lower.store
    split
    · exact .throw (hD.gaps _ (.inl rfl))
    · rename_i x hx
      split
      · rename_i hglobal
        have hnone : p.bound? (.name i n) = none := by
          simp [Env.bound?, hx, Option.filter, hglobal]
        exact hD.keeping hi hb (hD.storeGlobal (hw x hx _ hglobal) (hD.anyValue hv)) hnone
      · split
        · rename_i hfield
          refine hD.keeping hi hb ?_ (by simp [Env.bound?, hx, hfield])
          exact hD.seq (hD.me hp) fun _ _ hle ho =>
            hD.storeField ho (hD.keep hle (hD.anyValue hv))
        · rename_i hglobal hfield
          have hsome : p.bound? (.name i n) = some x := by
            simp [Env.bound?, hx, hglobal, hfield, Option.filter]
          refine (hD.bind (hbinds (by simp [hsome])) hib hi hb hv).mono fun _ _ _ hreads => ?_
          simpa [hsome] using hreads
  | .member i o _ => fun _ hb hi hp hv _ hw h =>
    have ho := hD.valued (expr? hf o hp (forall_mem_cons.mp h).2)
    hD.keeping hi hb (hD.storeMember ho hw (hD.anyValue hv)) rfl
  | .withMember i n => fun _ hb hi hp hv _ hw h =>
    have ho := hD.withValue hp (h _ (Expr.mem_nodes_self _))
    hD.keeping hi hb (hD.storeMember ho hw (hD.anyValue hv)) rfl
  | .index i a is => by
    intro _ hb hi hp hv _ _ h
    obtain ⟨ha, his⟩ := forall_mem_append.mp (forall_mem_cons.mp h).2
    unfold Lower.store
    exact hD.keeping hi hb (hD.address (hD.valued (expr? hf a hp ha)) (indices hf is hp his)
      fun _ _ hle ha => hD.storeAt ha (hD.keep hle (hD.anyValue hv))) rfl
  | .unary i op e => by
    intro _ hb hi hp hv _ _ h
    have he := hD.valued (expr? hf e hp (forall_mem_cons.mp h).2)
    unfold Lower.store
    cases op with
    | deref =>
      exact hD.keeping hi hb (hD.seq he fun _ _ hle ha =>
        hD.storeAt ha (hD.keep hle (hD.anyValue hv))) rfl
    | _ => exact .throw (hD.gaps _ trivial)
  | .literal .. | .me .. | .binary .. | .call .. | .new .. | .cast .. | .interpolated ..
  | .collection .. | .addressOf .. => by
    intros
    unfold Lower.store
    exact .throw (hD.gaps _ trivial)

end

/-! ### New objects -/

theorem forM {xs : List α} {step : α → Lower Unit}
    (h : ∀ a ∈ xs, D.Steps c (step a) fun _ _ => True) :
    D.Steps c (xs.forM step) fun _ _ => True := by
  induction xs with
  | nil => exact hD.skip
  | cons a xs ih =>
    obtain ⟨ha, h⟩ := forall_mem_cons.mp h
    exact hD.seq ha fun _ _ hle _ => hD.after hle (ih h)

theorem initField (ho : D.Made 0 c object)
    (h : ∀ e, d.init = some e → D.Steps c (lowered e) (D.Made 0)) :
    D.Steps c (Lower.initField p lowered object d) fun _ _ => True := by
  unfold Lower.initField
  split
  · exact hD.skip
  · refine hD.seq (h _ ‹_›) fun v c₁ hle₁ hv => ?_
    refine hD.seq (hD.coerce hv (Nat.zero_le _)) fun v c₂ hle₂ hv => ?_
    exact hD.append ⟨rfl, rfl, rfl⟩ (by simpa using ⟨hD.keep (hD.trans hle₁ hle₂) ho, hv⟩)

theorem initFieldsAux (fuel : Nat) (hfields : D.FieldsFine p.toEnv) :
    D.Fills (Lower.initFieldsAux fuel) p := by
  induction fuel generalizing p with
  | zero => exact fun _ _ _ _ _ => hD.stops trivial
  | succ fuel ih =>
    intro c object t hp ho
    refine hD.forM fun t _ => hD.forM fun d hd => hD.initField ho fun e he => hD.valued ?_
    have hp' : D.Stands 0 { p with me := some object } c :=
      ⟨Nat.zero_le _, hp.calls, by simpa using ho, hp.withValues⟩
    refine hD.expr? (p := { p with me := some object }) (ih hfields) e hp' fun n hn => ?_
    cases hds : p.classes.lookup t with
    | none => simp [hds] at hd
    | some ds => exact hfields t ds hds d (by simpa [hds] using hd) e he n hn c _ rfl

theorem initFields (hfields : D.FieldsFine p.toEnv) : D.Fills Lower.initFields p :=
  fun c o t hp ho => hD.initFieldsAux (p.classes.length + 2) hfields c o t hp ho

/-! ### Uses of expressions -/

theorem expr (hfields : D.FieldsFine p.toEnv) (hp : D.Stands k p c)
    (h : ∀ n ∈ e.nodes, D.Fine c p n) : D.Steps c (Lower.expr p e) (D.Made k) :=
  hD.valued (hD.expr? (hD.initFields hfields) e hp h)

theorem exprStmt (hfields : D.FieldsFine p.toEnv) (hp : D.Stands 0 p c)
    (h : ∀ n ∈ e.nodes, D.Fine c p n) : D.Steps c (Lower.exprStmt p e) fun _ _ => True := by
  have he := hD.expr? (hD.initFields hfields) e hp h
  unfold Lower.exprStmt
  split
  · exact hD.seq he fun _ _ _ _ => hD.skip
  · exact hD.seq he fun _ _ _ _ => hD.skip
  · refine hD.seq (hD.receiver (hD.initFields hfields) _ hp h) fun _ _ _ hself => ?_
    exact hD.seq (hD.callProcedure hp.calls hself (by simp)) fun _ _ _ _ => hD.skip

theorem assign (hfields : D.FieldsFine p.toEnv) (hib : D.Inv b) (hb : D.Le b c) (hi : D.Inv c)
    (hp : D.Stands 0 p c) (hv : D.Made (D.time b) c v) (hbinds : (p.bound? e).isSome → D.Binds)
    (hw : D.Writes p.toEnv e) (h : ∀ n ∈ e.nodes, D.Fine c p n) :
    D.Runs b c (Lower.assign p e v loc) fun _ _ => True :=
  (hD.store (hD.initFields hfields) e hib hb hi hp hv hbinds hw h).mono fun _ _ _ _ => trivial

end Lawful

end Discipline

end BasicSSA.Lower
