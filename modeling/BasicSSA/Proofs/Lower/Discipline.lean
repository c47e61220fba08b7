import BasicSSA.Lower.Expr
import BasicSSA.Proofs.Lower.Scoped
import BasicSSA.Proofs.Lower.Straight
import BasicSSA.Proofs.Syntax.Nodes

/-!
# Disciplines of lowering

A discipline says what holds of the state of lowering at all times, what a later state keeps, which
values code may use, what it may call and store to, and why lowering may stop. A lawful one is kept
by each instruction that is added. Then it is kept by the code of every expression.
-/

namespace BasicSSA

open IL (Value Ty Opcode Instr Build)

/-- An operation that neither ends a block nor starts one, defines no variable and calls nothing. -/
def IL.Opcode.isPlain (op : Opcode) : Bool :=
  !op.isTerminator && op ≠ .phi && op ≠ .assign && op ≠ .call

/-- A plain operation with its operands. -/
def IL.Instr.isPlain (i : Instr) : Bool :=
  i.op.isPlain && (!(i.op = .store || i.op.isBinary || i.op.isCompare) || i.operands.length = 2)

/-- An instruction inside a block, before it has a result. -/
structure IL.Instr.IsPlain (i : Instr) : Prop where
  op : i.isPlain = true
  result : i.result = none
  labels : i.labels = []

theorem IL.Instr.IsPlain.not_terminator {i : Instr} (h : i.IsPlain) :
    i.op.isTerminator = false := by
  have hop := (Bool.and_eq_true_iff.mp h.op).1
  cases hi : i.op <;> first | rfl | simp [hi, Opcode.isPlain, Opcode.isTerminator] at hop

/-- The integer that a literal is. -/
def Literal.number? : Literal → Option Nat
  | integer n | long n => some n.val
  | _ => none

/-- The symbol that an assignment to an expression writes, unless it writes through an address. -/
def Expr.target? : Expr Note → Option SymbolId
  | .name i _ | .member i _ _ | .withMember i _ => i.symbol
  | _ => none

/-- The errors of lowering that analysis does not rule out. -/
def LowerError.IsGap : LowerError → Prop
  | .build (.duplicateGlobal _) => True
  | .build _ | .outsideWith _ | .outsideLoop _ => False
  | .notAnalyzed what =>
    what = "assignment target" ∨ what = "call target" ∨ ∃ name, what = "member '" ++ name ++ "'"
  | .subroutineAsValue _ | .callAsValue | .notValue _ | .outsideMethod | .notAssignable
  | .voidDefault | .noFunctionFor _ | .endlessFields _ => True

namespace Lower

/-- A state of lowering, and what a proof keeps track of beside it. -/
structure Config (γ : Type) where
  ghost : γ
  state : LowerState

/-- The number of the next temporary. -/
def Config.nextTemp {γ : Type} (c : Config γ) : Nat :=
  c.state.builder.nextTemp

/-- The functions of the runtime that lowering calls on its own. -/
def runtimeCalls : List String :=
  ["rt_to_string", "rt_array_new", "rt_array_len", "__invoke", "__throw"]

structure Discipline (γ : Type) where
  /-- What holds while code is added. -/
  Inv : Config γ → Prop
  /-- A later state, which keeps what an earlier one has. -/
  Le : Config γ → Config γ → Prop
  /-- The number of temporaries that were made before. -/
  time : Config γ → Nat
  /-- A value that code may use. If it is a temporary, it has at least a number. -/
  Made : Nat → Config γ → Value → Prop
  /-- A variable of the procedure that code may read. -/
  Reads : Config γ → SymbolId → Prop
  /-- The name of a variable of the procedure. -/
  Names : Config γ → SymbolId → String → Prop
  /-- A name that code may read. -/
  Knows : Config γ → String → Prop
  /-- A function that code may call. -/
  Calls : String → Prop
  /-- A variable of the module that code may store to. -/
  Stores : String → Prop
  /-- An integer that may be a constant. -/
  Ints : Int → Prop
  /-- A number of elements. -/
  Counts : Int64 → Prop
  /-- Why lowering may stop. -/
  Fails : LowerError → Prop

namespace Discipline

/-- A constant that code may use. -/
def Holds (D : Discipline γ) : Value → Prop
  | .int n _ => D.Ints n
  | v => v.isConstant = true

theorem Holds.isConstant {D : Discipline γ} (h : D.Holds v) : v.isConstant = true := by
  cases v <;> first | rfl | exact h

/-- What a step leads to from a configuration. What was there at an earlier one is kept. -/
def Runs (D : Discipline γ) (b c : Config γ) (x : Lower α) (Q : Config γ → α → Prop) : Prop :=
  match x c.state with
  | .ok (a, s) => ∃ g, D.Inv ⟨g, s⟩ ∧ D.Le b ⟨g, s⟩ ∧ Q ⟨g, s⟩ a
  | .error e => D.Fails e

/-- What a step leads to from a configuration, or from a later one. -/
def Steps (D : Discipline γ) (c : Config γ) (x : Lower α) (Q : Config γ → α → Prop) : Prop :=
  ∀ c', D.Inv c' → D.Le c c' → D.Runs c' c' x Q

/-- If there is a value, code may use it. -/
def MadeIfAny (D : Discipline γ) (k : Nat) (c : Config γ) (v : Option Value) : Prop :=
  ∀ a, v = some a → D.Made k c a

/-- New versions of variables may be made. The new value was made after `b`, so nothing that was
there at `b` is given up for it. -/
def Binds (D : Discipline γ) : Prop :=
  ∀ b c name type v loc, D.Inv b → D.Inv c → D.Le b c → D.Made (D.time b) c v →
    D.Runs b c (bindName name type v loc) fun c' _ =>
      D.Knows c' name ∧ ∀ x, D.Names c x name → D.Reads c' x

/-- Variables may be declared. -/
def Declares (D : Discipline γ) : Prop :=
  ∀ c p x, D.Steps c (declare p x) fun _ _ => True

/-- What the rules for instructions need. -/
structure Lawful (D : Discipline γ) : Prop where
  refl : ∀ c, D.Le c c
  trans : ∀ {c c' c''}, D.Le c c' → D.Le c' c'' → D.Le c c''
  temps : ∀ {c c'}, D.Le c c' → D.time c ≤ D.time c'
  keep : ∀ {c c' k v}, D.Le c c' → D.Made k c v → D.Made k c' v
  weaken : ∀ {c j k v}, j ≤ k → D.Made k c v → D.Made j c v
  keepReads : ∀ {c c' x}, D.Le c c' → D.Reads c x → D.Reads c' x
  keepKnows : ∀ {c c' name}, D.Le c c' → D.Knows c name → D.Knows c' name
  literal : ∀ {k c v}, D.Holds v → D.Made k c v
  ints : ClosedInts D.Ints
  int : ∀ {k c n t}, D.Made k c (.int n t) → D.Ints n
  known : ∀ {k c name v}, D.Inv c →
    (c.state.builder.finished.global? name).bind IL.Global.known? = some v → D.Made k c v
  gaps : ∀ e, e.IsGap → D.Fails e
  runtimeCalls : ∀ name ∈ runtimeCalls, D.Calls name
  append : ∀ {c i}, i.IsPlain → (∀ v ∈ i.operands, D.Made 0 c v) →
    D.Steps c (emit (Build.append i)) fun _ _ => True
  appendResult : ∀ {c i}, i.IsPlain → (∀ v ∈ i.operands, D.Made 0 c v) →
    D.Steps c (emit (Build.appendResult i)) (D.Made (D.time c))
  call : ∀ {c callee args type loc}, D.Calls callee → (∀ v ∈ args, D.Made 0 c v) →
    D.Steps c (emit (Build.call callee args type loc)) (D.MadeIfAny (D.time c))
  newArray : ∀ {c n type loc}, D.Counts n →
    D.Steps c (emit (Build.call "rt_array_new" [.long n] type loc)) (D.MadeIfAny (D.time c))
  element : ∀ {c array n type loc}, D.Counts n → D.Made 0 c array →
    D.Steps c (emit (Build.gep type array [.long n] loc)) (D.Made (D.time c))
  loadGlobal : ∀ {c name type t loc},
    D.Steps c (emit (Build.load type (.global name t) loc)) (D.Made (D.time c))
  setGlobal : ∀ {c name t v loc}, D.Stores name → D.Made 0 c v →
    D.Steps c (emit (Build.store (.global name t) v loc)) fun _ _ => True
  read : ∀ {c k} (p : Place) {x}, D.Reads c x → D.Steps c (read p x) (D.Made k)
  readName : ∀ {c k name type}, D.Knows c name → D.Steps c (readName name type) (D.Made k)
  nameOf : ∀ {c} (p : Place) (x), D.Steps c (nameOf p x) fun c' name => D.Names c' x name
  newIndex : ∀ {c}, D.Steps c newIndex fun _ _ => True

variable {D : Discipline γ}

namespace Runs

theorem bind (hx : D.Runs b' c x Q)
    (hy : ∀ a c', D.Inv c' → D.Le b' c' → Q c' a → D.Runs b c' (y a) R) :
    D.Runs b c (x >>= y) R := by
  unfold Runs at hx ⊢
  rw [bind_apply]
  cases hr : x c.state with
  | error e =>
    rw [hr] at hx
    exact hx
  | ok r =>
    rw [hr] at hx
    obtain ⟨g, hi, hle, hq⟩ := hx
    exact hy r.1 ⟨g, r.2⟩ hi hle hq

theorem pure (hi : D.Inv c) (hb : D.Le b c) (h : Q c a) : D.Runs b c (Pure.pure a) Q :=
  ⟨c.ghost, hi, hb, h⟩

theorem throw (h : D.Fails e) : D.Runs b c (MonadExcept.throw e : Lower α) Q :=
  h

theorem mono (h : D.Runs b c x Q) (hq : ∀ c' a, D.Le b c' → Q c' a → Q' c' a) :
    D.Runs b c x Q' := by
  unfold Runs at h ⊢
  split
  · rename_i hr
    rw [hr] at h
    obtain ⟨g, hi, hle, h⟩ := h
    exact ⟨g, hi, hle, hq _ _ hle h⟩
  · rename_i hr
    rw [hr] at h
    exact h

theorem any (h : D.Runs b c x Q) : D.Runs b c x fun _ _ => True :=
  h.mono fun _ _ _ _ => trivial

end Runs

theorem Steps.mono (h : D.Steps c x Q) (hq : ∀ c' a, Q c' a → Q' c' a) : D.Steps c x Q' :=
  fun c' hi hle => (h c' hi hle).mono fun c'' a _ => hq c'' a

theorem Steps.throw (h : D.Fails e) : D.Steps c (MonadExcept.throw e : Lower α) Q :=
  fun _ _ _ => h

@[simp] theorem madeIfAny_none : D.MadeIfAny k c none := by
  simp [MadeIfAny]

@[simp] theorem madeIfAny_some : D.MadeIfAny k c (some v) ↔ D.Made k c v := by
  simp [MadeIfAny]

namespace Lawful

variable (hD : D.Lawful)
include hD

/-! ### Constants -/

theorem holdsZero (h : Ty.zero? t = some v) : D.Holds v := by
  unfold Ty.zero? at h
  split at h <;> cases h <;> first | exact hD.ints.zero | rfl

theorem madeOne {t : Ty} : D.Made k c t.one := by
  refine hD.literal ?_
  unfold Ty.one
  split
  · rfl
  · exact hD.ints.one

theorem convert (hv : D.Made k c v) (h : Value.convert? t v = some w) : D.Made k c w := by
  refine hD.literal ?_
  unfold Value.convert? at h
  repeat' split at h
  all_goals cases h <;> first | exact hD.int hv | rfl

/-! ### Steps -/

/-- What is kept since a configuration is kept since an earlier one. -/
theorem since (hb : D.Le b c) (h : D.Runs c c x Q) : D.Runs b c x Q := by
  unfold Runs at h ⊢
  split
  · rename_i hr
    rw [hr] at h
    obtain ⟨g, hi, hle, h⟩ := h
    exact ⟨g, hi, hD.trans hb hle, h⟩
  · rename_i hr
    rw [hr] at h
    exact h

theorem run (hi : D.Inv c) (h : D.Steps c x Q) : D.Runs c c x Q :=
  h c hi (hD.refl c)

theorem bindSince {R : Config γ → β → Prop} {y : α → Lower β} (hi : D.Inv c) (hb : D.Le b c)
    (hx : D.Steps c x Q)
    (hy : ∀ a c', D.Inv c' → D.Le c c' → D.Le b c' → Q c' a → D.Runs b c' (y a) R) :
    D.Runs b c (x >>= y) R :=
  (hD.run hi hx).bind fun a c' hi hle hq => hy a c' hi hle (hD.trans hb hle) hq

theorem after (hle : D.Le c c') (h : D.Steps c x Q) : D.Steps c' x Q :=
  fun c'' hi hle' => h c'' hi (hD.trans hle hle')

theorem seq {y : α → Lower β} (hx : D.Steps c x Q)
    (hy : ∀ a c', D.Le c c' → Q c' a → D.Steps c' (y a) R) : D.Steps c (x >>= y) R :=
  fun c' hi hle => (hx c' hi hle).bind fun a c'' hi hle' hq =>
    hD.since hle' (hD.run hi (hy a c'' (hD.trans hle hle') hq))

/-- The first value is kept while the second one is made. -/
theorem both {y : Lower α} {z : Value → α → Lower β} (hx : D.Steps c x (D.Made k))
    (hy : D.Steps c y Q)
    (hz : ∀ l r c', D.Le c c' → D.Made k c' l → Q c' r → D.Steps c' (z l r) R) :
    D.Steps c (do let l ← x; let r ← y; z l r) R :=
  hD.seq hx fun l _ hle₁ hl => hD.seq (hD.after hle₁ hy) fun r c₂ hle₂ hr =>
    hz l r c₂ (hD.trans hle₁ hle₂) (hD.keep hle₂ hl) hr

theorem get {y : LowerState → Lower α}
    (h : ∀ c', D.Inv c' → D.Le c c' → D.Steps c' (y c'.state) R) :
    D.Steps c (MonadState.get >>= y) R :=
  fun c' hi hle => show D.Runs c' c' (y c'.state) R from hD.run hi (h c' hi hle)

theorem done (h : ∀ c', D.Le c c' → Q c' a) : D.Steps c (pure a) Q :=
  fun c' hi hle => .pure hi (hD.refl c') (h c' hle)

theorem skip : D.Steps c (pure a) fun _ _ => True :=
  hD.done fun _ _ => trivial

theorem made (hv : D.Made k c v) : D.Steps c (pure v) (D.Made k) :=
  hD.done fun _ hle => hD.keep hle hv

theorem madeSome (hv : D.Made k c v) : D.Steps c (pure (some v)) (D.MadeIfAny k) :=
  hD.done fun _ hle => madeIfAny_some.mpr (hD.keep hle hv)

theorem anyValue (hv : D.Made k c v) : D.Made 0 c v :=
  hD.weaken (Nat.zero_le _) hv

theorem result (hk : k ≤ D.time c) (h : D.Steps c x (D.Made (D.time c))) :
    D.Steps c x (D.Made k) :=
  h.mono fun _ _ hv => hD.weaken hk hv

theorem stops (he : e.IsGap) : D.Steps c (throw e : Lower α) Q :=
  .throw (hD.gaps e he)

theorem needed (h : D.MadeIfAny k c v) (he : e.IsGap) :
    D.Steps c (needed e v) (D.Made k) := by
  cases v with
  | none => exact hD.stops he
  | some v => exact hD.made (h v rfl)

/-! ### Instructions -/

theorem binary (hop : op.isPlain = true) (hl : D.Made 0 c l) (hr : D.Made 0 c r)
    (hk : k ≤ D.time c) :
    D.Steps c (emit (Build.binary op type l r loc)) (D.Made k) :=
  hD.result hk (hD.appendResult ⟨by simp [IL.Instr.isPlain, hop], rfl, rfl⟩ (by simp [hl, hr]))

theorem compare (hop : op.isCompare = true) (hl : D.Made 0 c l) (hr : D.Made 0 c r)
    (hk : k ≤ D.time c) :
    D.Steps c (emit (Build.compare op l r loc)) (D.Made k) := by
  rw [Build.compare, if_pos hop]
  refine hD.binary ?_ hl hr hk
  cases op <;> first | rfl | cases hop

theorem unaryResult (hv : D.Made 0 c v) (hk : k ≤ D.time c) (hplain : i.IsPlain)
    (ho : i.operands = [v]) :
    D.Steps c (emit (Build.appendResult i)) (D.Made k) :=
  hD.result hk (hD.appendResult hplain (by simp [ho, hv]))

/-! ### Steps on values -/

theorem runtime {args : List Value} (hname : name ∈ Lower.runtimeCalls)
    (hargs : ∀ v ∈ args, D.Made 0 c v) :
    D.Steps c (runtime name args type loc) (D.Made (D.time c)) :=
  hD.seq (hD.call (hD.runtimeCalls name hname) hargs) fun _ _ _ hv => hD.needed hv trivial

theorem runtimeArray (hn : D.Counts n) :
    D.Steps c (Lower.runtime "rt_array_new" [.long n] type loc) (D.Made (D.time c)) :=
  hD.seq (hD.newArray hn) fun _ _ _ hv => hD.needed hv trivial

theorem zero : D.Steps c (zero type) (D.Made k) :=
  hD.needed (fun _ h => hD.literal (hD.holdsZero h)) trivial

theorem coerce (hv : D.Made k c v) (hk : k ≤ D.time c) :
    D.Steps c (coerce v type loc) (D.Made k) := by
  unfold Lower.coerce
  split
  · exact hD.made hv
  · split
    · exact hD.made (hD.convert hv ‹_›)
    · exact hD.unaryResult (hD.anyValue hv) hk ⟨rfl, rfl, rfl⟩ rfl

theorem toBoolean (hv : D.Made 0 c v) : D.Steps c (toBoolean v loc) (D.Made 0) := by
  unfold Lower.toBoolean
  split
  · exact hD.made hv
  · exact hD.seq (hD.zero (k := 0)) fun z c' hle hz =>
      hD.compare rfl (hD.keep hle hv) hz (Nat.zero_le _)

theorem toText (hv : D.Made k c v) (hk : k ≤ D.time c) :
    D.Steps c (toText v loc) (D.Made k) := by
  unfold Lower.toText
  split
  · exact hD.made hv
  · exact hD.result hk (hD.runtime (by simp [Lower.runtimeCalls]) (by simpa using hD.anyValue hv))

theorem arith (hop : op.opcode.isPlain = true) (hl : D.Made 0 c l) (hr : D.Made 0 c r) :
    D.Steps c (arith op l r type loc) (D.Made (D.time c)) := by
  unfold Lower.arith
  split
  · exact hD.both (hD.toText hl (Nat.zero_le _)) (hD.toText hr (Nat.zero_le _))
      fun _ _ _ hle hl hr => hD.binary rfl hl hr (hD.temps hle)
  · exact hD.both (hD.coerce hl (Nat.zero_le _)) (hD.coerce hr (Nat.zero_le _))
      fun _ _ _ hle hl hr => hD.binary hop hl hr (hD.temps hle)

theorem unify (hl : D.Made 0 c l) (hr : D.Made 0 c r) :
    D.Steps c (unify p li ri l r) fun c' (l, r) => D.Made 0 c' l ∧ D.Made 0 c' r := by
  have hpair {l r c'} (hl : D.Made 0 c' l) (hr : D.Made 0 c' r) :
      D.Steps c' (pure (l, r)) fun c' (l, r) => D.Made 0 c' l ∧ D.Made 0 c' r :=
    hD.done fun _ hle => ⟨hD.keep hle hl, hD.keep hle hr⟩
  unfold Lower.unify
  split
  · exact hpair hl hr
  · split
    · exact hpair (hD.literal rfl) hr
    · split
      · exact hpair hl (hD.literal rfl)
      · exact hD.both (hD.coerce hl (Nat.zero_le _)) (hD.coerce hr (Nat.zero_le _))
          fun _ _ _ _ => hpair

theorem binaryOp (hl : D.Made 0 c l) (hr : D.Made 0 c r) :
    D.Steps c (Lower.binary p i op li ri l r) (D.Made (D.time c)) := by
  unfold Lower.binary
  split
  · rename_i hop
    exact hD.seq (hD.unify hl hr) fun (l, r) c₁ hle ⟨hl, hr⟩ =>
      hD.compare hop hl hr (hD.temps hle)
  · refine hD.arith ?_ hl hr
    cases op <;> rfl

theorem unaryOp (hk : k ≤ D.time c) (hv : D.Made k c v) :
    D.Steps c (Lower.unary p i op v) (D.Made k) := by
  have hv₀ := hD.anyValue hv
  unfold Lower.unary
  split
  · exact hD.made (hD.literal (hD.ints.neg _ (hD.int hv)))
  · exact hD.made (hD.literal rfl)
  · exact hD.seq (hD.coerce hv₀ (Nat.zero_le _)) fun v c₁ hle hv =>
      hD.unaryResult hv (Nat.le_trans hk (hD.temps hle)) ⟨rfl, rfl, rfl⟩ rfl
  · exact hD.made (hD.literal rfl)
  · exact hD.unaryResult hv₀ hk ⟨rfl, rfl, rfl⟩ rfl
  · exact hD.unaryResult hv₀ hk ⟨rfl, rfl, rfl⟩ rfl
  · exact hD.made hv

theorem cast (hk : k ≤ D.time c) (hv : D.Made k c v) :
    D.Steps c (Lower.cast p i v) (D.Made k) := by
  unfold Lower.cast
  dsimp only
  split
  · exact hD.unaryResult (hD.anyValue hv) hk ⟨rfl, rfl, rfl⟩ rfl
  · exact hD.coerce hv hk

theorem joined (hk : k ≤ D.time c) (hb : D.MadeIfAny k c before) (hv : D.Made k c v) :
    D.Steps c (joined before v loc) (D.Made k) := by
  unfold Lower.joined
  split
  · exact hD.made hv
  · exact hD.binary rfl (hD.anyValue (hb _ rfl)) (hD.anyValue hv) hk

theorem argument (hv : D.Made 0 c v) : D.Steps c (argument p param v loc) (D.Made 0) := by
  unfold Lower.argument
  split
  · exact hD.made hv
  · dsimp only
    split
    · exact hD.made hv
    · exact hD.coerce hv (Nat.zero_le _)

theorem storeField (ho : D.Made 0 c object) (hv : D.Made 0 c v) :
    D.Steps c (storeField p object x v loc) fun _ _ => True :=
  hD.seq (hD.coerce hv (Nat.zero_le _)) fun v c₁ hle hv =>
    hD.append ⟨rfl, rfl, rfl⟩ (by simp [hD.keep hle ho, hv])

theorem storeGlobal (hname : D.Stores name) (hv : D.Made 0 c v) :
    D.Steps c (storeGlobal p name x v loc) fun _ _ => True :=
  hD.seq (hD.coerce hv (Nat.zero_le _)) fun _ _ _ hv => hD.setGlobal hname hv

theorem callProcedure (hcalls : ∀ x name, p.function? x = some name → D.Calls name)
    (hself : D.MadeIfAny 0 c self) (hargs : ∀ v ∈ args, D.Made 0 c v) :
    D.Steps c (callProcedure p site x self args) (D.MadeIfAny (D.time c)) := by
  unfold Lower.callProcedure
  split
  · exact hD.stops trivial
  · refine hD.call (hcalls _ _ ‹_›) fun v hv => ?_
    rcases List.mem_append.mp hv with hv | hv
    · exact hself v (Option.mem_toList.mp hv)
    · exact hargs v hv

/-- A new version of a variable of the procedure. The value was made after `b`. -/
theorem bind (hbinds : D.Binds) (hib : D.Inv b) (hi : D.Inv c) (hb : D.Le b c)
    (hv : D.Made (D.time b) c v) :
    D.Runs b c (Lower.bind p x v loc) fun c' _ => D.Reads c' x := by
  refine hD.bindSince hi hb (hD.coerce hv (hD.temps hb)) fun v c₁ hi _ hb hv => ?_
  refine hD.bindSince hi hb (hD.nameOf p x) fun name c₂ hi hle hb hname => ?_
  exact (hbinds b c₂ name _ v loc hib hi hb (hD.keep hle hv)).mono fun _ _ _ h => h.2 x hname

end Lawful

end Discipline

end Lower

end BasicSSA
