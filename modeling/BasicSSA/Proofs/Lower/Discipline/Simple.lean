import BasicSSA.Lower.Stmt
import BasicSSA.Proofs.Lower.Discipline.Expr

/-!
# Disciplined code of simple statements

Statements that stay in their block keep every lawful discipline that lets variables get new
versions, and so do the parts of the other statements that stay in one block.
-/

namespace BasicSSA.Lower.Discipline

open IL (Value Ty Build)

variable {D : Discipline γ} {p : Place}

/-- Code may be added, and may use the objects at hand. `Me` is no temporary. -/
structure Settled (D : Discipline γ) (p : Place) (c : Config γ) : Prop where
  inv : D.Inv c
  calls : ∀ x name, p.function? x = some name → D.Calls name
  me : ∀ v, p.me = some v → ∀ k, D.Made k c v
  withValues : ∀ v ∈ p.withValues, D.Made 0 c v

theorem Settled.stands (h : D.Settled p c) (hk : k ≤ D.time c) : D.Stands k p c :=
  ⟨hk, h.calls, fun v hv => h.me v hv k, h.withValues⟩

/-- The nodes of an expression ask only for what is there. -/
def AllFine (D : Discipline γ) (c : Config γ) (p : Place) (e : Expr Note) : Prop :=
  ∀ n ∈ e.nodes, D.Fine c p n

/-- The start of a `For Each` loop makes a new variable for its index. -/
theorem eachStart_eq : Lower.eachStart p loc x e = do
    Lower.declare p x
    let collection ← Lower.expr p e
    let length ← Lower.runtime "rt_array_len" [collection] .long loc
    let index ← newIndex
    Lower.bindName index .long (.int 0 .long) loc
    return { collection, length, index : Elements } := by
  simp only [Lower.eachStart, newIndex, bind_assoc, pure_bind]

namespace Lawful

variable (hD : D.Lawful)
include hD

theorem settledLater (hp : D.Settled p c) (hi : D.Inv c') (hle : D.Le c c') : D.Settled p c' where
  inv := hi
  calls := hp.calls
  me v hv k := hD.keep hle (hp.me v hv k)
  withValues v hv := hD.keep hle (hp.withValues v hv)

section

variable (hbinds : D.Binds) (hfields : D.FieldsFine p.toEnv)

/-! ### Declarations and assignments -/

theorem freshValue (hcount : 0 < elementCount d.dims → D.Counts (elementCount d.dims)) :
    D.Steps c (Lower.freshValue p d x) (D.Made (D.time c)) := by
  unfold Lower.freshValue
  dsimp only
  split
  · split
    · exact hD.appendResult ⟨rfl, rfl, rfl⟩ (by simp)
    · exact hD.appendResult ⟨rfl, rfl, rfl⟩ (by simp)
    · exact hD.zero
  · split
    · exact hD.runtimeArray (hcount ‹_›)
    · exact hD.made (hD.literal rfl)

include hbinds

theorem assigned (hi : D.Inv c) (hvalue : D.Steps c value (D.Made (D.time c))) :
    D.Runs c c (do Lower.bind p x (← value) loc) fun c' _ => D.Reads c' x :=
  hD.bindSince hi (hD.refl c) hvalue fun _ _ hi' _ hb hv => hD.bind hbinds hi hi' hb hv

omit hbinds in
theorem declared {rest : Lower α} {R : Config γ → α → Prop} (hdeclares : D.Declares)
    (hp : D.Settled p c) (h : ∀ c', D.Settled p c' → D.Le c c' → D.Runs c' c' rest R) :
    D.Runs c c (do Lower.declare p x; rest) R :=
  hD.bindSince hp.inv (hD.refl c) (hdeclares c p x) fun _ c' hi hle hb _ =>
    hD.since hb (h c' (hD.settledLater hp hi hle) hle)

include hfields

theorem varValue {d : VarDecl Note} (hp : D.Settled p c)
    (hcount : 0 < elementCount d.dims → D.Counts (elementCount d.dims))
    (h : ∀ e, d.init = some e → D.AllFine c p e) :
    D.Runs c c (do
      let v ← match d.init with
        | some e => Lower.expr p e
        | none => Lower.freshValue p d x
      Lower.bind p x v loc) fun c' _ => D.Reads c' x := by
  split
  · exact hD.assigned hbinds hp.inv (hD.expr hfields (hp.stands (Nat.le_refl _)) (h _ ‹_›))
  · exact hD.assigned hbinds hp.inv (hD.freshValue hcount)

theorem varDecl (hdeclares : D.Declares) (hp : D.Settled p c) (hx : d.info.symbol = some x)
    (hcount : 0 < elementCount d.dims → D.Counts (elementCount d.dims))
    (h : ∀ e, d.init = some e → D.AllFine c p e) :
    D.Runs c c (varDecl p d) fun c' _ => D.Reads c' x := by
  unfold Lower.varDecl
  rw [hx]
  exact hD.declared hdeclares hp fun c' hp' hle =>
    hD.varValue hbinds hfields hp' hcount fun e he => hD.keepAllFine (h e he) hle

theorem constDecl (hdeclares : D.Declares) (hp : D.Settled p c) (hx : d.info.symbol = some x)
    (hvalue : d.value = some e) (h : D.AllFine c p e) :
    D.Runs c c (constDecl p d) fun c' _ => D.Reads c' x := by
  unfold Lower.constDecl
  rw [hx, hvalue]
  exact hD.declared hdeclares hp fun c' hp' hle => hD.assigned hbinds hp'.inv
    (hD.expr hfields (hp'.stands (Nat.le_refl _)) (hD.keepAllFine h hle))

theorem assignStmt (hp : D.Settled p c) (hw : D.Writes p.toEnv target)
    (ht : D.AllFine c p target) (h : D.AllFine c p e) :
    D.Runs c c (assignStmt p loc target op e) fun _ _ => True := by
  have hp₀ := hp.stands (Nat.zero_le _)
  unfold Lower.assignStmt
  refine hD.bindSince hp.inv (hD.refl c) (hD.expr hfields (hp.stands (Nat.le_refl _)) h)
    fun v c₁ hi hle₁ _ hv => ?_
  dsimp only
  split
  · exact hD.assign hfields hp.inv hle₁ hi (hD.later hp₀ hle₁) hv (fun _ => hbinds) hw
      (hD.keepAllFine ht hle₁)
  · rename_i op' hop
    have hplain : op'.opcode.isPlain = true := by
      unfold compoundOp? at hop
      split at hop <;> cases hop <;> first | rfl | (split <;> rfl)
    refine hD.bindSince hi hle₁ (hD.after hle₁ (hD.expr hfields hp₀ ht))
      fun current c₂ hi hle₂ hb₂ hc => ?_
    refine hD.bindSince hi hb₂ (hD.arith hplain hc (hD.keep hle₂ (hD.anyValue hv)))
      fun v c₃ hi _ hb₃ hv => ?_
    exact hD.assign hfields hp.inv hb₃ hi (hD.later hp₀ hb₃) (hD.weaken (hD.temps hb₂) hv)
      (fun _ => hbinds) hw (hD.keepAllFine ht hb₃)

omit hbinds in
theorem throwStmt (hp : D.Settled p c) (h : ∀ e, value = some e → D.AllFine c p e) :
    D.Runs c c (throwStmt p loc value) fun _ _ => True := by
  have hcall {c' : Config γ} {args : List Value} (hargs : ∀ v ∈ args, D.Made 0 c' v) :
      D.Steps c' (do let _ ← emit (Build.call "__throw" args {} loc)) fun _ _ => True :=
    hD.seq (hD.call (hD.runtimeCalls _ (by simp [Lower.runtimeCalls])) hargs) fun _ _ _ _ => hD.skip
  unfold Lower.throwStmt
  refine hD.run hp.inv ?_
  split
  · exact hD.seq (hD.expr hfields (hp.stands (Nat.zero_le _)) (h _ rfl)) fun v _ _ hv =>
      hcall (by simpa using hv)
  · exact hcall (by simp)

omit hfields in
theorem catchVar (hdeclares : D.Declares) (hp : D.Settled p c) :
    D.Runs c c (catchVar p i) fun c' _ => ∀ x, i.symbol = some x → D.Reads c' x := by
  unfold Lower.catchVar
  split
  · exact .pure hp.inv (hD.refl c) (by simp [*])
  · refine (hD.declared hdeclares hp fun c' hp' _ => hD.assigned hbinds hp'.inv
      hD.zero).mono fun _ _ _ hr => ?_
    simp_all

/-! ### Loops -/

omit hbinds hfields in
/-- The variable of a `For` loop belongs to the module, or may be read. -/
theorem readCounter (h : p.globals.lookup x = none → D.Reads c x) :
    D.Steps c (Lower.readCounter p loc x) (D.Made 0) := by
  unfold Lower.readCounter
  split
  · exact hD.result (Nat.zero_le _) hD.loadGlobal
  · exact hD.read p (h ‹_›)

omit hfields in
theorem writeCounter (hw : p.MayWrite D.Stores x) (hib : D.Inv b) (hi : D.Inv c) (hb : D.Le b c)
    (hv : D.Made (D.time b) c v) :
    D.Runs b c (Lower.writeCounter p loc x v)
      fun c' _ => p.globals.lookup x = none → D.Reads c' x := by
  unfold Lower.writeCounter
  split
  · exact (hD.since hb (hD.run hi (hD.storeGlobal (hw _ ‹_›) (hD.anyValue hv)))).mono
      fun _ _ _ _ => by simp [*]
  · exact (hD.bind hbinds hib hi hb hv).mono fun _ _ _ h _ => h

omit hbinds hfields in
theorem declareCounter (hdeclares : D.Declares) :
    D.Steps c (Lower.declareCounter p x) fun _ _ => True := by
  refine hD.get fun c' _ _ => ?_
  dsimp only
  split
  · exact hdeclares c' p x
  · exact hD.skip

theorem forBounds (hp : D.Settled p c) (hw : p.MayWrite D.Stores x) (ha : D.AllFine c p a)
    (hz : D.AllFine c p z) (hs : ∀ e, s = some e → D.AllFine c p e) :
    D.Runs c c (do
      Lower.writeCounter p loc x (← Lower.expr p a)
      let last ← Lower.coerce (← Lower.expr p z) type z.info.loc
      let step ← match s with
        | some e => Lower.coerce (← Lower.expr p e) type e.info.loc
        | none => pure type.one
      return (last, step)) fun c' (last, step) =>
      D.Made 0 c' last ∧ D.Made 0 c' step ∧ (p.globals.lookup x = none → D.Reads c' x) := by
  have hp₀ := hp.stands (Nat.zero_le _)
  refine hD.bindSince hp.inv (hD.refl c) (hD.expr hfields (hp.stands (Nat.le_refl _)) ha)
    fun v c₂ hi _ hb hv => ?_
  refine (hD.writeCounter hbinds hw hp.inv hi hb hv).bind fun _ c₃ hi hb₃ hr => ?_
  refine hD.since hb₃ (hD.run hi ?_)
  refine hD.seq (hD.after hb₃ (hD.expr hfields hp₀ hz)) fun v c₄ hle₄ hv => ?_
  refine hD.seq (hD.coerce hv (Nat.zero_le _)) fun last c₅ hle₅ hl => ?_
  have hle := hD.trans hle₄ hle₅
  have hdone {c' : Config γ} {step : Value} (h : D.Le c₅ c') (hs : D.Made 0 c' step) :
      D.Steps c' (pure (last, step)) fun c' (last, step) =>
        D.Made 0 c' last ∧ D.Made 0 c' step ∧ (p.globals.lookup x = none → D.Reads c' x) :=
    hD.done fun _ h' => ⟨hD.keep (hD.trans h h') hl, hD.keep h' hs,
      fun hx => hD.keepReads (hD.trans hle (hD.trans h h')) (hr hx)⟩
  split
  · refine hD.seq (hD.after (hD.trans hb₃ hle) (hD.expr hfields hp₀ (hs _ rfl)))
      fun v c₆ hle₆ hv => ?_
    exact hD.seq (hD.coerce hv (Nat.zero_le _)) fun step c₇ hle₇ hv =>
      hdone (hD.trans hle₆ hle₇) hv
  · exact hdone (hD.refl c₅) hD.madeOne

omit hbinds hfields in
theorem forTest (hi : D.Inv c) (hl : D.Made 0 c last)
    (h : p.globals.lookup x = none → D.Reads c x) :
    D.Runs c c (Lower.forTest p loc x last step) (D.Made 0) := by
  refine hD.run hi (hD.seq (hD.readCounter h) fun v c₁ hle hv => ?_)
  split
  · exact hD.compare rfl hv (hD.keep hle hl) (Nat.zero_le _)
  · exact hD.compare rfl hv (hD.keep hle hl) (Nat.zero_le _)

omit hfields in
theorem forNext (hw : p.MayWrite D.Stores x) (hi : D.Inv c) (hs : D.Made 0 c step)
    (h : p.globals.lookup x = none → D.Reads c x) :
    D.Runs c c (Lower.forNext p loc x step) fun _ _ => True := by
  refine hD.bindSince hi (hD.refl c) (hD.readCounter h) fun v c₁ hi₁ hle₁ _ hv => ?_
  refine hD.bindSince hi₁ hle₁ (hD.binary rfl hv (hD.keep hle₁ hs) (hD.temps hle₁))
    fun next c₂ hi₂ _ hb hv => ?_
  exact (hD.writeCounter hbinds hw hi hi₂ hb hv).mono fun _ _ _ _ => trivial

theorem forStart (hdeclares : D.Declares) (hp : D.Settled p c) (hw : p.MayWrite D.Stores x)
    (ha : D.AllFine c p a) (hz : D.AllFine c p z) (hs : ∀ e, s = some e → D.AllFine c p e) :
    D.Runs c c (Lower.forStart p loc x a z s) fun c' (last, step) =>
      D.Made 0 c' last ∧ D.Made 0 c' step ∧ (p.globals.lookup x = none → D.Reads c' x) :=
  hD.bindSince hp.inv (hD.refl c) (hD.declareCounter hdeclares) fun _ _ hi hle hb _ =>
    hD.since hb (hD.forBounds hbinds hfields (hD.settledLater hp hi hle) hw (hD.keepAllFine ha hle)
      (hD.keepAllFine hz hle) fun e he => hD.keepAllFine (hs e he) hle)

/-- What a `For Each` loop goes over, once its variable is declared. -/
theorem eachBounds (hp : D.Settled p c) (he : D.AllFine c p e) :
    D.Runs c c (do
      let collection ← Lower.expr p e
      let length ← Lower.runtime "rt_array_len" [collection] .long loc
      let index ← Lower.newIndex
      Lower.bindName index .long (.int 0 .long) loc
      return { collection, length, index : Elements }) fun c' es =>
      D.Made 0 c' es.collection ∧ D.Made 0 c' es.length ∧ D.Knows c' es.index := by
  refine hD.bindSince hp.inv (hD.refl c) (hD.expr hfields (hp.stands (Nat.zero_le _)) he)
    fun v c₂ hi hle₂ hb hv => ?_
  refine hD.bindSince hi hb (hD.runtime (by simp [Lower.runtimeCalls]) (by simpa using hv))
    fun n c₃ hi hle₃ hb hn => ?_
  refine hD.bindSince hi hb hD.newIndex fun index c₄ hi hle₄ hb _ => ?_
  refine (hbinds c₄ c₄ index .long (.int 0 .long) loc hi hi (hD.refl _)
    (hD.literal hD.ints.zero)).bind
    fun _ c₅ hi hle₅ hk => ?_
  have hle := hD.trans hle₄ hle₅
  exact .pure hi (hD.trans hb hle₅)
    ⟨hD.keep hle (hD.keep hle₃ hv), hD.keep hle (hD.anyValue hn), hk.1⟩

theorem eachStart (hdeclares : D.Declares) (hp : D.Settled p c) (he : D.AllFine c p e) :
    D.Runs c c (Lower.eachStart p loc x e) fun c' es =>
      D.Made 0 c' es.collection ∧ D.Made 0 c' es.length ∧ D.Knows c' es.index := by
  rw [eachStart_eq]
  exact hD.declared hdeclares hp fun _ hp' hle =>
    hD.eachBounds hbinds hfields hp' (hD.keepAllFine he hle)

omit hbinds hfields in
theorem eachTest (hi : D.Inv c) (hn : D.Made 0 c es.length) (hk : D.Knows c es.index) :
    D.Runs c c (Lower.eachTest loc es) (D.Made 0) :=
  hD.run hi <| hD.seq (hD.readName hk) fun _ _ hle hv =>
    hD.compare rfl hv (hD.keep hle hn) (Nat.zero_le _)

omit hfields in
theorem eachElement (hi : D.Inv c) (hc : D.Made 0 c es.collection) (hk : D.Knows c es.index) :
    D.Runs c c (Lower.eachElement p loc x es) fun c' _ => D.Reads c' x := by
  refine hD.bindSince hi (hD.refl c) (hD.readName (k := 0) hk) fun i c₁ hi₁ hle₁ _ hv => ?_
  refine hD.bindSince hi₁ hle₁ (hD.appendResult ⟨rfl, rfl, rfl⟩
    (by simpa using ⟨hD.keep hle₁ hc, hv⟩)) fun a c₂ hi₂ _ hb₂ ha => ?_
  refine hD.bindSince hi₂ hb₂ (hD.unaryResult (hD.anyValue ha) (hD.temps hb₂)
    ⟨rfl, rfl, rfl⟩ rfl)
    fun v c₃ hi₃ _ hb hv => ?_
  exact hD.bind hbinds hi hi₃ hb hv

omit hfields in
theorem eachNext (hi : D.Inv c) (hk : D.Knows c es.index) :
    D.Runs c c (Lower.eachNext loc es) fun _ _ => True := by
  refine hD.bindSince hi (hD.refl c) (hD.readName (k := 0) hk) fun i c₁ hi₁ hle₁ _ hv => ?_
  refine hD.bindSince hi₁ hle₁ (hD.binary rfl hv (hD.literal hD.ints.one) (hD.temps hle₁))
    fun v c₂ hi₂ _ hb hv => ?_
  exact (hbinds c c₂ _ _ v loc hi hi₂ hb hv).mono fun _ _ _ _ => trivial

/-! ### Tests -/

omit hbinds in
theorem condition (hp : D.Settled p c) (he : D.AllFine c p e) :
    D.Runs c c (Lower.condition p e loc) (D.Made 0) :=
  hD.run hp.inv <| hD.seq (hD.expr hfields (hp.stands (Nat.zero_le _)) he)
    fun _ _ _ hv => hD.toBoolean hv

omit hbinds in
theorem caseTest (hp : D.Settled p c) (hs : D.Made 0 c subject) (he : D.AllFine c p e) :
    D.Runs c c (Lower.caseTest p subject e) (D.Made 0) := by
  refine hD.run hp.inv ?_
  refine hD.seq (hD.expr hfields (hp.stands (Nat.zero_le _)) he) fun _ c₁ hle₁ hv => ?_
  refine hD.seq (hD.coerce hv (Nat.zero_le _)) fun v c₂ hle₂ hv => ?_
  exact hD.compare rfl (hD.keep (hD.trans hle₁ hle₂) hs) hv (Nat.zero_le _)

end

end Lawful

end BasicSSA.Lower.Discipline
