import BasicSSA.Proofs.Lower.Discipline.Simple

/-!
# Code that keeps to a policy

Expressions and simple statements lower to straight code. What this code names comes from the tables
of the program and from the nodes of the syntax tree, so it keeps to a policy if these do: to add
only such code is a lawful discipline.
-/

namespace BasicSSA.Lower

open IL (Value Ty Opcode Instr Function Module Build)

/-! ### Policies for places -/

/-- What a node itself does is permitted. -/
def Env.Permits (env : Env) (π : Policy) : Node Note → Prop
  | .expr (.unary _ op e) =>
    (stepOp? op).isSome → ∀ x, e.target? = some x → env.MayWrite π.stores x
  | .expr (.addressOf _ e) =>
    ∀ x name, e.info.symbol = some x → env.function? x = some name → π.addresses name
  | .expr (.literal _ l) => ∀ n, l.number? = some n → π.ints n
  | .expr (.collection _ es) => ∀ k ≤ es.length, π.counts (.ofNat k)
  | .stmt (.var d) => 0 < elementCount d.dims → π.counts (elementCount d.dims)
  | .stmt (.assign _ t _ _) => ∀ x, t.target? = some x → env.MayWrite π.stores x
  | .stmt (.forLoop i _ _ _ _ _) => ∀ x, i.symbol = some x → env.MayWrite π.stores x
  | .stmt (.return_ _ (some _)) => π.returns none → ∀ k, π.returns (some k)
  | _ => True

/-- The same of some nodes. -/
abbrev Env.PermitsAll (env : Env) (π : Policy) (ns : List (Node Note)) : Prop :=
  ∀ n ∈ ns, env.Permits π n

/-- The tables of a program keep to a policy. -/
structure Env.Obeys (π : Policy) (m : Module) (env : Env) : Prop where
  known : ∀ name v, (m.global? name).bind IL.Global.known? = some v → π.Fits v
  functions : ∀ x name, env.function? x = some name → π.calls name
  runtime : ∀ name ∈ runtimeCalls, π.calls name
  addresses : ∀ name, π.addresses name → π.stores name
  ints : ClosedInts π.ints
  fields : ∀ t ds, env.classes.lookup t = some ds → ∀ d ∈ ds, ∀ e, d.init = some e →
    env.PermitsAll π e.nodes

/-- The objects at hand are no forbidden addresses either, and the procedure may return. -/
structure Place.Obeys (π : Policy) (m : Module) (p : Place) : Prop where
  env : p.toEnv.Obeys π m
  me : ∀ v, p.me = some v → π.Fits v
  withValues : ∀ v ∈ p.withValues, π.Fits v
  returns : π.returns p.returnType.returned?

variable {π : Policy} {p : Place}

/-! ### The discipline of straight code -/

/-- Where straight code began: the names and the function then, and the block. -/
structure Origin where
  names : Names
  function : Function
  block : Nat

/-- Code is only added to the end of one block of a function, keeps to a policy and declares
nothing. Where it began is kept. -/
def straight (π : Policy) (m : Module) : Discipline Origin where
  Inv c := ∃ f code, At c.state m f c.ghost.block ∧
    c.ghost.function.Grows π c.ghost.block code f ∧
    KeepsApart [] c.ghost.names c.ghost.function c.state.names f
  Le b c := b.ghost = c.ghost
  time _ := 0
  Made _ _ v := π.Fits v
  Reads _ _ := True
  Names _ _ _ := True
  Knows _ _ := True
  Calls := π.calls
  Stores := π.stores
  Ints := π.ints
  Counts := π.counts
  Fails _ := True

theorem Straight.runs (h : Straight π m [] x Q)
    (hi : (straight π m).Inv c) (hb : b.ghost = c.ghost) :
    (straight π m).Runs b c x fun _ => Q := by
  obtain ⟨f, code, hs, hg, hk⟩ := hi
  unfold Discipline.Runs
  split
  · rename_i hx
    obtain ⟨f', code', hs', hg', hk', hq⟩ := h _ f _ _ _ hs hx
    exact ⟨c.ghost, ⟨f', code ++ code', hs', hg.trans hg', hk.trans hk'⟩, hb, hq⟩
  · trivial

theorem Straight.steps (h : Straight π m [] x Q) : (straight π m).Steps c x fun _ => Q :=
  fun _ hi _ => h.runs hi rfl

theorem Policy.fits_of_holds (h : (straight π m).Holds v) : π.Fits v := by
  cases v <;> first | exact h | trivial

/-- A plain instruction that stores only where a value leads to is allowed. -/
theorem Policy.allows_of_isPlain {i : Instr} (h : i.isPlain = true)
    (haddress : ∀ name, π.addresses name → π.stores name) (hv : ∀ v ∈ i.operands, π.Fits v)
    (r : Option Value) : π.Allows { i with result := r } := by
  obtain ⟨hop, harity⟩ := Bool.and_eq_true_iff.mp h
  refine ⟨Policy.bears_of_fits hv, ?_⟩
  split
  case h_2 hstore =>
    have hlen : i.operands.length = 2 := by
      simpa [show i.op = .store from hstore] using harity
    match ho : i.operands, hlen with
    | [a, b], _ =>
      refine ⟨a, b, rfl, ?_⟩
      rintro name type rfl
      exact haddress name (hv (.global name type) (by simp [ho]))
  case h_9 =>
    intro hbinary
    simpa [Bool.or_assoc, show (i.op.isBinary || i.op.isCompare) = true from hbinary] using harity
  all_goals simp_all [Opcode.isPlain, Opcode.isTerminator]

theorem bindName_straight (hv : π.Fits v) :
    Straight π m [] (bindName name type v loc) fun _ => True := by
  unfold bindName
  refine (Straight.naming fun _ => .alike rfl rfl).bind fun _ _ => Straight.renameResult.bind fun b _ => ?_
  split
  · exact .assign hv
  · exact .pure trivial

theorem readName_straight : Straight π m [] (readName name type) π.Fits :=
  Straight.get.bind fun _ _ => .pure trivial

theorem straight_binds : (straight π m).Binds := by
  intro b c name type v loc _ hi hle hv
  exact ((bindName_straight hv).runs hi hle).mono fun _ _ _ _ => ⟨trivial, fun _ _ => trivial⟩

theorem Place.Obeys.lawful (h : p.Obeys π m) : (straight π m).Lawful where
  refl _ := rfl
  trans := Eq.trans
  temps _ := Nat.le_refl _
  keep _ hv := hv
  weaken _ hv := hv
  keepReads _ _ := trivial
  keepKnows _ _ := trivial
  literal := Policy.fits_of_holds
  ints := h.env.ints
  int hv := hv
  known := by
    rintro k c name v ⟨f, code, hs, -, -⟩ hv
    rw [hs.finished] at hv
    exact h.env.known name v hv
  gaps _ _ := trivial
  runtimeCalls := h.env.runtime
  append hplain hv :=
    (Straight.append (Policy.allows_of_isPlain hplain.op h.env.addresses hv _)).steps
  appendResult hplain hv :=
    (Straight.appendResult fun _ =>
      Policy.allows_of_isPlain hplain.op h.env.addresses hv _).steps
  call hcall hv := (Straight.call hcall (Policy.bears_of_fits hv)).steps
  newArray hn := (Straight.call (h.env.runtime _ (by simp [runtimeCalls])) fun _ _ hk =>
    .inl ⟨_, .inl ⟨rfl, rfl, rfl⟩, hn, List.mem_singleton.mp hk⟩).steps
  element hn ha := (Straight.appendResult fun _ => ⟨fun _ _ hk => by
    rcases List.mem_cons.mp hk with rfl | hk
    · exact .inr ha
    · exact .inl ⟨_, .inr ⟨rfl, _, rfl⟩, hn, List.mem_singleton.mp hk⟩, fun h => by cases h⟩).steps
  loadGlobal := Straight.loadGlobal.steps
  setGlobal hname hv := (Straight.storeGlobal hname hv).steps
  read _ _ _ := (Straight.nameOf.bind fun _ _ => readName_straight).steps
  readName _ := readName_straight.steps
  nameOf _ _ := Straight.nameOf.steps
  newIndex := Straight.newIndex.steps

theorem Env.Permits.fine (h : p.Permits π n) : (straight π m).Fine c p n := by
  unfold Env.Permits at h
  unfold Discipline.Fine
  split
  · exact ⟨fun _ => trivial, fun _ _ _ => trivial⟩
  · exact fun hstep => ⟨fun _ => straight_binds, h hstep⟩
  · exact fun x name hx hname _ _ _ => h x name hx hname
  · exact fun _ => trivial
  · exact h
  · exact h
  · exact fun _ => trivial
  · trivial

theorem Env.Obeys.fieldsFine (h : env.Obeys π m) : (straight π m).FieldsFine env := by
  rintro t ds hds d hd e he n hn c p rfl
  exact Env.Permits.fine (h.fields t ds hds d hd e he n hn)

theorem Env.PermitsAll.fine (h : p.PermitsAll π e.nodes) : (straight π m).AllFine c p e :=
  fun n hn => (h n hn).fine

/-- What keeps the discipline is straight code. -/
theorem Place.Obeys.straight (hp : p.Obeys π m)
    (h : ∀ c, (straight π m).Settled p c → (straight π m).Runs c c x fun _ => Q) :
    Straight π m [] x Q := by
  intro s f n a s' hs hx
  have hruns := h ⟨⟨s.names, f, n⟩, s⟩ ⟨⟨f, [], hs, .refl f, .refl _ f⟩, hp.env.functions,
    fun v hv _ => hp.me v hv, hp.withValues⟩
  unfold Discipline.Runs at hruns
  rw [hx] at hruns
  obtain ⟨_, ⟨f', code, hs', hg, hk⟩, rfl, hr⟩ := hruns
  exact ⟨f', code, hs', hg, hk, hr⟩

/-! ### Straight code -/

section

variable (hp : p.Obeys π m)
include hp

theorem zero_straight : Straight π m [] (zero type) π.Fits :=
  hp.straight fun _ hs => hp.lawful.run hs.inv (hp.lawful.zero (k := 0))

theorem coerce_straight (hv : π.Fits v) : Straight π m [] (coerce v type loc) π.Fits :=
  hp.straight fun _ hs => hp.lawful.run hs.inv (hp.lawful.coerce hv (Nat.zero_le _))

theorem expr_straight (he : p.PermitsAll π e.nodes) : Straight π m [] (expr p e) π.Fits :=
  hp.straight fun _ hs =>
    hp.lawful.run hs.inv (hp.lawful.expr hp.env.fieldsFine (hs.stands (Nat.zero_le _)) he.fine)

theorem exprStmt_straight (he : p.PermitsAll π e.nodes) :
    Straight π m [] (exprStmt p e) fun _ => True :=
  hp.straight fun _ hs =>
    hp.lawful.run hs.inv (hp.lawful.exprStmt hp.env.fieldsFine (hs.stands (Nat.zero_le _)) he.fine)

theorem varDecl_straight (hcount : 0 < elementCount d.dims → π.counts (elementCount d.dims))
    (h : ∀ e, d.init = some e → p.PermitsAll π e.nodes) :
    Straight π m (d.info.symbol.toList.map .new) (varDecl p d) fun _ => True := by
  unfold varDecl
  cases d.info.symbol with
  | none => exact .throw _
  | some x =>
    exact Straight.declare.bind fun _ _ => hp.straight fun _ hs => (hp.lawful.varValue
      straight_binds hp.env.fieldsFine hs hcount fun e he => (h e he).fine).any

theorem constDecl_straight (h : ∀ e, d.value = some e → p.PermitsAll π e.nodes) :
    Straight π m (d.info.symbol.toList.map .new) (constDecl p d) fun _ => True := by
  unfold constDecl
  cases d.info.symbol with
  | none => exact .throw _
  | some x =>
    cases he : d.value with
    | none => exact .throw _
    | some e =>
      exact Straight.declare.bind fun _ _ => hp.straight fun _ hs =>
        (hp.lawful.assigned straight_binds hs.inv
          (hp.lawful.expr hp.env.fieldsFine (hs.stands (Nat.le_refl _)) (h e he).fine)).any

theorem assignStmt_straight (hw : ∀ x, target.target? = some x → p.MayWrite π.stores x)
    (ht : p.PermitsAll π target.nodes) (he : p.PermitsAll π e.nodes) :
    Straight π m [] (assignStmt p loc target op e) fun _ => True :=
  hp.straight fun _ hs =>
    hp.lawful.assignStmt straight_binds hp.env.fieldsFine hs hw ht.fine he.fine

theorem throwStmt_straight (h : ∀ e, value = some e → p.PermitsAll π e.nodes) :
    Straight π m [] (throwStmt p loc value) fun _ => True :=
  hp.straight fun _ hs => hp.lawful.throwStmt hp.env.fieldsFine hs fun e he => (h e he).fine

theorem catchVar_straight :
    Straight π m (i.symbol.toList.map .new) (catchVar p i) fun _ => True := by
  unfold catchVar
  cases i.symbol with
  | none => exact .pure trivial
  | some x =>
    exact Straight.declare.bind fun _ _ => hp.straight fun _ hs =>
      (hp.lawful.assigned straight_binds hs.inv hp.lawful.zero).any

omit hp in
theorem declareCounter_straight : Straight π m [.counter x] (declareCounter p x) fun _ => True := by
  intro s f n a s' hs hx
  obtain ⟨_, _, hget, hx⟩ := bind_ok.mp hx
  cases hget
  split at hx
  · rename_i hnew
    obtain ⟨f', hs', hg, hk⟩ := Straight.declare_ok hs hx
    have hnone : s.names.varNames.lookup x = none := by simpa using (Bool.and_eq_true_iff.mp hnew).2
    refine ⟨f', [], hs', hg, fun lo hi es ho h => ?_, trivial⟩
    have hle : max lo (x.index + 1) ≤ hi := ho
    exact (hk lo hi es (.inr hnone) (by omega) (by omega) h).count (by grind)
  · cases hx
    refine ⟨f, [], hs, .refl f, fun lo hi es ho h => ?_, trivial⟩
    exact (h.mono (Nat.le_trans (Nat.le_max_left ..) ho)).count (by grind)

theorem forStart_straight (hw : p.MayWrite π.stores x) (ha : p.PermitsAll π a.nodes)
    (hz : p.PermitsAll π z.nodes) (hs : ∀ e, s = some e → p.PermitsAll π e.nodes) :
    Straight π m [.counter x] (forStart p loc x a z s)
      fun (last, step) => π.Fits last ∧ π.Fits step :=
  declareCounter_straight.bind fun _ _ => hp.straight fun _ hc => (hp.lawful.forBounds
    straight_binds hp.env.fieldsFine hc hw ha.fine hz.fine fun e he => (hs e he).fine).mono
      fun _ _ _ h => ⟨h.1, h.2.1⟩

theorem forTest_straight (hl : π.Fits last) : Straight π m [] (forTest p loc x last step) π.Fits :=
  hp.straight fun _ hs => hp.lawful.forTest hs.inv hl fun _ => trivial

theorem forNext_straight (hw : p.MayWrite π.stores x) (hstep : π.Fits step) :
    Straight π m [] (forNext p loc x step) fun _ => True :=
  hp.straight fun _ hs => hp.lawful.forNext straight_binds hw hs.inv hstep fun _ => trivial

theorem eachStart_straight (he : p.PermitsAll π e.nodes) :
    Straight π m [.new x] (eachStart p loc x e)
      fun es => π.Fits es.collection ∧ π.Fits es.length := by
  rw [Discipline.eachStart_eq]
  exact Straight.declare.bind fun _ _ => hp.straight fun _ hs => (hp.lawful.eachBounds
    straight_binds hp.env.fieldsFine hs he.fine).mono fun _ _ _ h => ⟨h.1, h.2.1⟩

theorem eachTest_straight (hn : π.Fits es.length) : Straight π m [] (eachTest loc es) π.Fits :=
  hp.straight fun _ hs => hp.lawful.eachTest hs.inv hn trivial

theorem eachElement_straight (hc : π.Fits es.collection) :
    Straight π m [] (eachElement p loc x es) fun _ => True :=
  hp.straight fun _ hs => (hp.lawful.eachElement straight_binds hs.inv hc trivial).any

theorem eachNext_straight : Straight π m [] (eachNext loc es) fun _ => True :=
  hp.straight fun _ hs => hp.lawful.eachNext straight_binds hs.inv trivial

theorem condition_straight (he : p.PermitsAll π e.nodes) :
    Straight π m [] (condition p e loc) π.Fits :=
  hp.straight fun _ hs => hp.lawful.condition hp.env.fieldsFine hs he.fine

theorem caseTest_straight (hv : π.Fits subject) (he : p.PermitsAll π e.nodes) :
    Straight π m [] (caseTest p subject e) π.Fits :=
  hp.straight fun _ hs => hp.lawful.caseTest hp.env.fieldsFine hs hv he.fine

end

end BasicSSA.Lower
