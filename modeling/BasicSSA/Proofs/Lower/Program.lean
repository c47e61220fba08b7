import BasicSSA.Lower.Program
import BasicSSA.Proofs.Lower.Statements

/-!
# The functions of a module

Each procedure with a body gives a function, in the order of the procedures; a function that sets
the variables of the module may come last.
-/

namespace BasicSSA

open IL (Value Ty Opcode Instr Function Global Module Build Builder)

/-- A finished function: its blocks have distinct labels, and each is permitted code with its end. -/
structure IL.Function.Built (π : Policy) (f : Function) : Prop where
  nonempty : 0 < f.blocks.length
  entry : f.label 0 = "entry"
  labels : (f.blocks.map (·.label)).Nodup
  ended : ∀ k < f.blocks.length, ∃ body t, (f.block k).instrs = body ++ [t] ∧
    (∀ i ∈ body, π.Allows i) ∧ π.Ends f t

/-! ### Drafts at the start and at the end -/

namespace Draft

variable {c : Draft}

/-- A function that has just been started. -/
def start (name : String) (type : Ty) (params : List IL.Slot) : Draft where
  function := { name, returnType := type, params, blocks := [{ label := "entry" }] }
  pieces _ := []
  current := 0
  log := []

theorem Ok.start (name : String) (type : Ty) (params : List IL.Slot) (given : List Declaration) :
    { start name type params with given }.Ok π q gs where
  inside := Nat.one_pos
  labels := by simp [Draft.start]
  tidy k hk := by
    cases Nat.lt_one_iff.mp hk
    exact .code (by simp [Draft.start, Function.block])
  laid k hk := by
    cases Nat.lt_one_iff.mp hk
    exact .nil rfl
  beyond _ _ := rfl
  log := .refl _

/-- A draft whose blocks all have their end is a finished function. -/
theorem Ok.built (h : c.Ok π q gs) (hp : c.Pending []) (hentry : c.function.label 0 = "entry") :
    c.function.Built π where
  nonempty := Nat.zero_lt_of_lt h.inside
  entry := hentry
  labels := h.labels
  ended k hk := by
    cases h.tidy k hk with
    | ended body t hb hbody ht => exact ⟨body, t, hb, hbody, ht⟩
    | code hall =>
      refine absurd (hp k hk ?_) (by simp)
      refine Bool.eq_false_iff.mpr fun hterm => ?_
      obtain ⟨i, hi, hop⟩ := IL.Block.isTerminated_iff.mp hterm
      rw [(hall i (List.mem_of_getLast? hi)).not_terminator] at hop
      cases hop

end Draft

/-- A procedure with a body, and the name of its function. -/
structure Routine where
  procedure : Procedure Note
  name : String
  owner : Option SymbolId
  body : List (Stmt Note)

def Item.routine? : Item → Option Routine
  | .procedure a name owner => a.body.map ({ procedure := a, name, owner, body := · })
  | _ => none

/-- What a routine declares, the object of a method first. -/
def Routine.declarations (r : Routine) (tree : ScopeTree) : List Declaration :=
  r.owner.toList.map (fun _ => .own "Me") ++ r.procedure.declarations tree

namespace Analysis

/-- What the module of a program holds. -/
def items (a : Analysis) : List Item :=
  Decl.itemsList "" a.program

/-- What lowering knows about a program. -/
def env (a : Analysis) : Lower.Env :=
  .ofItems a.types a.tree a.items

/-- The procedures of a program that have a body. -/
def routines (a : Analysis) : List Routine :=
  a.items.filterMap Item.routine?

theorem item_of_routine {a : Analysis} (hr : r ∈ a.routines) :
    .procedure r.procedure r.name r.owner ∈ a.items ∧ r.procedure.body = some r.body := by
  obtain ⟨item, hitem, hr⟩ := List.mem_filterMap.mp hr
  cases item with
  | procedure p name owner =>
    obtain ⟨body, hbody, rfl⟩ := Option.map_eq_some_iff.mp hr
    exact ⟨hitem, hbody⟩
  | _ => cases hr

end Analysis

/-- What an item adds to the variables of a module. -/
def Item.global? (env : Lower.Env) : Item → Option Global
  | .global i name init isConstant =>
    i.symbol.map fun x =>
      let known := init.bind (·.constant? (env.typeOfSymbol x))
      { name, type := env.typeOfSymbol x, init := known, isConstant := isConstant && known.isSome }
  | _ => none

namespace Lower

/-- A function with the pieces of its code carries out the body of a procedure. -/
structure CarriesOut (gs : List Global) (p : Place) (f : Function) (H : SourceMap)
    (body : List (Stmt Note)) : Prop where
  laid : ∀ k < f.blocks.length, LaidOut gs p (f.block k) (H k)
  follows : ∀ o fuel, Follows f H o [] fuel 0 0 (Stmt.run o fuel body) 0 0
  actions : (Stmt.actionsList body).Perm ((List.range f.blocks.length).flatMap (H.actions ·))
  lies : ∃ e, Stmt.LiesList f H body [] 0 e

/-! ### One function -/

theorem At.module_eq (h : At s m f n) :
    s.builder.module = { m with functions := m.functions ++ [f] } := by
  simp [Builder.module, h.finished, h.function]

theorem startFunction_ok (h : startFunction name type ps s = .ok ((), s')) :
    name.isEmpty = false ∧ At s' s.builder.module (Draft.start name type ps).function 0 ∧
      s'.names = s.names := by
  obtain ⟨_, t, hstart, h⟩ := bind_ok.mp h
  obtain ⟨b, hrun, rfl⟩ := emit_ok.mp hstart
  rw [Build.run_startFunction] at hrun
  split at hrun
  · cases hrun
  · rename_i hname
    cases hrun
    obtain ⟨k, t, hblock, h⟩ := bind_ok.mp h
    cases hblock
    cases h
    exact ⟨Bool.eq_false_iff.mpr hname, ⟨rfl, rfl, rfl, Nat.one_pos⟩, rfl⟩

theorem returnDefault_ok (h : returnDefault p loc s = .ok ((), s')) :
    ∃ v : Option Value, v.map (·.type.kind) = p.returnType.returned? ∧
      (∀ w, v = some w → p.returnType.zero? = some w) ∧
      emit (Build.ret v loc) s = .ok ((), s') := by
  unfold returnDefault at h
  split at h
  · rename_i hvoid
    exact ⟨none, by simp [Ty.returned?, hvoid], nofun, h⟩
  · rename_i hvoid
    obtain ⟨v, t, hv, h⟩ := bind_ok.mp h
    cases hz : p.returnType.zero? with
    | none =>
      rw [zero, hz] at hv
      cases hv
    | some z =>
      rw [zero, hz] at hv
      obtain ⟨rfl, rfl⟩ := pure_ok.mp hv
      exact ⟨some z, by simp [Ty.returned?, hvoid, Ty.kind_zero? hz], by simp, h⟩

/-- Parameters get names, which are apart from those that are listed already. -/
theorem params_ok (h : params p scope ps s = .ok (own, s')) : s'.builder = s.builder ∧
    ∀ lo hi ds listed,
      Declaration.InOrder lo hi ((ps.filterMap (p.tree.findLocal? scope ·.name)).map .new) →
      s.names.Apart lo ds listed → s'.names.Apart hi
        (ds ++ (ps.filterMap (p.tree.findLocal? scope ·.name)).map .new)
        (listed ++ own.map (·.name)) := by
  induction ps generalizing s own with
  | nil =>
    obtain ⟨rfl, rfl⟩ := pure_ok.mp h
    exact ⟨rfl, fun lo hi ds listed hle h => by simpa using h.mono hle⟩
  | cons a ps ih =>
    unfold params at h
    cases hfind : p.tree.findLocal? scope a.name with
    | none =>
      rw [hfind] at h
      cases h
    | some x =>
      rw [hfind] at h
      obtain ⟨name, t, hname, h⟩ := bind_ok.mp h
      obtain ⟨rest, t', hrest, h⟩ := bind_ok.mp h
      obtain ⟨rfl, rfl⟩ := pure_ok.mp h
      obtain ⟨hb, hn⟩ := ih hrest
      obtain ⟨rfl, rfl⟩ : name = (s.names.nameOf x (p.tree.symbol x).name).1 ∧
          t = { s with names := (s.names.nameOf x (p.tree.symbol x).name).2 } := by
        cases hname
        exact ⟨rfl, rfl⟩
      refine ⟨hb, fun lo hi ds listed ho h => ?_⟩
      simp only [List.filterMap_cons, hfind, List.map_cons] at ho ⊢
      simpa using hn _ hi _ _ ho.2
        (h.declare (.inl ho.1) (Nat.le_succ_of_le ho.1) (Nat.lt_succ_self _))

theorem params_delivers :
    Delivers (params p scope ps) (·.length = ps.length) := by
  induction ps with
  | nil => exact .pure rfl
  | cons q ps ih =>
    unfold params
    split
    · exact .throw _
    · exact .last fun _ => ih.bind fun _ h => .pure (congrArg (· + 1) h)

/-- The place of the body of a procedure. -/
def bodyPlace (env : Env) (x : SymbolId) (owner : Option SymbolId) : Place :=
  { env with returnType := resultType env x, me := owner.map (ownerValue env) }

/-- The parameter of a method for its object. -/
def ownSlots (env : Env) (owner : Option SymbolId) : List IL.Slot :=
  (owner.map (ownerValue env)).toList.map fun v => { name := "Me", type := v.type }

/-- The names at the start of a procedure. -/
def startNames (env : Env) (owner : Option SymbolId) : Names :=
  { used := if (owner.map (ownerValue env)).isSome then [("ME", 1)] else [] }

theorem procedure_eq (hbody : q.body = some body) (hx : q.info.symbol = some x)
    (hscope : q.info.scope = some scope) :
    procedure env q full owner s =
      (params (bodyPlace env x owner) scope q.params >>= fun slots => do
        startFunction full (resultType env x) (ownSlots env owner ++ slots)
        inScope (stmts (bodyPlace env x owner) body)
        if !(← isTerminated) then returnDefault (bodyPlace env x owner) q.info.loc)
        { s with names := startNames env owner } := by
  unfold procedure
  rw [hbody, hx, hscope]
  rfl

theorem startNames_apart : (startNames env owner).Apart 0
    (owner.toList.map fun _ => .own "Me") ((ownSlots env owner).map (·.name)) := by
  cases owner with
  | none => constructor <;> simp [startNames, ownSlots]
  | some x =>
    have hfold : foldCase "Me" = "ME" := by decide
    constructor <;> simp [startNames, ownSlots, Names.isUsed, hfold]

/-- The last function is finished, carries out a body, and lists what was declared before it and
what it declares. -/
def Finishes (π : Policy) (m : Module) (p : Place) (name : String) (type : Ty) (ps : List IL.Slot)
    (given : List Declaration) (body : List (Stmt Note)) (s : LowerState) : Prop :=
  ∃ f H, s.builder.module = { m with functions := m.functions ++ [f] } ∧ f.name = name ∧
    f.returnType = type ∧ f.params = ps ∧
    (s.builder.function = some f ∧ s.names.Lists
      (given ++ (Stmt.actionsList body).flatMap Action.declarations) f.slotNames) ∧ f.Built π ∧
    CarriesOut m.globals p f H body

/-- A body with a return behind it makes a finished function that carries it out. -/
theorem body_ok (hp : p.Obeys π m) (hloops : p.loops = [])
    (hn : p.PermitsAll π (Stmt.nodesList body))
    (hs : At s m (Draft.start name type ps).function 0)
    (hnames : s.names.Lists given (ps.map (·.name)))
    (h : (do
      inScope (stmts p body)
      if !(← isTerminated) then returnDefault p loc) s = .ok ((), s')) :
    Finishes π m p name type ps given body s' := by
  obtain ⟨_, t₁, hbody, h⟩ := bind_ok.mp h
  obtain ⟨closed, t₂, hclosed, h⟩ := bind_ok.mp h
  let c₀ := { Draft.start name type ps with given }
  have hopen : c₀.isOpen c₀.current := rfl
  have hhere : Here m s c₀ := by
    refine ⟨hs, fun hi ho => ?_⟩
    have hslots : c₀.function.slotNames = ps.map (·.name) := by
      simp [c₀, Draft.start, Function.slotNames]
    have hdeclared : c₀.declared = given := List.append_nil given
    rw [hslots, hdeclared]
    exact hnames hi (hdeclared ▸ ho)
  have hstart : Stage π p m c₀ [c₀.current] s c₀ := .start hhere (.start name type ps given)
  have hlow : Lowers π p m [] (fun o fuel => Stmt.readingList o fuel body) (Stmt.shapeList body)
      (stmts p body) := by
    have := stmts_lower ⟨rfl, rfl, rfl⟩ hp body hn
    rwa [hloops] at this
  obtain ⟨c₁, h₁, hg₁, hlow₁⟩ := hstart.lowerInScope hlow hopen (by simp [LoopsIn]) hbody
  obtain ⟨rfl, rfl⟩ := isTerminated_ok h₁.state.toAt hclosed
  have hpending : c₀.Pending [c₀.current] := fun k hk _ => by
    have : k < 1 := hk
    simp [c₀, Draft.start]
    omega
  -- Each way to end the body leads to a draft that is finished.
  have hfinal (c : Draft) (hst : Stage π p m c₀ [] s' c) (hb : c₁.Becomes c.function c.pieces)
      (hlog : c.log = c₁.log)
      (hF : ∀ o fuel, Follows c.function c.pieces o [] fuel 0 0 (Stmt.run o fuel body) 0 0) :
      Finishes π m p name type ps given body s' := by
    have hgiven : c.given = given := hst.grown.given
    have hnames := hst.state.names
    rw [Draft.declared, hgiven, hlog, hlow₁.log] at hnames
    refine ⟨c.function, c.pieces, hst.state.toAt.module_eq, hst.grown.name, hst.grown.returnType,
      hst.grown.params, ⟨hst.state.function, hnames⟩, hst.ok.built (hst.pending [] hpending) ?_,
      hst.ok.laid, hF, ?_, _, hlow₁.lies _ _ hb⟩
    · exact hst.grown.label 0 Nat.one_pos
    · have hactions := hst.ok.log
      rw [hlog, hlow₁.log] at hactions
      exact hactions
  cases hterm : (c₁.function.block c₁.current).isTerminated with
  | true =>
    rw [hterm] at h
    obtain ⟨-, rfl⟩ := pure_ok.mp h
    have hclosed₁ : ¬c₁.isOpen c₁.current := by simp [Draft.isOpen, hterm]
    have h₂ : Stage π p m c₀ [] t₂ c₁ := by
      refine ⟨h₁.state, h₁.ok, h₁.grown, fun rest hp k hk ho => ?_⟩
      rcases List.mem_cons.mp (h₁.pending rest hp k hk ho) with rfl | hmem
      · exact absurd ho hclosed₁
      · exact hmem
    refine hfinal c₁ h₂ h₁.ok.becomes rfl fun o fuel => ?_
    rw [Stmt.run, Reading.andThen_of_ne_normal (hlow₁.normal hclosed₁ o fuel)]
    exact (hlow₁.follows _ _ h₁.ok.becomes o fuel).elsewhere (hlow₁.normal hclosed₁ o fuel)
  | false =>
    rw [hterm] at h
    obtain ⟨v, hv, hzero, hret⟩ := returnDefault_ok h
    have hends : π.Ends c₁.function { op := .ret, operands := v.toList, loc } :=
      ret_ends (hv ▸ hp.returns) fun w hw =>
        Policy.fits_of_holds ((hp.lawful).holdsZero (hzero w hw))
    obtain ⟨h₂, hf⟩ := h₁.finish hret hends (by simp)
    have hb := h₂.ok.becomes
    have hb₁ := hf.grown.becomes hb
    refine hfinal _ h₂ hb₁ rfl fun o fuel => ?_
    have hfollow := hlow₁.follows _ _ hb₁ o fuel
    exact hfollow.andThen (.stop (hb.halts h₁.ok.inside rfl))

/-- The code that sets the variables of the module. -/
def setGlobals (env : Env) (globals : List (String × Ty × Expr Note)) : Lower Unit :=
  globals.forM fun (name, type, e) => initGlobal { env with } name type e

/-- A function that sets the variables of the module. -/
structure Initializes (π : Policy) (env : Env) (gs : List Global)
    (globals : List (String × Ty × Expr Note)) (f : Function) : Prop where
  name : f.name = "__init"
  returnType : f.returnType = {}
  params : f.params = []
  built : f.Built π
  code : ∃ code, Emits gs (setGlobals env globals) () code ∧ ∀ b ∈ f.blocks,
    b.instrs.map Instr.anonymous = (code ++ [{ op := .ret : Instr }]).map Instr.anonymous

/-- The function that sets the variables of the module has one block. -/
theorem initFunction_ok (hp : Place.Obeys π s.builder.module { env with })
    (hinit : ∀ g ∈ globals, π.stores g.1 ∧ env.PermitsAll π g.2.2.nodes)
    (h : initFunction env globals s = .ok ((), s')) :
    ∃ fs : List Function, s'.builder.module =
        { s.builder.module with functions := s.builder.module.functions ++ fs } ∧
      fs.length ≤ 1 ∧ ∀ f ∈ fs, Initializes π env s.builder.module.globals globals f := by
  unfold initFunction at h
  cases hempty : globals.isEmpty with
  | true =>
    rw [hempty] at h
    obtain ⟨-, rfl⟩ := pure_ok.mp h
    exact ⟨[], by simp⟩
  | false =>
    rw [hempty] at h
    obtain ⟨_, t₁, hnames, h⟩ := bind_ok.mp h
    obtain ⟨_, t₂, hstart, h⟩ := bind_ok.mp h
    obtain ⟨_, t₃, hglobals, hret⟩ := bind_ok.mp h
    have ht₁ : t₁.builder = s.builder := by
      cases hnames
      rfl
    obtain ⟨-, hs, -⟩ := startFunction_ok hstart
    rw [ht₁] at hs
    have hstraight : Straight π s.builder.module [] (setGlobals env globals) fun _ => True := by
      refine .forM fun (name, type, e) hg => ?_
      obtain ⟨hstore, hn⟩ := hinit _ hg
      exact (expr_straight hp hn).bind fun _ hv => (coerce_straight hp hv).bind fun _ hv =>
        .storeGlobal hstore hv
    obtain ⟨f, code, hs, hg, -, -, he⟩ := hstraight.emits hs hglobals
    obtain ⟨ho, hs'⟩ := append_ok hs hret
    have hlen : f.blocks.length = 1 := hg.length
    let ret : Instr := { op := .ret, operands := (none : Option Value).toList, loc := {} }
    have hblock : (f.push 0 ret).block 0 =
        { f.block 0 with instrs := (f.block 0).instrs ++ [ret] } := Function.block_push hs.inside
    refine ⟨[f.push 0 ret], hs'.module_eq, Nat.le_refl _, List.forall_mem_singleton.mpr ⟨hg.name,
      hg.returnType, hg.params, ⟨?_, ?_, ?_, fun k hk => ?_⟩, code, he, fun b hb => ?_⟩⟩
    · simp [hlen]
    · rw [Function.label_push, hg.label]
      rfl
    · obtain ⟨b, hb⟩ := List.length_eq_one_iff.mp hlen
      simp [Function.push, hb]
    · rw [Function.length_push, hlen] at hk
      cases Nat.lt_one_iff.mp hk
      refine ⟨(f.block 0).instrs, ret, by rw [hblock], hg.block.kept ?_,
        ret_ends (v := none) hp.returns (by simp)⟩
      simp [Draft.start, Function.block]
    · obtain ⟨k, hk, rfl⟩ := List.getElem_of_mem hb
      have hk₀ : k = 0 := by
        rw [Function.length_push, hlen] at hk
        exact Nat.lt_one_iff.mp hk
      subst hk₀
      have hb : (f.push 0 ret).blocks[0] = (f.push 0 ret).block 0 := by
        simp [Function.block, List.getElem?_eq_getElem hk]
      rw [hb, hblock, List.map_append, hg.block.instrs]
      simp [Draft.start, Function.block, ret]

/-! ### All functions -/

theorem addGlobal_ok (h : emit (Build.addGlobal g) s = .ok ((), s')) :
    g.name ∉ s.builder.finished.globals.map (·.name) ∧ s' = { s with
      builder.finished.globals := s.builder.finished.globals ++ [g] } := by
  obtain ⟨b, hrun, rfl⟩ := emit_ok.mp h
  rw [Build.run_addGlobal] at hrun
  split at hrun
  · cases hrun
  · rename_i hnone
    cases hrun
    refine ⟨fun hmem => hnone ?_, rfl⟩
    obtain ⟨g', hg', he⟩ := List.mem_map.mp hmem
    simp only [Module.global?, List.find?_isSome, decide_eq_true_eq]
    exact ⟨g', hg', he⟩

/-- What an item adds to a module apart from code. -/
structure Declares (s : LowerState) (gs : List Global) (s' : LowerState) : Prop where
  function : s'.builder.function = s.builder.function
  functions : s'.builder.finished.functions = s.builder.finished.functions
  globals : s'.builder.finished.globals = s.builder.finished.globals ++ gs
  names : (s.builder.finished.globals.map (·.name)).Nodup →
    (s'.builder.finished.globals.map (·.name)).Nodup

theorem declareItem_ok (h : declareItem env item s = .ok ((), s')) :
    Declares s (item.global? env).toList s' := by
  cases item with
  | procedure =>
    obtain ⟨-, rfl⟩ := pure_ok.mp h
    exact ⟨rfl, rfl, by simp [Item.global?], fun h => h⟩
  | record i name fields =>
    dsimp only [declareItem] at h
    cases hx : i.symbol.isNone <;> rw [hx] at h <;> cases h
    exact ⟨rfl, rfl, by simp [Item.global?], fun h => h⟩
  | cls i name base fields methods =>
    dsimp only [declareItem] at h
    cases hx : (namedType? env.tree i).isNone <;> rw [hx] at h <;> cases h
    exact ⟨rfl, rfl, by simp [Item.global?], fun h => h⟩
  | global i name init isConstant =>
    dsimp only [declareItem] at h
    cases hx : i.symbol with
    | none =>
      rw [hx] at h
      cases h
    | some x =>
      rw [hx] at h
      obtain ⟨hnew, rfl⟩ := addGlobal_ok h
      refine ⟨rfl, rfl, by simp [Item.global?, hx], fun hnodup => ?_⟩
      simp only [List.map_append, List.map_cons, List.map_nil]
      refine List.nodup_append.mpr ⟨hnodup, by simp, ?_⟩
      simp only [List.mem_singleton]
      rintro a ha b rfl rfl
      exact hnew ha

theorem declareItems_ok {items : List Item} (h : items.forM (declareItem env) s = .ok ((), s')) :
    Declares s (items.filterMap (·.global? env)) s' := by
  induction items generalizing s with
  | nil =>
    obtain ⟨-, rfl⟩ := pure_ok.mp h
    exact ⟨rfl, rfl, by simp, fun h => h⟩
  | cons item items ih =>
    obtain ⟨_, t, hitem, h⟩ := bind_ok.mp h
    have h₁ := declareItem_ok hitem
    have h₂ := ih h
    refine ⟨h₂.function.trans h₁.function, h₂.functions.trans h₁.functions, ?_,
      fun hn => h₂.names (h₁.names hn)⟩
    rw [h₂.globals, h₁.globals, List.append_assoc]
    cases hg : item.global? env <;> simp [hg]

/-- The variables of a module that could be declared have symbols. -/
theorem symbol_of_declareItems {items : List Item}
    (h : items.forM (declareItem env) s = .ok ((), s'))
    (hi : Item.global i name init isConstant ∈ items) : i.symbol ≠ none := by
  induction items generalizing s with
  | nil => cases hi
  | cons item items ih =>
    obtain ⟨_, t, hitem, h⟩ := bind_ok.mp h
    rcases List.mem_cons.mp hi with rfl | hi
    · intro hx
      dsimp only [declareItem] at hitem
      rw [hx] at hitem
      cases hitem
    · exact ih h hi

/-- A function was made when a procedure was lowered, with the names of its variables. -/
def Named (env : Env) (f : Function) (r : Routine) : Prop :=
  ∃ s t, procedure env r.procedure r.name r.owner s = .ok ((), t) ∧ t.builder.function = some f ∧
    t.names.Lists (r.declarations env.tree) f.slotNames

/-- A function is that of a procedure with a body. -/
def Implements (π : Ty → Policy) (env : Env) (gs : List Global) (f : Function) (r : Routine) : Prop :=
  ∃ x H, r.procedure.info.symbol = some x ∧ r.name.isEmpty = false ∧ f.name = r.name ∧
    f.returnType = resultType env x ∧
    (f.params.length = r.owner.isSome.toNat + r.procedure.params.length ∧ Named env f r) ∧
    f.Built (π (resultType env x)) ∧ CarriesOut gs (bodyPlace env x r.owner) f H r.body

/-- What makes the code of a program keep to a policy for each return type. -/
structure Env.Keeps (π : Ty → Policy) (env : Env) (items : List Item) : Prop where
  returns : ∀ type, (π type).returns type.returned?
  obeys : ∀ type m, m.globals = items.filterMap (·.global? env) → env.Obeys (π type) m
  routines : ∀ r ∈ items.filterMap Item.routine?, ∀ x, r.procedure.info.symbol = some x →
    ∀ n ∈ Stmt.nodesList r.body, env.Permits (π (resultType env x)) n
  deferred : ∀ g ∈ deferred env items,
    (π {}).stores g.1 ∧ ∀ n ∈ g.2.2.nodes, env.Permits (π {}) n

variable {π : Ty → Policy}

theorem Env.Keeps.bodyPlace (h : env.Keeps π items)
    (hm : m.globals = items.filterMap (·.global? env)) (x : SymbolId) (owner : Option SymbolId) :
    (bodyPlace env x owner).Obeys (π (resultType env x)) m where
  env := h.obeys _ m hm
  me v hv := by
    obtain ⟨y, -, rfl⟩ := Option.map_eq_some_iff.mp hv
    trivial
  withValues := by simp [Lower.bodyPlace]
  returns := h.returns _

theorem procedure_ok (hk : env.Keeps π items) (hr : r ∈ items.filterMap Item.routine?)
    (hbody : r.procedure.body = some r.body)
    (hm : s.builder.module.globals = items.filterMap (·.global? env))
    (h : procedure env r.procedure r.name r.owner s = .ok ((), s')) :
    ∃ f, s'.builder.module =
        { s.builder.module with functions := s.builder.module.functions ++ [f] } ∧
      Implements π env (items.filterMap (·.global? env)) f r := by
  have hrun := h
  cases hx : r.procedure.info.symbol with
  | none =>
    rw [procedure, hbody, hx] at h
    cases h
  | some x =>
    cases hscope : r.procedure.info.scope with
    | none =>
      rw [procedure, hbody, hx, hscope] at h
      cases h
    | some scope =>
      rw [procedure_eq hbody hx hscope] at h
      obtain ⟨own, t₂, hparams, h⟩ := bind_ok.mp h
      obtain ⟨_, t₃, hstart, h⟩ := bind_ok.mp h
      obtain ⟨hname, hs, hnames⟩ := startFunction_ok hstart
      obtain ⟨ht₂, hapart⟩ := params_ok hparams
      rw [ht₂] at hs
      have hapart : t₃.names.Lists (r.owner.toList.map (fun _ => .own "Me") ++
          (r.procedure.params.filterMap (env.tree.findLocal? scope ·.name)).map .new)
          ((ownSlots env r.owner ++ own).map (·.name)) := by
        rw [hnames, List.map_append]
        refine fun hi ho => hapart 0 hi _ _ ?_ startNames_apart
        cases hr : r.owner <;> rw [hr] at ho <;> exact ho
      obtain ⟨f, H, hfs, hf, ht, hps, hdeclared, hbuilt, hcarry⟩ :=
        body_ok (hk.bodyPlace hm x r.owner) rfl (hk.routines r hr x hx) hs hapart h
      refine ⟨f, hfs, x, H, hx, hname, hf, ht, ⟨?_, s, s', hrun, hdeclared.1, ?_⟩, hbuilt,
        hm ▸ hcarry⟩
      · rw [hps, List.length_append, params_delivers _ _ _ hparams]
        cases r.owner <;> rfl
      · have hdeclared := hdeclared.2
        rw [List.append_assoc] at hdeclared
        simpa only [Routine.declarations, Procedure.declarations, hscope, hbody, Option.bind_some,
          Option.getD_some] using hdeclared

theorem procedures_ok (hk : env.Keeps π items) {rest : List Item}
    (hsub : ∀ r ∈ rest.filterMap Item.routine?, r ∈ items.filterMap Item.routine?)
    (hm : s.builder.module.globals = items.filterMap (·.global? env))
    (h : rest.forM (itemCode env) s = .ok ((), s')) :
    ∃ fs : List Function, s'.builder.module =
        { s.builder.module with functions := s.builder.module.functions ++ fs } ∧
      fs.length = (rest.filterMap Item.routine?).length ∧
      ∀ (i : Nat) r, (rest.filterMap Item.routine?)[i]? = some r → ∃ f, fs[i]? = some f ∧
        Implements π env (items.filterMap (·.global? env)) f r := by
  induction rest generalizing s with
  | nil =>
    obtain ⟨-, rfl⟩ := pure_ok.mp h
    exact ⟨[], by simp⟩
  | cons item rest ih =>
    obtain ⟨_, t, hitem, hrest⟩ := bind_ok.mp h
    cases hr : item.routine? with
    | none =>
      have ht : t = s := by
        cases item with
        | procedure a name owner =>
          have hbody : a.body = none := by simpa [Item.routine?] using hr
          rw [itemCode, procedure, hbody] at hitem
          exact (pure_ok.mp hitem).2.symm
        | _ => exact (pure_ok.mp hitem).2.symm
      rw [List.filterMap_cons_none hr] at hsub ⊢
      exact ih hsub hm (ht ▸ hrest)
    | some r =>
      rw [List.filterMap_cons_some hr] at hsub ⊢
      obtain ⟨hr₀, hsub'⟩ := List.forall_mem_cons.mp hsub
      cases item with
      | procedure a name owner =>
        obtain ⟨body, hbody, rfl⟩ := Option.map_eq_some_iff.mp hr
        obtain ⟨f, hf, himp⟩ := procedure_ok hk hr₀ hbody hm hitem
        obtain ⟨fs, hfs, hlen, hall⟩ := ih hsub' (by rw [hf]; exact hm) hrest
        refine ⟨f :: fs, by simp [hfs, hf], by simp [hlen], fun i r hi => ?_⟩
        cases i with
        | zero =>
          cases hi
          exact ⟨f, rfl, himp⟩
        | succ i => exact hall i r hi
      | _ => cases hr

/-- The functions of a module are those of the procedures with a body, in order, and perhaps one
that sets the variables of the module. -/
structure Assembled (π : Ty → Policy) (env : Env) (items : List Item) (m : Module) : Prop where
  symbols : ∀ i name init isConstant, Item.global i name init isConstant ∈ items → i.symbol ≠ none
  globals : m.globals = items.filterMap (·.global? env)
  names : (m.globals.map (·.name)).Nodup
  functions : ∃ fs init : List Function, m.functions = fs ++ init ∧
    fs.length = (items.filterMap Item.routine?).length ∧
    (∀ (i : Nat) r, (items.filterMap Item.routine?)[i]? = some r → ∃ f, fs[i]? = some f ∧
      Implements π env m.globals f r) ∧
    init.length ≤ 1 ∧ ∀ f ∈ init, Initializes (π {}) env m.globals (deferred env items) f

theorem lower_run (h : lower a name = .ok m) :
    ∃ s, program a.env a.items { builder := { finished := { name } } } = .ok ((), s) ∧
      s.builder.module = m := by
  change (do
    let r ← (program a.env a.items).run { builder := { finished := { name } } }
    return r.2.builder.module : Except LowerError Module) = .ok m at h
  cases hrun : program a.env a.items { builder := { finished := { name } } } with
  | error e =>
    rw [StateT.run, hrun] at h
    cases h
  | ok r =>
    rw [StateT.run, hrun] at h
    cases h
    exact ⟨r.2, rfl, rfl⟩

theorem lower_ok (h : lower a name = .ok m) (hk : a.env.Keeps π a.items) :
    Assembled π a.env a.items m := by
  obtain ⟨s', hrun, rfl⟩ := lower_run h
  generalize a.items = items, a.env = env at hk hrun ⊢
  obtain ⟨_, t₁, hdeclare, hrun⟩ := bind_ok.mp hrun
  obtain ⟨_, t₂, hprocs, hinit⟩ := bind_ok.mp hrun
  have hd := declareItems_ok hdeclare
  have hglobals : t₁.builder.module.globals = items.filterMap (·.global? env) := by
    simpa [Builder.module] using hd.globals
  have hnone : t₁.builder.module.functions = [] := by
    simp [Builder.module, hd.functions, hd.function]
  obtain ⟨fs, hfs, hlen, hall⟩ := procedures_ok hk (fun _ hr => hr) hglobals hprocs
  have hglobals₂ : t₂.builder.module.globals = items.filterMap (·.global? env) := by
    rw [hfs]
    exact hglobals
  have hplace : Place.Obeys (π {}) t₂.builder.module { env with } :=
    ⟨hk.obeys _ _ hglobals₂, by simp, by simp, hk.returns {}⟩
  obtain ⟨init, hm, hone, hbuilt⟩ := initFunction_ok hplace hk.deferred hinit
  rw [hm]
  refine ⟨fun _ _ _ _ => symbol_of_declareItems hdeclare, hglobals₂, ?_, fs, init, ?_, hlen, ?_,
    hone, hbuilt⟩
  · rw [hfs]
    exact hd.names (by simp)
  · simp [hfs, hnone]
  · rw [hglobals₂]
    exact hall

end Lower

end BasicSSA
