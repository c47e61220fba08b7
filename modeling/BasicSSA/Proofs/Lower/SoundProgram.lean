import BasicSSA.Proofs.Lower.Program
import BasicSSA.Proofs.Lower.Sound.Stmt

/-!
# Sound lowering of programs

Every function of the module of an analysed program is sound, and lowering stops only for what
analysis does not look at.
-/

namespace BasicSSA

open IL (Ty Function Module Build Given Consecutive)

/-- All that a function uses is defined, and the definitions in a single block are counted. -/
structure IL.Function.Sound (f : Function) : Prop where
  certified : ∃ A next, f.Certified A next
  nodup : (f.blocks.map (·.label)).Nodup
  numbered : f.blocks.length = 1 → ∃ latest, Consecutive (f.block 0).instrs latest

namespace Lower

/-! ### Known constants -/

theorem isConstant_numeric (h : Literal.numeric? type d = some v) : v.isConstant = true := by
  unfold Literal.numeric? at h
  repeat' split at h
  all_goals cases h <;> rfl

theorem isConstant_constant {l : Literal} (h : l.constant? type negate = some v) :
    v.isConstant = true := by
  cases l with
  | integer | single | double => exact isConstant_numeric h
  | long n =>
    simp only [Literal.constant?] at h
    split at h
    · cases h
      rfl
    · exact isConstant_numeric h
  | string | boolean | nothing =>
    simp only [Literal.constant?] at h
    split at h <;> cases h
    rfl

theorem isConstant_expr {e : Expr Note} (h : e.constant? type = some v) : v.isConstant = true := by
  unfold Expr.constant? at h
  split at h
  · exact isConstant_constant h
  · exact isConstant_constant h
  · cases h

/-! ### Functions -/

/-- The state between two functions. -/
structure Finished (s : LowerState) : Prop where
  known : KnownConstants s.builder.module.globals
  functions : ∀ f ∈ s.builder.module.functions, f.Sound

/-- A step that leads from one function to the next, or stops for what analysis does not look
at. -/
def Proceeds (x : Lower Unit) : Prop :=
  ∀ s, Finished s →
    match x s with
    | .ok (_, s') => Finished s'
    | .error e => e.IsGap

theorem Proceeds.seq (hx : Proceeds x) (hy : Proceeds y) :
    Proceeds (do x; y) := by
  intro s hs
  have hx := hx s hs
  rw [bind_apply]
  cases hr : x s with
  | error e =>
    rw [hr] at hx
    exact hx
  | ok r =>
    rw [hr] at hx
    exact hy r.2 hx

theorem Proceeds.forM {xs : List α} {step : α → Lower Unit}
    (h : ∀ a ∈ xs, Proceeds (step a)) : Proceeds (xs.forM step) := by
  induction xs with
  | nil => exact fun s hs => hs
  | cons a xs ih =>
    exact (h a List.mem_cons_self).seq (ih fun b hb => h b (List.mem_cons_of_mem a hb))

/-- The state at the start of a function. -/
def started (s : LowerState) (full : String) (type : Ty) (own : List IL.Slot) : LowerState :=
  { s with builder :=
      { finished := s.builder.module
        function := some { name := full, returnType := type, params := own,
                           blocks := [{ label := "entry" }] }
        current := some 0 } }

theorem startFunction_eq (hn : full.isEmpty = false) :
    startFunction full type own s = .ok ((), started s full type own) := by
  have hstart : emit (Build.startFunction full type own) s =
      .ok ((), { s with builder :=
        { finished := s.builder.module
          function := some { name := full, returnType := type, params := own } } }) := by
    unfold Build.startFunction
    rw [hn]
    rfl
  show (emit (Build.startFunction full type own) >>= _) s = _
  rw [bind_apply, hstart]
  rfl

/-- What the blocks of a new function are given: the parameters, for the first block. -/
def atStart (own : List IL.Slot) : Given := fun k x =>
  k = 0 ∧ ∃ q ∈ own, x = .var q.name

theorem started_open (hk : KnownConstants s.builder.module.globals) (hl : s.names.latest = []) :
    Sound.Open s.builder.module [] ⟨atStart own, started s full type own⟩ := by
  have hempty (k j) : (Config.function ⟨atStart own, started s full type own⟩).instr? k j = none := by
    rcases k with - | k
    · rfl
    · exact Function.instr?_beyond (by simp [Config.function, started])
  refine ⟨?_, rfl⟩
  constructor
  case known => exact hk
  case inside => exact ⟨rfl, rfl, rfl, Nat.one_pos⟩
  case current => simp
  case blank => simp
  case nodup => simp
  case labelled =>
    refine ⟨fun k hk => .inl ?_, by simp [Config.function, started]⟩
    obtain rfl : k = 0 := by simpa [Config.function, started] using hk
    rfl
  case certified =>
    constructor
    case entry => exact fun x hx => hx.2
    case uses => simp [hempty]
    case edges => simp [hempty]
    case once => simp [hempty]
    case below => simp [hempty]
    case belowGiven =>
      rintro k t ⟨-, q, -, hq⟩
      cases hq
  case numbered =>
    intro _
    show Consecutive [] s.names.latest
    rw [hl]
    exact .nil

theorem finished_of_shut (hf : ∀ f ∈ m.functions, f.Sound) (h : Sound.Shut m [] c) :
    Finished c.state := by
  obtain ⟨h, -⟩ := h
  have hmodule : c.state.builder.module = { m with functions := m.functions ++ [c.function] } := by
    simp [IL.Builder.module, h.inside.finished, h.inside.function]
  constructor
  · rw [hmodule]
    exact h.known
  · rw [hmodule]
    intro f hm
    rcases List.mem_append.mp hm with hm | hm
    · exact hf f hm
    · obtain rfl := List.mem_singleton.mp hm
      exact ⟨⟨_, _, h.certified⟩, h.labelled.nodup, fun h1 => ⟨_, h.numbered h1⟩⟩

/-- Code from the start of a function to its end. -/
theorem proceeds_of_flows {x : Lower Unit} (hs : Finished s) (hl : s.names.latest = [])
    (hn : full.isEmpty = false)
    (hx : Sound.Open s.builder.module [] ⟨atStart own, started s full type own⟩ →
      Sound.Flows ⟨atStart own, started s full type own⟩ x
        fun c _ => Sound.Shut s.builder.module [] c) :
    match (do startFunction full type own; x) s with
    | .ok (_, s') => Finished s'
    | .error e => e.IsGap := by
  have hx := hx (started_open hs.known hl)
  rw [bind_apply, startFunction_eq hn]
  unfold Sound.Flows at hx
  dsimp only at hx ⊢
  split
  · rename_i hr
    rw [hr] at hx
    obtain ⟨g, -, hshut⟩ := hx
    exact finished_of_shut hs.functions hshut
  · rename_i hr
    rw [hr] at hx
    exact hx

/-! ### Procedures -/

/-- The parameters get names, and their slots have these names. -/
theorem params_eq (qs : List (Param Note))
    (h : ∀ a ∈ qs, (p.tree.findLocal? scope a.name).isSome) (s : LowerState) :
    ∃ slots s', params p scope qs s = .ok (slots, s') ∧ s'.builder = s.builder ∧
      s'.names.latest = s.names.latest ∧
      (∀ x n, s.names.varNames.lookup x = some n → s'.names.varNames.lookup x = some n) ∧
      ∀ a ∈ qs, ∀ x, p.tree.findLocal? scope a.name = some x →
        ∃ n, s'.names.varNames.lookup x = some n ∧ ∃ slot ∈ slots, slot.name = n := by
  induction qs generalizing s with
  | nil => exact ⟨[], s, rfl, rfl, rfl, fun _ _ h => h, by simp⟩
  | cons a qs ih =>
    obtain ⟨x, hx⟩ := Option.isSome_iff_exists.mp (h a List.mem_cons_self)
    let w := (p.tree.symbol x).name
    obtain ⟨used, varNames, hkeeps⟩ := Names.nameOf_keeps (n := s.names) (x := x) (w := w)
    obtain ⟨hnamed, holds⟩ := Names.lookup_nameOf (n := s.names) (x := x) (w := w)
    obtain ⟨slots, s', hrun, hb, hl, hkeep, hslots⟩ :=
      ih (fun b hb => h b (List.mem_cons_of_mem a hb)) { s with names := (s.names.nameOf x w).2 }
    have hname := hkeep x _ hnamed
    refine ⟨{ name := (s.names.nameOf x w).1, type := p.typeOfSymbol x } :: slots, s', ?_, hb,
      by rw [hl, hkeeps], fun y n hy => hkeep y n (holds y n hy), ?_⟩
    · have hstep : params p scope (a :: qs) s =
          (do return ({ name := (s.names.nameOf x w).1, type := p.typeOfSymbol x } : IL.Slot) ::
            (← params p scope qs)) { s with names := (s.names.nameOf x w).2 } := by
        rw [params, hx]
        rfl
      rw [hstep, bind_apply, hrun]
      rfl
    · intro b hmem y hy
      rcases List.mem_cons.mp hmem with rfl | hmem
      · obtain rfl : x = y := by simpa [hx] using hy
        exact ⟨_, hname, _, List.mem_cons_self, rfl⟩
      · obtain ⟨n, hn, slot, hslot, hsn⟩ := hslots b hmem y hy
        exact ⟨n, hn, slot, List.mem_cons_of_mem _ hslot, hsn⟩

theorem procedure_proceeds (hf : env.FieldsScoped) (h : ScopedProcedure env q full)
    (owner : Option SymbolId) : Proceeds (procedure env q full owner) := by
  intro s hs
  cases hbody : q.body with
  | none =>
    unfold procedure
    rw [hbody]
    exact hs
  | some body =>
    obtain ⟨hname, hsym, scope, hscope, hparams, -, hscoped⟩ := h body hbody
    obtain ⟨x, hx⟩ := Option.isSome_iff_exists.mp hsym
    obtain ⟨slots, s', hrun, hb, hl, -, hslots⟩ := params_eq (p := bodyPlace env x owner) q.params
      hparams { s with names := startNames env owner }
    have hfin : Finished s' := ⟨hb ▸ hs.known, hb ▸ hs.functions⟩
    rw [procedure_eq hbody hx hscope, bind_apply, hrun]
    refine proceeds_of_flows hfin hl hname fun hopen => ?_
    have hholds : Sound.Holds (bodyPlace env x owner)
        { vars := q.params.filterMap fun a => env.tree.findLocal? scope a.name }
        ⟨atStart (ownSlots env owner ++ slots),
          started s' full (resultType env x) (ownSlots env owner ++ slots)⟩ := by
      constructor
      case me =>
        intro v hv k x hx
        obtain ⟨o, ho, rfl⟩ := Option.map_eq_some_iff.mp hv
        cases hx
        exact ⟨.inl ⟨rfl, _, List.mem_append_left _ (by simp [ownSlots, ho]; rfl), rfl⟩,
          by simp⟩
      case withValues => simp [bodyPlace]
      case inWith => simp
      case loops => simp
      case leaves => simp [bodyPlace]
      case reads =>
        intro y hy _
        obtain ⟨a, ha, hfound⟩ := List.mem_filterMap.mp hy
        obtain ⟨n, hn, slot, hslot, rfl⟩ := hslots a ha y hfound
        exact ⟨slot.name, hn, .inl ⟨rfl, slot, List.mem_append_right _ hslot, rfl⟩⟩
    have hstmts := Sound.inScope
      (Sound.stmts body (bodyPlace env x owner) _ hf hscoped [] _ hholds hopen)
    refine hstmts.bind fun _ c₁ _ he => .get ?_
    rcases he with ⟨ho, -, -⟩ | hshut
    · simp only [ho.isTerminated]
      exact Sound.returnDefault ho
    · simp only [hshut.isTerminated]
      exact .pure hshut

/-! ### Variables of the module -/

theorem initGlobals (hf : env.FieldsScoped)
    (globals : List (String × Ty × Expr Note))
    (h : ∀ g ∈ globals, ({} : Scoping).SeesAll env g.2.2)
    (ho : Sound.Open m [] c) :
    Sound.Flows c (globals.forM fun (name, type, e) => initGlobal { env with } name type e)
      fun c' _ => Sound.Open m [] c' := by
  induction globals generalizing c with
  | nil => exact .pure ho
  | cons g globals ih =>
    obtain ⟨name, type, e⟩ := g
    have hholds : Sound.Holds { env with } {} c := by
      constructor <;> simp
    have hinit : Sound.Flows c (initGlobal { env with } name type e)
        fun c' _ => Sound.Open m [] c' := by
      refine (Sound.expr hf hholds (h _ List.mem_cons_self) ho).bind fun v c₁ _ ⟨ho, _, hv⟩ => ?_
      refine (Sound.straight (Sound.lawful.run ho (Sound.lawful.coerce hv (Nat.zero_le _)))).bind
        fun v c₂ _ ⟨ho, _, hv⟩ => ?_
      exact (Sound.straight (Sound.lawful.run ho (Sound.lawful.setGlobal trivial hv))).mono
        fun _ _ _ h => h.1
    exact hinit.bind fun _ c₁ _ ho => ih (fun g hg => h g (List.mem_cons_of_mem _ hg)) ho

theorem initFunction_proceeds (hf : env.FieldsScoped) (globals : List (String × Ty × Expr Note))
    (h : ∀ g ∈ globals, ({} : Scoping).SeesAll env g.2.2) :
    Proceeds (initFunction env globals) := by
  intro s hs
  by_cases hempty : globals.isEmpty = true
  · unfold initFunction
    rw [if_pos hempty]
    exact hs
  · have hstep : initFunction env globals s =
        (do
          startFunction "__init" {} []
          globals.forM fun (name, type, e) => initGlobal { env with } name type e
          emit (Build.ret none {})) { s with names := {} } := by
      unfold initFunction
      rw [if_neg hempty]
      rfl
    have hs' : Finished { s with names := {} } := ⟨hs.known, hs.functions⟩
    rw [hstep]
    refine proceeds_of_flows hs' rfl rfl fun hopen => ?_
    exact (initGlobals hf globals h hopen).bind fun _ c _ ho => ho.ret (by simp)

theorem emit_addGlobal :
    emit (Build.addGlobal g) s =
      if (s.builder.finished.global? g.name).isSome then .error (.build (.duplicateGlobal g.name))
      else .ok ((), { s with builder := { s.builder with finished :=
        { s.builder.finished with globals := s.builder.finished.globals ++ [g] } } }) := by
  unfold emit
  rw [Build.run_addGlobal]
  by_cases h : (s.builder.finished.global? g.name).isSome = true
  · rw [if_pos h, if_pos h]
  · rw [if_neg h, if_neg h]

theorem declareItem_proceeds (h : ScopedItem env item) : Proceeds (declareItem env item) := by
  intro s hs
  cases item with
  | global i name init isConstant =>
    obtain ⟨x, hx⟩ := Option.isSome_iff_exists.mp h.1
    simp only [declareItem, hx, emit_addGlobal]
    by_cases hdup : (s.builder.finished.global? name).isSome = true
    · rw [if_pos hdup]
      trivial
    · rw [if_neg hdup]
      refine ⟨fun g hg v hv => ?_, hs.functions⟩
      rcases List.mem_append.mp hg with hg | hg
      · exact hs.known g hg v hv
      · obtain rfl := List.mem_singleton.mp hg
        obtain ⟨e, -, he⟩ := Option.bind_eq_some_iff.mp hv
        exact isConstant_expr he
  | cls i name base fields methods =>
    simp only [declareItem, Option.isNone_eq_false_iff.mpr h.1]
    exact ⟨hs.known, hs.functions⟩
  | record i name fields =>
    simp only [declareItem, Option.isNone_eq_false_iff.mpr h]
    exact ⟨hs.known, hs.functions⟩
  | procedure q name owner => exact hs

/-! ### Programs -/

/-- All functions of a module whose items are scoped are sound. Lowering stops only for what analysis
does not look at. -/
theorem lower_proceeds {a : Analysis} (name : String)
    (h : ∀ item ∈ Decl.itemsList "" a.program,
      ScopedItem (.ofItems a.types a.tree (Decl.itemsList "" a.program)) item) :
    match lower a name with
    | .ok m => ∀ f ∈ m.functions, f.Sound
    | .error e => e.IsGap := by
  have hf := fieldsScoped_ofItems h
  have hdeferred : ∀ g ∈ deferred (.ofItems a.types a.tree (Decl.itemsList "" a.program))
      (Decl.itemsList "" a.program), ({} : Scoping).SeesAll
        (.ofItems a.types a.tree (Decl.itemsList "" a.program)) g.2.2 := by
    intro g hg
    obtain ⟨_, _, hitem, -⟩ := exists_deferred hg
    exact (h _ hitem).2 g.2.2 rfl
  have hrun : Proceeds (program (.ofItems a.types a.tree (Decl.itemsList "" a.program))
      (Decl.itemsList "" a.program)) := by
    refine .seq (.forM fun item hitem => declareItem_proceeds (h item hitem)) (.seq (.forM ?_) ?_)
    · intro item hitem
      cases item with
      | procedure q full owner => exact procedure_proceeds hf (h _ hitem) owner
      | _ => exact fun s hs => hs
    · exact initFunction_proceeds hf _ hdeferred
  have hstart : Finished { builder := { finished := { name } } } :=
    ⟨by simp [KnownConstants, IL.Builder.module], by simp [IL.Builder.module]⟩
  have hresult := hrun _ hstart
  unfold lower
  simp only [StateT.run]
  cases hr : program (.ofItems a.types a.tree (Decl.itemsList "" a.program))
      (Decl.itemsList "" a.program) { builder := { finished := { name } } } with
  | error e =>
    rw [hr] at hresult
    exact hresult
  | ok r =>
    rw [hr] at hresult
    exact hresult.functions

end Lower

end BasicSSA
