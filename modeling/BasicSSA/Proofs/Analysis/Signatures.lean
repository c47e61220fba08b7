import BasicSSA.Proofs.Analysis.Declare

/-!
# What analysis does with members and signatures

The second visit leaves declarations `Declared`: a procedure has a scope, and its symbol says how it
is called. They are also `Laid`: a procedure has a symbol and a scope with its parameters, and what
has no scope stays as it is. A class has got the base that it names, once.
-/

namespace BasicSSA

variable {s : AnalysisState}

/-- A procedure with a symbol, and with its parameters in its scope. -/
def Procedure.Laid (s : AnalysisState) (p : Procedure Note) : Prop :=
  s.Failed ∨ p.info.symbol.isSome ∧ ∃ scope, p.info.scope = some scope ∧
    s.tree.Furnished scope (p.params.map (·.name)) ∧ s.tree.Numbered scope (p.params.map (·.name))

theorem Procedure.Laid.mono (hp : Procedure.Laid s p) (h : s.Grown t) (hl : s.Prepares [] t) :
    p.Laid t := by
  refine hp.imp h.failed fun ⟨hx, scope, hs, hf, hn⟩ => ?_
  have hsame := hl.locals scope hf.isLocal (by simp)
  exact ⟨hx, scope, hs, hf.mono h.tree hsame, hn.mono h.tree.size_le hsame⟩

/-- The symbol of a procedure says how many arguments it takes, and whether it takes an object. -/
structure AnalysisState.Signs (s : AnalysisState) (bound : Bool) (p : Procedure Note)
    (x : SymbolId) : Prop where
  symbol : s.tree.HasSymbol x
  isCallable : (s.tree.symbol x).isCallable = true
  params : (s.tree.symbol x).params.length = p.params.length
  scope : s.tree.HasScope (s.tree.symbol x).scope
  bound : (!(s.tree.symbol x).isShared &&
    (s.tree.scope (s.tree.symbol x).scope).kind.isClass) = bound

theorem AnalysisState.Signs.mono {bound : Bool} (hp : s.Signs bound p x) (h : s.Grown t) :
    t.Signs bound p x := by
  have hx : t.tree.symbol x = s.tree.symbol x :=
    h.tree.symbol x hp.symbol (Symbol.kind_ne_delegate hp.isCallable)
  refine ⟨h.tree.hasSymbol x hp.symbol, ?_, ?_, ?_, ?_⟩ <;> rw [hx]
  · exact hp.isCallable
  · exact hp.params
  · exact h.tree.hasScope _ hp.scope
  · rw [(h.tree.scope _ hp.scope).kind]
    exact hp.bound

/-- A procedure has a scope and a symbol. It is one of a type, or it is not. -/
def Procedure.Declared (s : AnalysisState) (owned : Bool) (p : Procedure Note) : Prop :=
  p.info.scope ≠ none ∧ (s.Failed ∨ ∃ x, p.info.symbol = some x ∧
    s.Signs (owned && !p.modifiers.isShared) p x)

theorem Procedure.Declared.mono (hp : Procedure.Declared s owned p)
    (h : s.Grown t) : p.Declared t owned :=
  ⟨hp.1, hp.2.imp h.failed fun ⟨x, hx, hs⟩ => ⟨x, hx, hs.mono h⟩⟩

namespace Decl

/-- A member of a class has what the second visit gives it. -/
def DeclaredMember (s : AnalysisState) : Decl Note → Prop
  | .proc p | .template _ (.proc p) => p.Declared s true
  | .var d => s.Failed ∨ ∃ x, d.info.symbol = some x ∧ s.tree.HasSymbol x
  | _ => True

theorem DeclaredMember.mono (hd : DeclaredMember s d) (h : s.Grown t) : d.DeclaredMember t := by
  unfold DeclaredMember at hd ⊢
  split at hd
  · exact hd.mono h
  · exact hd.mono h
  · exact hd.imp h.failed fun ⟨x, hx, hhas⟩ => ⟨x, hx, h.tree.hasSymbol x hhas⟩
  · trivial

mutual

/-- Each procedure has a scope too. -/
def Declared (s : AnalysisState) (owned : Bool) : Decl Note → Prop
  | .nspace i _ ds | .module i _ ds => i.scope ≠ none ∧ DeclaredList s ds
  | .cls i _ ds =>
    s.Failed ∨ i.scope ≠ none ∧ (∀ d ∈ ds, d.DeclaredMember s) ∧ i.Typed s
  | .proc p | .extension _ _ p => p.Declared s owned
  | .template _ d => d.Declared s owned
  | .uses .. | .imports .. | .interface .. | .record .. | .var _ | .const _ | .typeDefine ..
  | .delegate _ => True

def DeclaredList (s : AnalysisState) : List (Decl Note) → Prop
  | [] => True
  | d :: ds => d.Declared s false ∧ DeclaredList s ds

end

mutual

theorem Declared.mono {owned : Bool} (h : s.Grown t) : {d : Decl Note} → d.Declared s owned →
    d.Declared t owned
  | .nspace .., hd | .module .., hd => ⟨hd.1, DeclaredList.mono h hd.2⟩
  | .cls .., hd => hd.imp h.failed fun hd => ⟨hd.1, fun d hm => (hd.2.1 d hm).mono h, hd.2.2.mono h⟩
  | .template _ d, hd => Declared.mono (d := d) h hd
  | .proc _, hd | .extension .., hd => Procedure.Declared.mono hd h
  | .uses .., _ | .imports .., _ | .interface .., _ | .record .., _ | .var _, _
  | .const _, _ | .typeDefine .., _ | .delegate _, _ => trivial

theorem DeclaredList.mono (h : s.Grown t) : {ds : List (Decl Note)} →
    DeclaredList s ds → DeclaredList t ds
  | [], _ => trivial
  | _ :: _, hds => ⟨Declared.mono h hds.1, DeclaredList.mono h hds.2⟩

end

/-- A member of a class is laid out, or it has no scope. -/
def LaidMember (s : AnalysisState) : Decl Note → Prop
  | .proc p | .template _ (.proc p) => p.Laid s
  | .var d => s.Failed ∨ d.info.symbol.isSome
  | d => d.FormedMember (·.scope = none)

theorem LaidMember.mono (hd : LaidMember s d) (h : s.Grown t) (hl : s.Prepares [] t) :
    d.LaidMember t := by
  unfold LaidMember at hd ⊢
  split at hd
  · exact hd.mono h hl
  · exact hd.mono h hl
  · exact hd.imp_left h.failed
  · exact hd

mutual

/-- Types have symbols, and procedures are laid out. -/
def Laid (s : AnalysisState) : Decl Note → Prop
  | .nspace i _ ds | .module i _ ds => i.scope ≠ none ∧ LaidList s ds
  | .cls i _ ds => s.Failed ∨ i.scope ≠ none ∧ i.Typed s ∧ ∀ d ∈ ds, d.LaidMember s
  | .record i _ _ _ => s.Failed ∨ i.Typed s
  | .proc p | .extension _ _ p => p.Laid s
  | .template _ d => d.Laid s
  | .uses .. | .imports .. | .interface .. | .var _ | .const _ | .typeDefine .. | .delegate _ => True

def LaidList (s : AnalysisState) : List (Decl Note) → Prop
  | [] => True
  | d :: ds => d.Laid s ∧ LaidList s ds

end

mutual

theorem Laid.mono (h : s.Grown t) (hl : s.Prepares [] t) : {d : Decl Note} → d.Laid s → d.Laid t
  | .nspace .., hd | .module .., hd => ⟨hd.1, LaidList.mono h hl hd.2⟩
  | .cls .., hd =>
    hd.imp h.failed fun hd => ⟨hd.1, hd.2.1.mono h, fun d hm => (hd.2.2 d hm).mono h hl⟩
  | .record .., hd => hd.imp h.failed (·.mono h)
  | .proc _, hd | .extension .., hd => Procedure.Laid.mono hd h hl
  | .template _ d, hd => Laid.mono (d := d) h hl hd
  | .uses .., _ | .imports .., _ | .interface .., _ | .var _, _ | .const _, _ | .typeDefine .., _
  | .delegate _, _ => trivial

theorem LaidList.mono (h : s.Grown t) (hl : s.Prepares [] t) : {ds : List (Decl Note)} →
    LaidList s ds → LaidList t ds
  | [], _ => trivial
  | _ :: _, hds => ⟨Laid.mono h hl hds.1, LaidList.mono h hl hds.2⟩

end

end Decl

/-! ### Classes -/

theorem TypeShape.eq_cls {shape : TypeShape} (h : shape.kind = .cls) : shape = .cls := by
  cases shape <;> first | rfl | cases h

namespace Decl

mutual

/-- The heads of the classes that are declared outside of classes. -/
def heads {α : Type} : Decl α → List ClassHead
  | .nspace _ _ ds | .module _ _ ds => headsList ds
  | .cls _ h _ => [h]
  | .template _ d => d.heads
  | _ => []

def headsList {α : Type} : List (Decl α) → List ClassHead
  | [] => []
  | d :: ds => d.heads ++ headsList ds

end

mutual

theorem heads_map {α β : Type} {f : α → β} : (d : Decl α) → (d.map f).heads = d.heads
  | .nspace _ _ ds | .module _ _ ds => headsList_map ds
  | .template _ d => heads_map d
  | .cls .. | .uses .. | .imports .. | .interface .. | .record .. | .proc _ | .var _ | .const _
  | .typeDefine .. | .delegate _ | .extension .. => rfl

theorem headsList_map {α β : Type} {f : α → β} :
    (ds : List (Decl α)) → headsList (mapList f ds) = headsList ds
  | [] => rfl
  | d :: ds => by rw [mapList, headsList, headsList, heads_map d, headsList_map ds]

end

end Decl

/-- A class has the base that its head names. -/
def AnalysisState.Extends (s : AnalysisState) (h : ClassHead) (a : TypeId) : Prop :=
  s.types.find? h.name = some a ∧
    ∃ b, s.types.find? (lastSegment h.base) = some b ∧ s.types.base a = some b

theorem AnalysisState.Extends.mono (he : s.Extends h a)
    (ht : s.Grown t) (hb : t.types.base a = s.types.base a) : t.Extends h a := by
  obtain ⟨ha, b, hfind, hbase⟩ := he
  exact ⟨ht.keeps.find _ _ ha, b, ht.keeps.find _ _ hfind, hb.trans hbase⟩

namespace Analyze

open AnalysisState
open Decl (ReadyList Settled SettledList DeclaredList FormedList LaidList)

/-- The classes among some declarations have the bases that they name, if no error was reported. -/
def ExtendsAll (s : AnalysisState) (l : List TypeId) (hs : List ClassHead) : Prop :=
  ∀ h ∈ hs, h.base.isEmpty = false → s.Failed ∨ ∃ a ∈ l, s.Extends h a

/-! ### Procedures -/

theorem paramDecls_lays (h : s.tree.HasScope scope)
    (hl : (s.tree.scope scope).kind.isLocal = true) :
    Lays L v [scope] s (paramDecls scope ps) fun t infos =>
      s.tree.Enters t.tree scope (ps.map (·.name)) ∧ infos.length = ps.length ∧
        (∀ p ∈ infos, ∃ a, p.type = some a ∧ t.types.Has a) ∧
        (t.Failed ∨ Declaration.InOrder s.tree.symbols.size t.tree.symbols.size
          (((ps.map (·.name)).filterMap (t.tree.findLocal? scope)).map .new)) := by
  induction ps generalizing s with
  | nil => exact .pure ⟨.of_same (.refl _ _), rfl, by simp, .inr (Nat.le_refl _)⟩
  | cons p ps ih =>
    unfold paramDecls
    refine typeOf_lays.bind fun ty t _ ⟨ht, hty⟩ => ?_
    rw [← ht.tree] at h hl ⊢
    refine (Lays.define (by simp) h (fun _ => hl) (.of_type hty rfl rfl rfl rfl rfl)).bind
      fun o u hu ⟨_, henters, _, hfound, horder⟩ => ?_
    have hrest (q : AnalysisState) (hq : u.Advances L v [scope] q) (hquiet : u.Quiet q)
        (ho : q.Failed ∨ o ≠ none) : Lays L v [scope] q (do
          let infos ← paramDecls scope ps
          return { name := p.name, type := some ty, isOptional := p.isOptional : ParamInfo } :: infos)
          fun w infos => t.tree.Enters w.tree scope (p.name :: ps.map (·.name)) ∧
            infos.length = ps.length + 1 ∧ (∀ p ∈ infos, ∃ a, p.type = some a ∧ w.types.Has a) ∧
            (w.Failed ∨ Declaration.InOrder t.tree.symbols.size w.tree.symbols.size
              (((p.name :: ps.map (·.name)).filterMap (w.tree.findLocal? scope)).map .new)) := by
      rw [← hquiet.tree] at henters hfound horder
      have hg := (hu.trans hq).tree
      refine (ih (hg.hasScope scope h) ((hg.scope scope h).kind ▸ hl)).bind
        fun _ w hw ⟨he, hlength, htypes, hnumbered⟩ =>
          .pure ⟨henters.trans he, congrArg (· + 1) hlength, ?_, ?_⟩
      · exact List.forall_mem_cons.mpr ⟨⟨ty, rfl, ((hu.trans hq).trans hw).has hty⟩, htypes⟩
      · rcases ho with hf | ho
        · exact .inl (hw.failed hf)
        · obtain ⟨x, rfl⟩ := Option.ne_none_iff_exists'.mp ho
          rw [List.filterMap_cons_some (he.kept _ _ (hfound x rfl))]
          exact hnumbered.imp_right horder.append
    cases o with
    | none => exact .bind .fails fun _ q hq h => hrest q hq h.1 (.inl h.2)
    | some x => exact Lays.refer.bind fun _ q hq h => hrest q hq h (.inr nofun)

/-- The scope that a procedure gets. It does not say yet what the procedure returns. -/
structure OpensProcedure (s t : AnalysisState) (p : Procedure Note)
    (r : ScopeId × TypeId × List ParamInfo) : Prop where
  fresh : ¬s.tree.HasScope r.1
  furnished : t.tree.Furnished r.1 (p.params.map (·.name))
  numbered : t.Failed ∨ t.tree.Numbered r.1 (p.params.map (·.name))
  void : p.isFunction = false → r.2.1 = .void
  type : t.types.Has r.2.1
  length : r.2.2.length = p.params.length
  params : ∀ p ∈ r.2.2, ∃ a, p.type = some a ∧ t.types.Has a

theorem procedureScope_lays (h : s.tree.Outside scope) :
    LaysBut L .members own (fun r => [r.1]) s (procedureScope scope p)
      fun t r => OpensProcedure s t p r := by
  unfold procedureScope
  have hkind : (if p.isFunction then ScopeKind.function else .subroutine).isProcedure = true := by
    split <;> rfl
  refine (LaysBut.openScope h.has (by split <;> rfl)).inside fun new t ht hnew =>
    ⟨hnew.fresh, .of_valid fun hv => (typeParams_lays hnew.has).bind fun _ u hu hown => ?_⟩
  have hlast (q : AnalysisState) (ty : TypeId) (hq : u.Advances L .members [new] q)
      (hquiet : u.Quiet q) (hty : p.isFunction = false → ty = .void) (hhas : q.types.Has ty) :
      Lays L .members [new] q (do
        let params ← paramDecls new p.params
        return (new, ty, params)) fun w r => r.1 = new ∧ OpensProcedure s w p r := by
    have hg := (hu.trans hq).tree
    have hproc : (q.tree.scope new).kind.isProcedure = true := by
      rw [(hg.scope new hnew.has).kind, hnew.kind]
      exact hkind
    refine (paramDecls_lays (hg.hasScope new hnew.has) (ScopeKind.isLocal_of_isProcedure hproc)).bind
      fun _ w hw ⟨henters, hlength, htypes, horder⟩ => .pure ⟨rfl, hnew.fresh, ?_,
        horder.imp_right (·.weaken (Nat.zero_le _)), hty, hw.has hhas, hlength, htypes⟩
    have hg' := hg.trans hw.tree
    refine ⟨hg'.hasScope new hnew.has, ?_, ?_, henters.found, fun e he => ?_⟩
    · rw [(hw.tree.scope new (hg.hasScope new hnew.has)).kind]
      exact hproc
    · rw [(hg'.scope new hnew.has).outer, hnew.outer_eq]
      intro o ho
      obtain ⟨hhas, hk⟩ := h o ho
      have hall := ht.tree.trans hg'
      exact ⟨hall.hasScope o hhas, (hall.scope o hhas).kind ▸ hk⟩
    · rcases henters.own e he with he | he
      · rw [hquiet.tree] at he
        rcases hown e he with he | hi
        · rw [hnew.adds.new] at he
          cases he
        · exact .inl (hi.mono (hq.toGrown.trans hw.toGrown).tree)
      · exact .inr he
  split
  · rename_i hf
    exact typeOf?_lays.bind fun ty q hq h => hlast q ty hq h.1 (by simp [hf]) h.2
  · exact hlast u .void (.refl u) (.refl u) (fun _ => rfl) (hu.has (hv.types.has_initial (by decide)))

/-- A procedure gets a scope, and a symbol unless an error is reported. -/
theorem procedure_lays (h : s.tree.Outside scope)
    (hclass : (s.tree.scope scope).kind.isClass = owned) :
    Lays L .members [] s (procedure scope owner p) fun t p' => (p.Ready s → p'.Ready t) ∧
      p'.Declared t owned ∧ p.Renoted p' ∧ p'.Laid t := by
  unfold procedure
  refine (procedureScope_lays h).fill fun ⟨sc, ty, params⟩ t ht hvt hr => ?_
  have hf := hr.furnished
  refine ⟨_, _, rfl, hr.fresh, hf.has, ?_, fun _ => ⟨rfl, rfl, rfl, rfl⟩, fun _ _ hc => .inl hc,
    fun t' ht' => ?_⟩
  · refine ⟨rfl, rfl, ⟨fun b hb => ?_, (hvt.scopes sc).classType⟩, fun h => ?_, fun _ => ?_⟩
    · cases hb
      exact hr.type
    · -- No visit asks for the return type before the third one.
      have hkind := hf.kind
      cases hk : (t.tree.scope sc).kind <;> rw [hk] at h hkind <;> cases h <;> cases hkind
    · simp [show (t.tree.scope sc).kind.isProcedure = true from hf.kind]
  have hin : t'.tree.Inside sc (some ty) := by
    rw [ht']
    exact ScopeTree.inside_own ty hf.has hf.kind fun o ho => (hf.outer o ho).1
  have hf' : t'.tree.Furnished sc (p.params.map (·.name)) := by
    rw [ht']
    exact hf.modifyScope fun _ => ⟨rfl, rfl, rfl, rfl⟩
  have hnumbered' : t'.Failed ∨ t'.tree.Numbered sc (p.params.map (·.name)) := by
    rw [ht']
    exact hr.numbered.imp_right (·.mono (Nat.le_refl _) (.modifyScope fun _ => ⟨rfl, rfl⟩))
  have hscope : t'.tree.Outside scope := by
    rw [ht']
    exact (h.mono ht.tree).frame (.modifyScope (fun _ => rfl) fun _ => rfl)
  have hclass' : (t'.tree.scope scope).kind.isClass = owned := by
    have hkind : (t'.tree.scope scope).kind = (t.tree.scope scope).kind := by
      rw [ht']
      exact ScopeTree.modifyScope_congr (r := Scope.kind) fun _ => rfl
    rw [hkind, (ht.tree.scope scope h.has).kind, hclass]
  have htypes : t'.types = t.types := by rw [ht', types_setTree]
  have hkind : (if p.isFunction then SymbolKind.function else .subroutine).isVariable = false := by
    split <;> rfl
  refine ((Lays.define (by simp) hscope.has (by simp [hkind]) ?_
    (by cases p.isFunction <;> rfl)).outside hscope).bind fun new u hu ⟨hnew, _⟩ => ?_
  · rw [htypes]
    refine ⟨fun b hb => ?_, fun b hb => ?_, hr.params, fun _ => rfl, fun _ => rfl, fun h => ?_⟩
    · cases hb
      exact hr.type
    · cases hb
      exact hr.type
    · dsimp only at h
      split at h <;> cases h
  cases new with
  | none =>
    refine .bind .fails fun _ q hq ⟨_, hfail⟩ => .pure
      ⟨fun hp => ⟨hp.body, hp.defaults, ?_⟩, ⟨by simp, .inl hfail⟩, ⟨rfl, rfl⟩, .inl hfail⟩
    rintro _ ⟨⟩
    exact ⟨some ty, hin.mono (hu.trans hq).tree, fun _ _ => .inl hfail⟩
  | some x =>
    obtain ⟨hx, hsym⟩ := hnew x rfl
    have hinert : u.tree.Inert x := ⟨hx, by rw [hsym]; exact hkind⟩
    have hsigns : u.Signs (owned && !p.modifiers.isShared) p x := by
      refine ⟨hx, ?_, ?_, ?_, ?_⟩ <;> rw [hsym]
      · dsimp only [Symbol.isCallable]
        split <;> rfl
      · exact hr.length
      · exact hu.tree.hasScope scope hscope.has
      · rw [(hu.tree.scope scope hscope.has).kind, hclass', Bool.and_comm]
    have hdone (q : AnalysisState) (hq : u.Advances L .members [] q) : Lays L .members [] q
        (return { p with info := { p.info with scope := some sc, symbol := some x } }) fun t p' =>
          (p.Ready s → p'.Ready t) ∧ p'.Declared t owned ∧ p.Renoted p' ∧ p'.Laid t := by
      have hend := hsigns.mono hq.toGrown
      have hg := hu.trans hq
      have hsame := hg.prepares.locals sc hf'.isLocal (by simp)
      refine .pure ⟨fun hp => ⟨hp.body, hp.defaults, ?_⟩, ⟨by simp, .inr ⟨x, rfl, hend.symbol,
        hend.isCallable, hend.params, hend.scope, hend.bound⟩⟩, ⟨rfl, rfl⟩,
        hnumbered'.imp hg.failed fun hn =>
          ⟨rfl, sc, rfl, hf'.mono hg.tree hsame, hn.mono hg.tree.size_le hsame⟩⟩
      rintro _ ⟨⟩
      refine ⟨some ty, hin.mono hg.tree, ?_⟩
      rintro _ ⟨⟩
      refine .inr (AnalysisState.Returns.mono ⟨hx, by rw [hsym], ?_⟩ hq.toGrown)
      rw [hsym]
      cases hf : p.isFunction with
      | true => exact .inl rfl
      | false => exact .inr ⟨rfl, congrArg some (hr.void hf)⟩
    refine (Lays.addMember hinert).bind fun _ q hq _ => Lays.refer.bind fun _ w hw _ => ?_
    split
    · exact (Lays.writeRest rfl rfl rfl fun _ he => .inl he).bind fun _ z hz _ =>
        hdone z ((hq.trans hw).trans hz)
    · exact hdone w (hq.trans hw)

theorem procedures_lays (h : s.tree.Outside scope) :
    Lays L .members [] s (procedures scope owner ps) fun _ ps' =>
      ps'.map (·.map Note.loc) = ps.map (·.map Note.loc) ∧
        ps'.flatMap Procedure.nodes = ps.flatMap Procedure.nodes := by
  induction ps generalizing s with
  | nil => exact .pure ⟨rfl, rfl⟩
  | cons p ps ih =>
    refine (procedure_lays h rfl).bind fun p' t ht ⟨_, _, hp, _⟩ =>
      (ih (h.mono ht.tree)).bind fun ps' _ _ hps => .pure ⟨?_, ?_⟩
    · rw [List.map_cons, List.map_cons, hps.1, hp.map]
    · rw [List.flatMap_cons, List.flatMap_cons, hps.2, hp.nodes]

/-! ### Members of types -/

theorem field_lays (h : s.tree.Outside scope) : Lays L v [] s (field scope owner d) fun t d' =>
    d.Renoted d' ∧ (t.Failed ∨ ∃ x, d'.info.symbol = some x ∧ t.tree.HasSymbol x) := by
  unfold field
  refine typeOf?_lays.bind fun ty t ht ⟨_, hty⟩ => ?_
  have hscope := h.mono ht.tree
  refine ((Lays.define (by simp) hscope.has (by simp [SymbolKind.isVariable])
    (.of_type hty rfl rfl rfl rfl rfl)).outside hscope).bind fun o u _ ⟨hnew, _⟩ => ?_
  cases o with
  | none => exact .bind .fails fun _ _ _ hfail => .pure ⟨⟨rfl, rfl⟩, .inl hfail.2⟩
  | some x =>
    obtain ⟨hx, hsym⟩ := hnew x rfl
    exact (Lays.addMember ⟨hx, by rw [hsym]; rfl⟩).bind fun _ _ hv _ => Lays.refer.bind fun _ _ hw _ =>
      .pure ⟨⟨rfl, rfl⟩, .inr ⟨x, rfl, hw.tree.hasSymbol x (hv.tree.hasSymbol x hx)⟩⟩

theorem fields_lays (h : s.tree.Outside scope) :
    Lays L v [] s (fields scope owner ds) fun _ ds' =>
      ds'.map (·.map Note.loc) = ds.map (·.map Note.loc) ∧
        ds'.flatMap (·.init.elim [] Expr.nodes) = ds.flatMap (·.init.elim [] Expr.nodes) := by
  induction ds generalizing s with
  | nil => exact .pure ⟨rfl, rfl⟩
  | cons d ds ih =>
    refine (field_lays h).bind fun d' t ht ⟨hd, _⟩ =>
      (ih (h.mono ht.tree)).bind fun ds' _ _ hds => .pure ⟨?_, ?_⟩
    · rw [List.map_cons, List.map_cons, hds.1, hd.map]
    · rw [List.flatMap_cons, List.flatMap_cons, hds.2, hd.rest]

/-- A class gets the base that it names, or else an error is reported. -/
theorem baseClass_lays (hL : L a) (hlate : ¬Catalog.initial.Has a)
    (hhas : s.types.Has a) (hshape : s.types.shape a = .cls)
    (hfind : s.types.find? h.name = some a) :
    Lays L v own s (baseClass loc h a) fun t _ =>
      h.base.isEmpty = false → t.Failed ∨ t.Extends h a := by
  unfold baseClass
  refine .of_valid fun hs => .types ?_
  split
  · rename_i hempty
    exact .pure fun h => absurd (hempty.symm.trans h) nofun
  · split
    · exact .mono .fails fun _ _ _ hfail _ => .inl hfail.2
    · rename_i b hb
      split
      · exact .mono .fails fun _ _ _ hfail _ => .inl hfail.2
      split
      · exact .mono .fails fun _ _ _ hfail _ => .inl hfail.2
      · rename_i hb' hnot
        have hsucc : s.types.Succeeds L (s.types.setBase a b) fun _ => False :=
          .setBase hs.types hhas hlate hshape (hs.types.find hb) (of_not_not hb')
            (by simpa using hnot) hL
        refine (Lays.ofTypes rfl fun _ => hsucc).mono fun t _ _ ht _ => .inr ?_
        rw [ht.1]
        refine ⟨hsucc.keeps.find _ _ hfind, b, hsucc.keeps.find _ _ hb, ?_⟩
        rw [types_setTypes, Catalog.base, Catalog.setBase, Catalog.info_modify_self hhas]

theorem interfaces_lays (hlate : ¬Catalog.initial.Has a)
    (hhas : s.types.Has a) (hshape : s.types.shape a = .cls) :
    Lays L v own s (interfaces loc a names) fun _ _ => True := by
  induction names generalizing s with
  | nil => exact .pure trivial
  | cons name names ih =>
    have hrest (t : AnalysisState) (ht : s.Advances L v own t) :
        Lays L v own t (interfaces loc a names) fun _ _ => True :=
      ih (ht.has hhas) ((ht.keeps.shape hhas).trans hshape)
    unfold interfaces
    refine .of_valid fun hs => .types ?_
    split
    · exact .bind .fails fun _ t ht _ => hrest t ht
    · rename_i b hb
      split
      · exact .bind .fails fun _ t ht _ => hrest t ht
      · rename_i hb'
        exact (Lays.ofTypes rfl fun _ => .addInterface hs.types hlate hshape (hs.types.find hb)
          (of_not_not hb')).bind fun _ t ht _ => hrest t ht

section

variable (hs : s.tree.Outside scope) (hclass : (s.tree.scope scope).kind.isClass = true)

include hs hclass

theorem classMember_lays (hd : d.Ready s) :
    Lays L .members [] s (classMember scope owner d) fun t d' => d'.Ready t ∧ d'.DeclaredMember t ∧
      (d.FormedMember (·.scope = none) → d'.LaidMember t) ∧ d'.map Note.loc = d.map Note.loc ∧
      d'.nodes = d.nodes ∧ (d.isField = false → d.isMethod = false → d' = d) := by
  unfold classMember
  split
  · rw [Decl.Ready] at hd
    refine (procedure_lays hs hclass).bind fun p t _ ⟨hready, hdeclared, hp, hlaid⟩ =>
      .pure ⟨?_, hdeclared, fun _ => hlaid, hp.noted.same, hp.nodes, fun _ => nofun⟩
    exact hready hd
  · rw [Decl.Ready, Decl.Ready] at hd
    refine (procedure_lays hs hclass).bind fun p t _ ⟨hready, hdeclared, hp, hlaid⟩ =>
      .pure ⟨?_, hdeclared, fun _ => hlaid, (hp.noted.template _).same, hp.nodes, fun _ => nofun⟩
    exact hready hd
  · rw [Decl.Ready] at hd
    refine (field_lays hs).bind fun d t _ ⟨hf, hsome⟩ => .pure
      ⟨?_, hsome, fun _ => hsome.imp_right fun ⟨x, hx, _⟩ => by simp [hx], congrArg Decl.var hf.map, ?_, nofun⟩
    · rw [Decl.Ready, hf.rest]
      exact hd
    · rw [Decl.nodes, Decl.nodes, hf.rest]
  · rename_i hproc htemplate hvar
    refine .pure ⟨hd, ?_, fun hform => ?_, rfl, rfl, fun _ _ => rfl⟩
    · unfold Decl.DeclaredMember
      split
      · exact absurd rfl (hproc _)
      · exact absurd rfl (htemplate _ _)
      · exact absurd rfl (hvar _)
      · trivial
    · unfold Decl.LaidMember
      split
      · exact absurd rfl (hproc _)
      · exact absurd rfl (htemplate _ _)
      · exact absurd rfl (hvar _)
      · exact hform

theorem classMembers_lays (hds : ReadyList s ds) :
    Lays L .members [] s (classMembers scope owner ds) fun t ds' =>
      ReadyList t ds' ∧ (∀ d ∈ ds', d.DeclaredMember t) ∧
        ((∀ d ∈ ds, d.FormedMember (·.scope = none)) → ∀ d ∈ ds', d.LaidMember t) ∧
        Decl.mapList Note.loc ds' = Decl.mapList Note.loc ds ∧
        Decl.nodesList ds' = Decl.nodesList ds ∧
        ∀ d ∈ ds', d.isField = false → d.isMethod = false → d ∈ ds := by
  induction ds generalizing s with
  | nil => exact .pure ⟨hds, by simp, by simp, rfl, rfl, by simp⟩
  | cons d ds ih =>
    refine (classMember_lays hs hclass hds.1).bind fun d' t ht hd =>
      (ih (hs.mono ht.tree) ((ht.tree.scope scope hs.has).kind ▸ hclass) (hds.2.mono ht.toGrown)).bind
        fun ds' u hu hds => .pure ⟨?_, ?_, ?_, ?_, ?_, ?_⟩
    · rw [ReadyList]
      exact ⟨hd.1.mono hu.toGrown, hds.1⟩
    · exact List.forall_mem_cons.mpr ⟨hd.2.1.mono hu.toGrown, hds.2.1⟩
    · intro hform
      obtain ⟨hform, hforms⟩ := List.forall_mem_cons.mp hform
      exact List.forall_mem_cons.mpr ⟨(hd.2.2.1 hform).mono hu.toGrown hu.prepares, hds.2.2.1 hforms⟩
    · rw [Decl.mapList, Decl.mapList, hd.2.2.2.1, hds.2.2.2.1]
    · rw [Decl.nodesList, Decl.nodesList, hd.2.2.2.2.1, hds.2.2.2.2.1]
    · intro c hc hf hm
      rcases List.mem_cons.mp hc with rfl | hc
      · rw [Decl.isField_eq_of_map hd.2.2.2.1] at hf
        rw [Decl.isMethod_eq_of_map hd.2.2.2.1] at hm
        exact hd.2.2.2.2.2 hf hm ▸ List.mem_cons_self
      · exact List.mem_cons_of_mem d (hds.2.2.2.2.2 c hc hf hm)

end

theorem delegate_lays (hx : s.tree.HasSymbol x) (hk : (s.tree.symbol x).kind = .delegate) :
    Lays L v own s (delegate scope d x) fun _ _ => True := by
  unfold delegate
  have hparams : Lays L v own s (d.params.mapM fun p => do
      let t ← typeOf scope p.type p.loc
      return ({ name := p.name, type := some t, isOptional := p.isOptional } : ParamInfo))
      fun t ps => ∀ p ∈ ps, ∃ a, p.type = some a ∧ t.types.Has a :=
    .mapM (fun _ _ _ ht ⟨a, ha, hhas⟩ => ⟨a, ha, ht.has hhas⟩) fun p _ _ =>
      typeOf_lays.bind fun a _ _ ha => .pure ⟨a, rfl, ha.2⟩
  refine .of_valid fun hs => hparams.bind fun ps t ht hps => ?_
  have hlast (u : AnalysisState) (a : TypeId) (hu : t.Advances L v own u) (ha : u.types.Has a) :
      Lays L v own u (write fun s => { s with
        tree := s.tree.modifySymbol x fun x => { x with params := ps, returnType := some a } })
        fun _ _ => True := by
    refine .modifySymbol (fun _ => rfl) (fun _ => rfl) (fun _ => rfl)
      (((ht.trans hu).tree.kind x hx).trans hk) fun y hy => ⟨hy.type, fun b hb => ?_, fun p hp => ?_,
        hy.typed, fun _ => rfl, hy.inner⟩
    · cases hb
      exact ha
    · obtain ⟨b, hb, hhas⟩ := hps p hp
      exact ⟨b, hb, hu.has hhas⟩
  cases hf : d.isFunction with
  | true => exact typeOf?_lays.bind fun a u hu ha => hlast u a hu ha.2
  | false => exact hlast t .void (.refl t) (ht.has (hs.types.has_initial (by decide)))

theorem aliases_lays :
    Lays L v own s (aliases scope ds) fun _ _ => True := by
  induction ds generalizing s with
  | nil =>
    unfold aliases
    exact .pure trivial
  | cons d ds ih =>
    cases d with
    | typeDefine i name r =>
      unfold aliases
      refine typeOf_lays.bind fun a t _ ha => .of_valid fun hs => .types ?_
      split
      · exact .bind .fails fun _ _ _ _ => ih
      · rename_i c hc
        exact (Lays.ofTypes rfl fun _ => .defineAlias hs.types ha.2 hc).bind
          fun _ _ _ _ => ih
    | _ =>
      unfold aliases
      exact ih

/-! ### Declarations -/

mutual

theorem memberDecl_visits : (d : Decl Note) → ∀ {s scope l}, s.tree.Spacious scope → d.Ready s →
    d.Settled s l → l.Nodup → Visits (· ∈ l) .members s (memberDecl scope d) fun t d' =>
      (d'.Ready t ∧ d'.Declared t false ∧ d.Noted d' ∧ (d.Formed (·.scope = none) → d'.Laid t)) ∧
        ExtendsAll t l d.heads
  | .nspace i n ds, s, scope, l, hs, hd, ho, hl | .module i n ds, s, scope, l, hs, hd, ho, hl => by
    obtain ⟨sc, hi⟩ := Option.isSome_iff_exists.mp ho.1
    unfold memberDecl
    rw [hi]
    refine (Visits.lift aliases_lays).bind fun _ t ht _ =>
      (memberDecls_visits ds (ScopeTree.Spacious.mono (hd.1 sc hi) ht.tree) (hd.2.mono ht.toGrown)
        (ho.2.mono ht) hl).bind fun ds u hu ⟨hds, hbases⟩ => .pure ⟨?_, hbases⟩
    refine ⟨⟨hd.1.mono (ht.trans hu).toGrown, hds.1⟩, ⟨by simp [hi], hds.2.1⟩,
      ⟨?_, hds.2.2.1.nodes, hds.2.2.1.closed⟩, fun hform => ⟨by simp [hi], hds.2.2.2 hform⟩⟩
    rw [Decl.map, Decl.map, hds.2.2.1.same]
  | .cls i h ds, s, scope, l, hs, hd, ho, hl => by
    have hd' := hd
    unfold memberDecl
    simp only [ExtendsAll, Decl.heads, List.forall_mem_singleton]
    obtain ⟨hnone, hfail, -⟩ | ⟨a, rfl, hopens⟩ := ho
    · rw [hnone]
      refine .pure ⟨⟨hd', ?_, .refl _, fun _ => ?_⟩, fun _ => .inl hfail⟩
      · rw [Decl.Declared]
        exact .inl hfail
      · rw [Decl.Laid]
        exact .inl hfail
    · obtain ⟨sc, hi, hsc, hclass⟩ := hopens.scope
      rw [hi]
      refine .of_valid fun hv => .tree ?_
      rw [hclass]
      have hlate := ((hv.scopes sc).classType a hclass).2
      have hshape : s.types.shape a = .cls := TypeShape.eq_cls hopens.kind
      refine (Visits.lift (baseClass_lays (List.mem_singleton.mpr rfl) hlate hopens.has hshape
        hopens.found)).bind fun _ t ht hbase => ?_
      have hhas := ht.has hopens.has
      refine (Visits.lift ((interfaces_lays (L := fun _ => False) hlate hhas
        ((ht.keeps.shape hopens.has).trans hshape)).weaken fun _ h => h.elim)).bind
          fun _ u hu ⟨hfree, _⟩ => ?_
      have htu := ht.trans hu
      obtain ⟨hout, hisClass⟩ := hd.1.mono htu.toGrown sc hi
      refine (Visits.lift ((classMembers_lays (L := fun _ => False) hout hisClass
        (hd.2.mono htu.toGrown)).weaken fun _ h => h.elim)).bind
          fun ds' q hq ⟨hfree', hready, hdeclared, hlaid, hsame, hnodes, hclosed⟩ => .pure ?_
      have hsq := htu.trans hq
      have htyped := hopens.typed.mono hsq.toGrown
      refine ⟨⟨⟨hd.1.mono hsq.toGrown, hready⟩, .inr ⟨by simp [hi], hdeclared, htyped⟩,
        ⟨?_, hnodes, fun h d hd hf hm => h d (hclosed d hd hf hm) hf hm⟩,
        fun hform => .inr ⟨by simp [hi], htyped, hlaid hform⟩⟩, fun hne => ?_⟩
      · rw [Decl.map, Decl.map, hsame]
      · refine (hbase hne).imp (hu.trans hq).failed fun he => ⟨a, List.mem_singleton.mpr rfl, ?_⟩
        exact he.mono (hu.trans hq).toGrown ((hfree'.along.base (hu.has hhas) id).trans
          (hfree.along.base hhas id))
  | .interface i n ps, s, scope, l, hs, hd, ho, hl => by
    have hd' := hd
    unfold memberDecl
    cases hi : i.scope with
    | none =>
      exact .pure ⟨⟨hd', by rw [Decl.Declared]; trivial, .refl _, by simp [Decl.Laid]⟩,
        by simp [ExtendsAll, Decl.heads]⟩
    | some sc =>
      refine .tree <| (Visits.lift (procedures_lays (hd sc hi).1)).bind fun _ t ht hps => .pure ?_
      exact ⟨⟨hd.mono ht.toGrown, trivial, ⟨by rw [Decl.map, Decl.map, hps.1], hps.2, fun h => h⟩,
        by simp [Decl.Laid]⟩, by simp [ExtendsAll, Decl.heads]⟩
  | .record i k n vs, s, scope, l, hs, hd, ho, hl => by
    have hd' := hd
    unfold memberDecl
    cases hi : i.scope with
    | none =>
      refine .pure ⟨⟨hd', by rw [Decl.Declared]; trivial, .refl _, fun _ => ?_⟩,
        by simp [ExtendsAll, Decl.heads]⟩
      exact ho.2
    | some sc =>
      refine .tree <| (Visits.lift (fields_lays (hd sc hi).1)).bind fun _ t ht hvs => .pure ?_
      exact ⟨⟨hd.mono ht.toGrown, trivial, ⟨by rw [Decl.map, Decl.map, hvs.1], hvs.2, fun h => h⟩,
        fun _ => ho.2.imp ht.failed (·.mono ht.toGrown)⟩, by simp [ExtendsAll, Decl.heads]⟩
  | .delegate d, s, scope, l, hs, hd, ho, hl => by
    have hd' := hd
    unfold memberDecl
    cases hx : d.info.symbol with
    | none =>
      exact .pure ⟨⟨hd', by rw [Decl.Declared]; trivial, .refl _, by simp [Decl.Laid]⟩,
        by simp [ExtendsAll, Decl.heads]⟩
    | some x =>
      obtain ⟨hsym, hk⟩ := hd x hx
      exact (Visits.lift (delegate_lays hsym hk)).bind fun _ t ht _ => .pure ⟨⟨hd'.mono ht.toGrown,
        by rw [Decl.Declared]; trivial, .refl _, by simp [Decl.Laid]⟩, by simp [ExtendsAll, Decl.heads]⟩
  | .proc p, s, scope, l, hs, hd, ho, hl => by
    unfold memberDecl
    refine (Visits.lift (procedure_lays hs.1 hs.2)).bind fun p t _ hp => .pure ?_
    exact ⟨⟨hp.1 hd, hp.2.1, hp.2.2.1.noted, fun _ => hp.2.2.2⟩, by simp [ExtendsAll, Decl.heads]⟩
  | .template i d, s, scope, l, hs, hd, ho, hl => by
    unfold memberDecl
    refine (memberDecl_visits d hs hd ho hl).bind fun d t _ ⟨hd, hbases⟩ => .pure ⟨?_, hbases⟩
    exact ⟨hd.1, hd.2.1, hd.2.2.1.template i, hd.2.2.2⟩
  | .extension i ty p, s, scope, l, hs, hd, ho, hl => by
    unfold memberDecl
    have hlast (t : AnalysisState) (ht : s.Advances (· ∈ l) .members [] t) :
        Visits (· ∈ l) .members t (do return Decl.extension i ty (← procedure scope none p))
        fun t d' => (d'.Ready t ∧ d'.Declared t false ∧ (Decl.extension i ty p).Noted d' ∧
          ((Decl.extension i ty p).Formed (·.scope = none) → d'.Laid t)) ∧
          ExtendsAll t l (Decl.extension i ty p).heads := by
      have hs' := ScopeTree.Spacious.mono hs ht.tree
      refine (Visits.lift (procedure_lays hs'.1 hs'.2)).bind fun p t _ hp => .pure ?_
      exact ⟨⟨hp.1 (hd.mono ht.toGrown), hp.2.1, ⟨congrArg (Decl.extension i.loc ty) hp.2.2.1.map,
        hp.2.2.1.nodes, fun h => h⟩, fun _ => hp.2.2.2⟩, by simp [ExtendsAll, Decl.heads]⟩
    refine .types ?_
    split
    · exact (Visits.lift (.report rfl)).bind fun _ t ht _ => hlast t ht
    · exact hlast s (.refl s)
  | .uses .., s, scope, l, hs, hd, ho, hl | .imports .., s, scope, l, hs, hd, ho, hl
  | .var _, s, scope, l, hs, hd, ho, hl | .const _, s, scope, l, hs, hd, ho, hl
  | .typeDefine .., s, scope, l, hs, hd, ho, hl => by
    unfold memberDecl
    exact .pure ⟨⟨hd, by rw [Decl.Declared]; trivial, .refl _, by simp [Decl.Laid]⟩,
      by simp [ExtendsAll, Decl.heads]⟩

theorem memberDecls_visits : (ds : List (Decl Note)) → ∀ {s scope l}, s.tree.Spacious scope →
    ReadyList s ds → SettledList s ds l → l.Nodup →
    Visits (· ∈ l) .members s (memberDecls scope ds) fun t ds' =>
      (ReadyList t ds' ∧ DeclaredList t ds' ∧ Decl.NotedList ds ds' ∧
        (FormedList (·.scope = none) ds → LaidList t ds')) ∧ ExtendsAll t l (Decl.headsList ds)
  | [], _, _, _, _, h, _, _ => by
    unfold memberDecls
    exact .pure ⟨⟨h, by rw [DeclaredList]; trivial, .refl _, by simp [LaidList]⟩,
      by simp [ExtendsAll, Decl.headsList]⟩
  | d :: ds, s, scope, l, hs, h, ho, hl => by
    obtain ⟨l₁, l₂, rfl, hd, hds⟩ := ho
    obtain ⟨hl₁, hl₂, hdisjoint⟩ := List.nodup_append.mp hl
    unfold memberDecls
    refine ((memberDecl_visits d hs h.1 hd hl₁).weaken fun _ => List.mem_append_left l₂).bind
      fun d' t ht ⟨_, hd, hbase⟩ => .of_valid fun hv =>
        ((memberDecls_visits ds (ScopeTree.Spacious.mono hs ht.tree) (h.2.mono ht.toGrown)
          (hds.mono ht) hl₂).weaken fun _ => List.mem_append_right l₁).bind
            fun ds' u hu ⟨hfree, hds, hbases⟩ =>
              .pure ⟨⟨?_, ?_, hd.2.2.1.cons hds.2.2.1, fun hform => ?_⟩, fun h hh hne => ?_⟩
    · rw [ReadyList]
      exact ⟨hd.1.mono hu.toGrown, hds.1⟩
    · rw [DeclaredList]
      exact ⟨hd.2.1.mono hu.toGrown, hds.2.1⟩
    · rw [FormedList] at hform
      exact ⟨(hd.2.2.2 hform.1).mono hu.toGrown hu.prepares, hds.2.2.2 hform.2⟩
    · rw [Decl.headsList] at hh
      obtain hh | hh := List.mem_append.mp hh
      · -- The types of the other declarations are others.
        refine (hbase h hh hne).imp hu.failed fun ⟨a, ha, he⟩ => ⟨a, List.mem_append_left l₂ ha, ?_⟩
        exact he.mono hu.toGrown (hfree.along.base (hv.types.find he.1) fun ha' =>
          hdisjoint a ha a ha' rfl)
      · exact (hbases h hh hne).imp_right fun ⟨a, ha, he⟩ => ⟨a, List.mem_append_right l₁ ha, he⟩

end

end Analyze

end BasicSSA
