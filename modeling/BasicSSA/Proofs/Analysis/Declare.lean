import BasicSSA.Proofs.Analysis.Layout
import BasicSSA.Proofs.Analysis.Places
import BasicSSA.Proofs.Analysis.Stmt

/-!
# What analysis does with declarations

`Decl.Ready` holds of a declaration before and after each visit. The first visit leaves declarations
`Settled`: each class has a type of its own, a symbol and a scope, or else an error was found.
-/

namespace BasicSSA

variable {s : AnalysisState}

/-- The symbol of a procedure with some return type. -/
structure AnalysisState.Returns (s : AnalysisState) (x : SymbolId) (r : Option TypeId) : Prop where
  symbol : s.tree.HasSymbol x
  returnType : (s.tree.symbol x).returnType = r
  kind : (s.tree.symbol x).kind = .function ∨
    (s.tree.symbol x).kind = .subroutine ∧ r = some .void

theorem AnalysisState.Returns.mono (hr : s.Returns x r) (h : s.Grown t) : t.Returns x r where
  symbol := h.tree.hasSymbol x hr.symbol
  returnType := by
    rw [h.tree.returnType hr.symbol, hr.returnType]
    rcases hr.kind with hk | ⟨hk, -⟩ <;> simp [hk]
  kind := by
    rw [h.tree.kind x hr.symbol]
    exact hr.kind

/-- The scope that a declaration has opened exists and lies in no procedure. It is the scope of the
members of a type, or it is not. -/
def Note.Placed (s : AnalysisState) (isClass : Bool) (i : Note) : Prop :=
  ∀ scope, i.scope = some scope →
    s.tree.Outside scope ∧ (s.tree.scope scope).kind.isClass = isClass

theorem Note.Placed.mono (hi : Note.Placed s isClass i) (h : s.Grown t) :
    i.Placed t isClass := by
  intro scope hs
  obtain ⟨ho, hk⟩ := hi scope hs
  exact ⟨ho.mono h.tree, (h.tree.scope scope ho.has).kind ▸ hk⟩

/-- The symbol of a type that a declaration has added. -/
structure AnalysisState.NamesType (s : AnalysisState) (x : SymbolId) : Prop where
  has : s.tree.HasSymbol x
  type : ∃ ty, (s.tree.symbol x).type = some ty ∧ ty.Added

theorem AnalysisState.NamesType.mono (hx : s.NamesType x) (h : s.Grown t) : t.NamesType x :=
  ⟨h.tree.hasSymbol x hx.has, h.tree.type x hx.has ▸ hx.type⟩

/-- A declaration has the symbol of a type. -/
def Note.Typed (s : AnalysisState) (i : Note) : Prop :=
  ∃ x, i.symbol = some x ∧ s.NamesType x

theorem Note.Typed.mono (hi : Note.Typed s i) (h : s.Grown t) : i.Typed t := by
  obtain ⟨x, hx, hnames⟩ := hi
  exact ⟨x, hx, hnames.mono h⟩

/-- A procedure whose body was not analysed yet. -/
structure Procedure.Ready (s : AnalysisState) (p : Procedure Note) : Prop where
  body : ∀ b, p.body = some b → ∀ n ∈ Stmt.nodesList b, n.Fresh
  defaults : ∀ q ∈ p.params, ∀ n ∈ q.default.elim [] Expr.nodes, n.Fresh
  scope : ∀ scope, p.info.scope = some scope → ∃ r, s.tree.Inside scope r ∧
    ∀ x, p.info.symbol = some x → s.Failed ∨ s.Returns x r

theorem Procedure.Ready.mono (hp : Procedure.Ready s p) (h : s.Grown t) : p.Ready t where
  body := hp.body
  defaults := hp.defaults
  scope scope hs := by
    obtain ⟨r, hin, hx⟩ := hp.scope scope hs
    exact ⟨r, hin.mono h.tree, fun x hsym => (hx x hsym).imp h.failed fun hr => hr.mono h⟩

namespace Decl

mutual

/-- A declaration whose bodies were not analysed yet and whose scopes exist. -/
def Ready (s : AnalysisState) : Decl Note → Prop
  | .nspace i _ ds | .module i _ ds => i.Placed s false ∧ ReadyList s ds
  | .cls i _ ds => i.Placed s true ∧ ReadyList s ds
  | .interface i _ _ | .record i _ _ _ => i.Placed s true
  | .proc p | .extension _ _ p => p.Ready s
  | .var d => ∀ n ∈ d.init.elim [] Expr.nodes, n.Fresh
  | .const d => ∀ n ∈ d.value.elim [] Expr.nodes, n.Fresh
  | .template _ d => d.Ready s
  | .delegate d => ∀ x, d.info.symbol = some x →
    s.tree.HasSymbol x ∧ (s.tree.symbol x).kind = .delegate
  | .uses .. | .imports .. | .typeDefine .. => True

def ReadyList (s : AnalysisState) : List (Decl Note) → Prop
  | [] => True
  | d :: ds => d.Ready s ∧ ReadyList s ds

end

mutual

theorem Ready.mono (h : s.Grown t) : {d : Decl Note} → d.Ready s → d.Ready t
  | .nspace .., hd | .module .., hd | .cls .., hd => ⟨hd.1.mono h, ReadyList.mono h hd.2⟩
  | .interface .., hd | .record .., hd => Note.Placed.mono hd h
  | .proc _, hd | .extension .., hd => Procedure.Ready.mono hd h
  | .var _, hd | .const _, hd => hd
  | .template _ d, hd => Ready.mono (d := d) h hd
  | .delegate _, hd => by
    intro x hx
    obtain ⟨hs, hk⟩ := hd x hx
    exact ⟨h.tree.hasSymbol x hs, (h.tree.kind x hs).trans hk⟩
  | .uses .., _ | .imports .., _ | .typeDefine .., _ => trivial

theorem ReadyList.mono (h : s.Grown t) : {ds : List (Decl Note)} → ReadyList s ds → ReadyList t ds
  | [], _ => trivial
  | _ :: _, hds => ⟨Ready.mono h hds.1, ReadyList.mono h hds.2⟩

end

end Decl

/-! ### Programs as they are read -/

theorem Expr.fresh_map {e : Option (Expr Loc)} :
    ∀ n ∈ (e.map (·.map Note.ofLoc)).elim [] Expr.nodes, n.Fresh := by
  cases e with
  | none => simp
  | some e =>
    intro n hn
    rw [Option.map_some, Option.elim_some, Expr.nodes_map] at hn
    obtain ⟨n, -, rfl⟩ := List.mem_map.mp hn
    exact n.fresh_map

theorem Procedure.ready_map (p : Procedure Loc) : (p.map Note.ofLoc).Ready s where
  body b hb n hn := by
    obtain ⟨b, -, rfl⟩ := Option.map_eq_some_iff.mp hb
    rw [Stmt.nodesList_map] at hn
    obtain ⟨n, -, rfl⟩ := List.mem_map.mp hn
    exact n.fresh_map
  defaults q hq := by
    obtain ⟨q, -, rfl⟩ := List.mem_map.mp hq
    exact Expr.fresh_map
  scope := nofun

namespace Decl

mutual

/-- A declaration as it was read is ready for the visits. -/
theorem ready_map : (d : Decl Loc) → (d.map Note.ofLoc).Ready s
  | .nspace _ _ ds | .module _ _ ds | .cls _ _ ds => ⟨nofun, readyList_map ds⟩
  | .interface .. | .record .. | .delegate _ => nofun
  | .proc p | .extension _ _ p => p.ready_map
  | .var _ | .const _ => Expr.fresh_map
  | .template _ d => ready_map d
  | .uses .. | .imports .. | .typeDefine .. => trivial

theorem readyList_map : (ds : List (Decl Loc)) → ReadyList s (mapList Note.ofLoc ds)
  | [] => trivial
  | d :: ds => ⟨ready_map d, readyList_map ds⟩

end

end Decl

/-! ### What the first visit leaves -/

/-- A declaration of a type with members has a type, under its name and with a symbol, and a scope
for the members. -/
structure Note.Opens (s : AnalysisState) (i : Note) (name : String) (kind : TypeKind) (a : TypeId) :
    Prop where
  scope : ∃ o, i.scope = some o ∧ s.tree.HasScope o ∧ (s.tree.scope o).classType = some a
  has : s.types.Has a
  kind : (s.types.shape a).kind = kind
  found : s.types.find? name = some a
  typed : i.Typed s

variable {i : Note}

theorem Note.Opens.mono {kind : TypeKind} (h : i.Opens s name kind a)
    (ht : s.Advances L v own t) : i.Opens t name kind a := by
  obtain ⟨o, ho, hhas, hclass⟩ := h.scope
  exact ⟨⟨o, ho, ht.tree.hasScope o hhas, (ht.tree.scope o hhas).classType.trans hclass⟩, ht.has h.has,
    (congrArg _ (ht.keeps.shape h.has)).trans h.kind, ht.keeps.find _ _ h.found,
    h.typed.mono ht.toGrown⟩

namespace Decl

mutual

/-- What the first visit leaves of a declaration, with the types of its classes. A class that has no
scope was rejected. -/
def Settled (s : AnalysisState) : Decl Note → List TypeId → Prop
  | .nspace i _ ds, l | .module i _ ds, l => i.scope.isSome = true ∧ SettledList s ds l
  | .cls i h _, l =>
    (i.scope = none ∧ s.Failed ∧ l = []) ∨ ∃ a, l = [a] ∧ i.Opens s h.name .cls a
  | .record i _ _ _, l => l = [] ∧ (s.Failed ∨ i.Typed s)
  | .template _ d, l => d.Settled s l
  | _, l => l = []

def SettledList (s : AnalysisState) : List (Decl Note) → List TypeId → Prop
  | [], l => l = []
  | d :: ds, l => ∃ l₁ l₂, l = l₁ ++ l₂ ∧ d.Settled s l₁ ∧ SettledList s ds l₂

end

mutual

theorem Settled.mono (ht : s.Advances L v own t) :
    {d : Decl Note} → ∀ {l}, d.Settled s l → d.Settled t l
  | .nspace .., _, h | .module .., _, h => ⟨h.1, SettledList.mono ht h.2⟩
  | .cls .., _, h => by
    obtain ⟨hn, hf, hl⟩ | ⟨a, hl, ha⟩ := h
    · exact .inl ⟨hn, ht.failed hf, hl⟩
    · exact .inr ⟨a, hl, ha.mono ht⟩
  | .record .., _, h => ⟨h.1, h.2.imp ht.failed (·.mono ht.toGrown)⟩
  | .template _ d, _, h => Settled.mono (d := d) ht h
  | .uses .., _, h | .imports .., _, h | .interface .., _, h | .proc _, _, h | .var _, _, h
  | .const _, _, h | .typeDefine .., _, h | .delegate _, _, h | .extension .., _, h => h

theorem SettledList.mono (ht : s.Advances L v own t) :
    {ds : List (Decl Note)} → ∀ {l}, SettledList s ds l → SettledList t ds l
  | [], _, h => h
  | d :: ds, _, h => by
    obtain ⟨l₁, l₂, hl, hd, hds⟩ := h
    exact ⟨l₁, l₂, hl, hd.mono ht, hds.mono ht⟩

end

end Decl

/-- The classes among some declarations get types that were not there before. -/
def AnalysisState.Introduces (s t : AnalysisState) (settled : List TypeId → Prop) : Prop :=
  ∃ l, settled l ∧ l.Nodup ∧ ∀ a ∈ l, ¬s.types.Has a ∧ t.types.Has a

namespace AnalysisState.Introduces

variable {P P' : List TypeId → Prop}

theorem of_nil (hp : P []) : s.Introduces t P :=
  ⟨[], hp, .nil, by simp⟩

theorem append (h : s.Introduces t P) (h' : t.Introduces u P₂) (ht : s.Advances L v own t)
    (hu : t.Advances L v own u) (hp : ∀ l, P l → P' l) :
    s.Introduces u fun l => ∃ l₁ l₂, l = l₁ ++ l₂ ∧ P' l₁ ∧ P₂ l₂ := by
  obtain ⟨l₁, hl₁, hnodup₁, hnew₁⟩ := h
  obtain ⟨l₂, hl₂, hnodup₂, hnew₂⟩ := h'
  refine ⟨l₁ ++ l₂, ⟨l₁, l₂, rfl, hp l₁ hl₁, hl₂⟩, ?_, fun a ha => ?_⟩
  · refine List.nodup_append.mpr ⟨hnodup₁, hnodup₂, fun a ha b hb hab => ?_⟩
    exact (hnew₂ b hb).1 (hab ▸ (hnew₁ a ha).2)
  · obtain ha | ha := List.mem_append.mp ha
    · exact ⟨(hnew₁ a ha).1, hu.has (hnew₁ a ha).2⟩
    · exact ⟨fun hs => (hnew₂ a ha).1 (ht.has hs), (hnew₂ a ha).2⟩

theorem before (h : t.Introduces u P) (ht : s.Advances L v own t) (hp : ∀ l, P l → P' l) :
    s.Introduces u P' := by
  obtain ⟨l, hl, hnodup, hnew⟩ := h
  exact ⟨l, hp l hl, hnodup, fun a ha => ⟨fun hs => (hnew a ha).1 (ht.has hs), (hnew a ha).2⟩⟩

end AnalysisState.Introduces

/-- A symbol that stands for a type, and says nothing else of it. -/
structure Symbol.Bare (x : Symbol) : Prop where
  inner : x.inner = none := by rfl
  returnType : x.returnType = none := by rfl
  params : x.params = [] := by rfl
  isVariable : x.kind.isVariable = false := by rfl
  hasType : x.kind.hasType = true := by rfl
  isCallable : x.kind.isCallable = false := by rfl
  nspace : decide (x.kind = .nspace) = false := by rfl

namespace Analyze

open AnalysisState
open Decl (ReadyList Settled SettledList)

/-! ### The first visit -/

theorem typeParams_lays (h : s.tree.HasScope scope) :
    Lays L v [scope] s (typeParams scope loc names) fun t _ =>
      ∀ e ∈ (t.tree.scope scope).symbols, e ∈ (s.tree.scope scope).symbols ∨ t.tree.Inert e.2 := by
  induction names generalizing s with
  | nil => exact .pure fun _ he => .inl he
  | cons name names ih =>
    unfold typeParams
    refine .of_valid fun hs => .tree ?_
    split
    · refine (Lays.ofTypes rfl fun _ => .parameter hs.types).bind fun ty t _ ht => ?_
      have hhas : t.types.Has ty := by
        rw [ht.1, ht.2]
        exact hs.types.parameter.2.2
      rw [show s.tree = t.tree by rw [ht.1, tree_setTypes]] at h ⊢
      refine (Lays.define (by simp) h (by simp [SymbolKind.isVariable])
        (.of_type hhas rfl rfl rfl rfl rfl)).bind fun new u hu ⟨hnew, _, hown, _⟩ =>
          (ih (hu.tree.hasScope scope h)).mono fun v _ hv hrest => ?_
      intro e he
      rcases hrest e he with he | he
      · refine (hown e he).imp_right fun hx => ?_
        obtain ⟨hhas, hsym⟩ := hnew _ hx
        exact ScopeTree.Inert.mono ⟨hhas, by rw [hsym]; rfl⟩ hv.tree
      · exact .inr he
    · exact ih h

theorem container_visits (h : s.tree.Outside scope) (hk : kind = .nspace ∨ kind = .module)
    (hscope : scopeKind = .nspace ∨ scopeKind = .module) :
    Visits L v s (container scope i name kind scopeKind what) fun t j => j.loc = i.loc ∧
      ∃ sc, j.scope = some sc ∧ t.tree.Spacious sc := by
  have hkind : kind.isVariable = false ∧ kind.hasType = false ∧ kind.isCallable = false := by
    obtain rfl | rfl := hk <;> exact ⟨rfl, rfl, rfl⟩
  have hopen (u : Visit) : u.completes scopeKind = false := by
    obtain rfl | rfl := hscope <;> cases u <;> rfl
  unfold container
  refine .of_valid fun hv => .of_ok fun hok => .tree ?_
  dsimp only
  split
  · rename_i x hx
    -- A name that stands for a namespace leads to a symbol, which has a scope.
    obtain ⟨hfind, hns⟩ := Option.filter_eq_some_iff.mp hx
    have hhas := hv.tables scope _ (ScopeTree.mem_of_findLocal hfind)
    have hinner := (hv.symbols x hhas).inner (by simpa using (Bool.and_eq_true_iff.mp hns).2)
    split
    · rename_i hnone
      rw [hnone] at hinner
      cases hinner
    · rename_i inner hinner
      exact (Visits.lift .refer).bind fun _ t ht _ =>
        .pure ⟨rfl, inner, rfl, (hok.tree.inner _ inner hinner).mono ht.tree⟩
  · refine (Visits.lift (.openScope h.has (hopen v) (hopen _))).bind fun new t ht hnew => ?_
    have hout : t.tree.Spacious new := by
      refine ⟨h.child ht.tree hnew.has ?_ hnew.outer_eq, ?_⟩ <;> rw [hnew.kind]
      · obtain rfl | rfl := hscope <;> rfl
      · obtain rfl | rfl := hscope <;> rfl
    have hs := h.mono ht.tree
    refine (Visits.lift (.outside (.define (fun i hi => Option.some.inj hi ▸ hout) hs.has
      (by simp [hkind.1]) ?_ (by obtain rfl | rfl := hk <;> rfl)) hs)).bind fun o u hu _ => ?_
    · refine ⟨by rintro _ ⟨⟩, by rintro _ ⟨⟩, by rintro _ ⟨⟩, fun h => ?_, fun h => ?_, fun _ => rfl⟩
      · cases hkind.2.1.symm.trans h
      · cases hkind.2.2.symm.trans h
    cases o with
    | none =>
      exact (Visits.lift (.report rfl)).bind fun _ q hq _ => .pure
        ⟨rfl, new, rfl, hout.mono (hu.trans hq).tree⟩
    | some x =>
      exact (Visits.lift .refer).bind fun _ q hq _ => .pure
        ⟨rfl, new, rfl, hout.mono (hu.trans hq).tree⟩

/-- A new type is found under its name, and it has a symbol. -/
structure Names (s t : AnalysisState) (i : Note) (x : Symbol) (kind : TypeKind) (a : TypeId)
    (j : Note) (y : SymbolId) : Prop where
  fresh : ¬s.types.Has a
  has : t.types.Has a
  added : a.Added
  shape : (t.types.shape a).kind = kind
  found : t.types.find? x.name = some a
  loc : j.loc = i.loc
  symbol : j.symbol = some y
  hasSymbol : t.tree.HasSymbol y
  kind : (t.tree.symbol y).kind = x.kind
  type : (t.tree.symbol y).type = some a

theorem typeSymbol_lays (h : s.tree.Outside scope) (hk : kind.isDeclared = true) (hx : x.Bare) :
    Lays L v own s (typeSymbol scope i x kind what) fun t o => (o = none ∧ t.Failed) ∨
      ∃ a j y, o = some (a, j) ∧ Names s t i x kind a j y := by
  unfold typeSymbol
  refine .of_valid fun hs => .types ?_
  split
  · exact .bind .fails fun _ t _ hfail => .pure (.inl ⟨rfl, hfail.2⟩)
  · rename_i c a hd
    obtain ⟨-, -, hhas, hfresh, hshape⟩ := hs.types.define hd hk
    refine (Lays.ofTypes rfl fun _ => .define hs.types hd hk).bind fun _ t ht htypes => ?_
    obtain ⟨rfl, -⟩ := htypes
    have hscope := h.mono ht.tree
    have hvalid : Symbol.Valid c { x with type := some a, loc := i.loc } :=
      .of_type hhas rfl hx.returnType hx.params hx.isCallable hx.nspace
    refine ((Lays.define (by simp [hx.inner]) hscope.has (by simp [hx.isVariable]) hvalid
      (by exact Symbol.valued_of_kind rfl hx.hasType)).outside hscope).bind fun o u hu ⟨hnew, _⟩ => ?_
    cases o with
    | none => exact .bind .fails fun _ q _ hfail => .pure (.inl ⟨rfl, hfail.2⟩)
    | some y =>
      obtain ⟨hy, hsym⟩ := hnew y rfl
      refine (Lays.writeRest rfl rfl rfl fun e he => ?_).bind fun _ q hq _ =>
        Lays.refer.bind fun _ r hr _ => .pure (.inr ⟨a, _, y, rfl, ?_⟩)
      · obtain rfl | he := List.mem_cons.mp he
        · exact .inr hy
        · exact .inl he
      · have hl := hu.trans (hq.trans hr)
        have hg := (hq.trans hr).tree
        exact ⟨hfresh, hl.has hhas, hs.types.added hfresh,
          (congrArg _ (hl.keeps.shape hhas)).trans hshape,
          hl.keeps.find _ _ (Catalog.find?_define hd), rfl, rfl, hg.hasSymbol y hy,
          by rw [hg.kind y hy, hsym], by rw [hg.type y hy, hsym]⟩

/-- A type with members gets a scope for them, or else an error is reported. -/
theorem typeWithMembers_lays (h : s.tree.Outside scope) (hi : i.scope = none)
    (hk : kind.isDeclared = true) (hscope : scopeKind = .cls ∨ scopeKind = .interface)
    (hx : x.Bare) :
    Lays L .types own s (typeWithMembers scope i x kind scopeKind what) fun t j =>
      j.loc = i.loc ∧ j.Placed t true ∧
        (j.scope = none ∧ t.Failed ∨ ∃ a, ¬s.types.Has a ∧ j.Opens t x.name kind a) := by
  unfold typeWithMembers
  refine .of_valid fun hs => (typeSymbol_lays h hk hx).bind fun o t ht ho => ?_
  obtain ⟨rfl, hfail⟩ | ⟨a, j, y, rfl, hj⟩ := ho
  · exact .pure ⟨rfl, fun _ ho => (nomatch hi.symm.trans ho), .inl ⟨hi, hfail⟩⟩
  · have hout := h.mono ht.tree
    refine (LaysBut.openScope hout.has (by cases scopeKind <;> rfl)).fill
      fun new u hu _ hnew => ⟨_, _, rfl, hnew.fresh, hnew.has, ?_,
        fun _ => ⟨rfl, rfl, rfl, rfl⟩, fun _ _ hc => .inr (Option.some.inj hc ▸ hj.added), ?_⟩
    · refine ⟨rfl, rfl, ⟨fun b hb => ?_, fun b hb => ?_⟩, fun h => (nomatch h), fun _ => ?_⟩
      · rw [hnew.adds.new] at hb
        cases hb
      · cases hb
        exact ⟨hu.has hj.has, fun h => hj.fresh (hs.types.has_initial h)⟩
      · have hproc : (u.tree.scope new).kind.isProcedure = false := by
          rw [hnew.kind]
          obtain rfl | rfl := hscope <;> rfl
        simp [hproc]
    · intro u' hu'
      have hin : u'.tree.Outside new := by
        rw [hu']
        refine (hout.child hu.tree hnew.has ?_ hnew.outer_eq).frame
          (.modifyScope (fun _ => rfl) fun _ => rfl)
        rw [hnew.kind]
        obtain rfl | rfl := hscope <;> rfl
      have hself : u'.tree.scope new = { u.tree.scope new with classType := some a } := by
        rw [hu']
        exact ScopeTree.scope_modifyScope_self hnew.has
      have hplaced : Note.Placed u' true { j with scope := some new } := by
        rintro _ ⟨⟩
        refine ⟨hin, ?_⟩
        rw [hself, hnew.kind]
        obtain rfl | rfl := hscope <;> rfl
      have hopens : Note.Opens u' { j with scope := some new } x.name kind a := by
        obtain ⟨hhas, htype⟩ := NamesType.mono ⟨hj.hasSymbol, a, hj.type, hj.added⟩ hu.toGrown
        refine ⟨⟨new, rfl, hin.has, by rw [hself]⟩, ?_, ?_, ?_, y, hj.symbol, ?_⟩ <;> rw [hu']
        · exact hu.has hj.has
        · exact (congrArg _ (hu.keeps.shape hj.has)).trans hj.shape
        · exact hu.keeps.find _ _ hj.found
        · exact ⟨hhas, htype⟩
      exact ((typeParams_lays hin.has).outside hin).bind fun _ q hq _ =>
        .pure ⟨hj.loc, hplaced.mono hq.toGrown, .inr ⟨a, hj.fresh, hopens.mono hq⟩⟩

mutual

theorem typeDecl_visits : (d : Decl Loc) → ∀ {s scope}, s.tree.Outside scope →
    Visits L .types s (typeDecl scope (d.map Note.ofLoc)) fun t d' =>
      d'.Ready t ∧ (d.map Note.ofLoc).Noted d' ∧
      ((d.map Note.ofLoc).Formed (·.scope = none) → d'.Formed (·.scope = none)) ∧
      s.Introduces t (d'.Settled t)
  | .nspace i n ds, s, scope, hs | .module i n ds, s, scope, hs => by
    rw [Decl.map]
    unfold typeDecl
    refine (container_visits hs (by simp) (by simp)).bind fun i t ht ⟨hloc, sc, hi, hsc⟩ => ?_
    rw [hi]
    refine (typeDecls_visits ds hsc.1).bind fun ds u hu ⟨hready, hnoted, hform, hset⟩ => .pure ?_
    refine ⟨⟨fun sc' h => Option.some.inj (hi.symm.trans h) ▸ hsc.mono hu.tree, hready⟩,
      ⟨?_, hnoted.nodes, hnoted.closed⟩, hform, hset.before ht fun l hl => ?_⟩
    · rw [Decl.map, Decl.map, hloc, hnoted.same]
    · rw [Settled]
      exact ⟨by simp [hi], hl⟩
  | .cls i h ds, s, scope, hs => by
    rw [Decl.map]
    unfold typeDecl
    refine (Visits.lift (typeWithMembers_lays hs rfl rfl (.inl rfl) {})).bind
      fun j t _ ⟨hloc, hplaced, hj⟩ => .pure ?_
    simp only [Decl.Ready, Decl.Formed, Settled]
    refine ⟨⟨hplaced, Decl.readyList_map ds⟩, ⟨by rw [Decl.map, Decl.map, hloc], rfl, fun h => h⟩,
      fun h => h, ?_⟩
    obtain ⟨hscope, hfail⟩ | ⟨a, hnew, hopens⟩ := hj
    · exact .of_nil (.inl ⟨hscope, hfail, rfl⟩)
    · exact ⟨[a], .inr ⟨a, rfl, hopens⟩, List.nodup_singleton a,
        List.forall_mem_singleton.mpr ⟨hnew, hopens.has⟩⟩
  | .interface i n ps, s, scope, hs => by
    rw [Decl.map]
    unfold typeDecl
    refine (Visits.lift (typeWithMembers_lays hs rfl rfl (.inr rfl) {})).bind
      fun j t _ ⟨hloc, hplaced, _⟩ => .pure ?_
    exact ⟨hplaced, ⟨by rw [Decl.map, Decl.map, hloc], rfl, fun h => h⟩, by simp [Decl.Formed],
      .of_nil (by simp [Settled])⟩
  | .record i .type n vs, s, scope, hs | .record i .struct n vs, s, scope, hs => by
    rw [Decl.map]
    unfold typeDecl
    refine (Visits.lift (typeWithMembers_lays hs rfl rfl (.inl rfl) {})).bind
      fun j t _ ⟨hloc, hplaced, hj⟩ => .pure ?_
    refine ⟨hplaced, ⟨by rw [Decl.map, Decl.map, hloc], rfl, fun h => h⟩, by simp [Decl.Formed],
      .of_nil ?_⟩
    exact ⟨rfl, hj.imp (·.2) fun ⟨_, _, hopens⟩ => hopens.typed⟩
  | .delegate d, s, scope, hs => by
    rw [Decl.map]
    unfold typeDecl
    refine (Visits.lift (typeSymbol_lays hs rfl {})).bind fun o t ht ho => ?_
    obtain ⟨rfl, -⟩ | ⟨a, j, y, rfl, hj⟩ := ho
    · refine .pure ⟨?_, .refl _, fun h => h, .of_nil (by simp [Settled])⟩
      rw [← Decl.map]
      exact Decl.ready_map _
    · refine .pure ⟨?_, ⟨?_, rfl, fun h => h⟩, by simp [Decl.Formed], .of_nil (by simp [Settled])⟩
      · rw [Decl.Ready]
        intro x hx
        cases hj.symbol.symm.trans hx
        exact ⟨hj.hasSymbol, hj.kind⟩
      · simp only [Decl.map, DelegateDecl.map, hj.loc]
  | .template i d, s, scope, hs => by
    rw [Decl.map]
    unfold typeDecl
    refine (typeDecl_visits d hs).bind fun d t _ ⟨hready, hnoted, hform, hset⟩ => .pure ?_
    refine ⟨hready, hnoted.template _, hform, ?_⟩
    simpa only [Settled] using hset
  | .uses .., s, scope, hs | .imports .., s, scope, hs | .proc _, s, scope, hs
  | .var _, s, scope, hs | .const _, s, scope, hs | .typeDefine .., s, scope, hs
  | .extension .., s, scope, hs => by
    refine .pure ⟨Decl.ready_map _, .refl _, fun h => h, .of_nil ?_⟩
    simp [Decl.map, Settled]

theorem typeDecls_visits : (ds : List (Decl Loc)) → ∀ {s scope}, s.tree.Outside scope →
    Visits L .types s (typeDecls scope (Decl.mapList Note.ofLoc ds)) fun t ds' => ReadyList t ds' ∧
      Decl.NotedList (Decl.mapList Note.ofLoc ds) ds' ∧
      (Decl.FormedList (·.scope = none) (Decl.mapList Note.ofLoc ds) →
        Decl.FormedList (·.scope = none) ds') ∧ s.Introduces t (SettledList t ds')
  | [], _, _, _ => by
    rw [Decl.mapList]
    unfold typeDecls
    exact .pure ⟨by simp [ReadyList], .refl _, fun h => h, .of_nil (by simp [SettledList])⟩
  | d :: ds, s, scope, hs => by
    rw [Decl.mapList]
    unfold typeDecls
    refine (typeDecl_visits d hs).bind fun d' t ht ⟨hready, hnoted, hform, hset⟩ =>
      (typeDecls_visits ds (hs.mono ht.tree)).bind fun ds' u hu ⟨hreadys, hnoteds, hforms, hsets⟩ =>
        .pure ⟨?_, hnoted.cons hnoteds, fun hf => ?_, ?_⟩
    · rw [ReadyList]
      exact ⟨hready.mono hu.toGrown, hreadys⟩
    · rw [Decl.FormedList] at hf ⊢
      exact ⟨hform hf.1, hforms hf.2⟩
    · simp only [SettledList]
      exact hset.append hsets ht hu fun l hl => hl.mono hu

end

end Analyze

end BasicSSA
