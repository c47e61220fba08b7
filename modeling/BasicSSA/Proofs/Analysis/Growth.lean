import BasicSSA.Analysis.Expr
import BasicSSA.Proofs.Types.Lineage

/-!
# Growth of types, scopes and symbols

Analysis adds types, scopes and symbols, and those that exist keep what its checks depend on.
-/

namespace BasicSSA

/-! ### Types -/

/-- A type that is none of the initial catalog. -/
def TypeId.Added (t : TypeId) : Prop :=
  Catalog.initial.types.size ≤ t.index

namespace Catalog

variable {c : Catalog}

def HasMember (c : Catalog) (x : SymbolId) : Prop :=
  ∃ t name, (name, x) ∈ (c.info t).members

theorem info_eq_default (h : ¬c.Has t) : c.info t = default := by
  rw [info, Array.getD_eq_getD_getElem?, Array.getElem?_eq_none (Nat.not_lt.mp h)]
  rfl

/-- A catalog with more types, none of which is void. -/
structure Grown (c c' : Catalog) : Prop extends Keeps c c' where
  void : ∀ t, c'.isVoid t = c.isVoid t

namespace Grown

theorem refl : Grown c c :=
  ⟨.refl, fun _ => rfl⟩

theorem trans (h : Grown c c') (h' : Grown c' c'') : Grown c c'' :=
  ⟨h.toKeeps.trans h'.toKeeps, fun t => (h'.void t).trans (h.void t)⟩

theorem parameter (h : Grown c c') (t : TypeId) (ht : c.isParameter t = true) :
    c'.isParameter t = true := by
  have hhas : c.Has t := by
    by_contra hnot
    rw [isParameter, shape, info_eq_default hnot] at ht
    cases ht
  rwa [isParameter, h.shape hhas]

end Grown

theorem Lawful.grown (hc : c.Lawful) (hc' : c'.Lawful) (h : Keeps c c') : Grown c c' := by
  refine ⟨h, fun t => ?_⟩
  by_cases ht : c.Has t
  · rw [isVoid, isVoid, h.shape ht]
  · have hold : c.isVoid t = false := by
      rw [isVoid, shape, info_eq_default ht]
      rfl
    rw [hold]
    by_cases ht' : c'.Has t
    · have hbasic := hc'.later t ht' fun hi => ht (hc.start t hi).1
      rw [isVoid]
      cases hshape : c'.shape t <;> simp_all [TypeShape.isBasic]
    · rw [isVoid, shape, info_eq_default ht']
      rfl

theorem Lawful.added (hc : c.Lawful) (h : ¬c.Has t) : t.Added :=
  Nat.not_lt.mp fun hi => h (hc.start t hi).1

theorem Lawful.added_make (hc : c.Lawful) (hm : ∀ e ∈ c.made, e.2.Added) :
    (c.make spelling i).2.Added := by
  unfold Catalog.make
  split
  · exact hm _ (mem_of_lookup ‹_›)
  · exact hc.added (Nat.lt_irrefl _)

end Catalog

/-! ### Scopes and symbols -/

/-- What is said about a scope once and for all. -/
structure Scope.Same (p p' : Scope) : Prop where
  kind : p'.kind = p.kind
  outer : p'.outer = p.outer
  returnType : p'.returnType = p.returnType
  classType : p'.classType = p.classType

theorem Scope.Same.refl (p : Scope) : p.Same p :=
  ⟨rfl, rfl, rfl, rfl⟩

theorem Scope.Same.trans {p p' p'' : Scope} (h : p.Same p') (h' : p'.Same p'') : p.Same p'' :=
  ⟨h'.kind.trans h.kind, h'.outer.trans h.outer, h'.returnType.trans h.returnType,
    h'.classType.trans h.classType⟩

/-- The scopes of procedures and those inside. -/
def ScopeKind.isLocal : ScopeKind → Bool
  | .function | .subroutine | .block | .loop => true
  | .global | .nspace | .module | .cls | .interface => false

/-- A use of a symbol has the type that the symbol has. -/
def Symbol.Valued (x : Symbol) : Prop :=
  x.valueType = x.type.getD .object

/-- The kinds of symbols that have a type of their own. -/
def SymbolKind.hasType : SymbolKind → Bool
  | .function | .subroutine | .module | .nspace => false
  | _ => true

theorem Symbol.valued_of_kind {x : Symbol} (h : x.kind = k) (hk : k.hasType = true) : x.Valued := by
  cases k <;> first | cases hk; done | simp [Valued, valueType, isCallable, SymbolKind.isCallable, h]

namespace ScopeTree

variable {t t₀ : ScopeTree}

def HasSymbol (t : ScopeTree) (x : SymbolId) : Prop :=
  x.index < t.symbols.size

def HasScope (t : ScopeTree) (s : ScopeId) : Prop :=
  s.index < t.scopes.size

/-- A scope that lies in no procedure. -/
def Outside (t : ScopeTree) (s : ScopeId) : Prop :=
  ∀ o ∈ t.chain s, t.HasScope o ∧ (t.scope o).kind.isLocal = false

/-- The scope of a program, a namespace or a module. -/
def Spacious (t : ScopeTree) (s : ScopeId) : Prop :=
  t.Outside s ∧ (t.scope s).kind.isClass = false

/-- Scopes lie in scopes that exist. -/
structure Ok (t : ScopeTree) : Prop where
  root : t.Spacious root
  outer : ∀ s, ∀ o ∈ (t.scope s).outer, t.HasScope o
  inner : ∀ x s, (t.symbol x).inner = some s → t.Spacious s
  classType : ∀ s c, (t.scope s).classType = some c → c.Added
  /-- The type of a procedure is what it returns. -/
  valued : ∀ x, (t.symbol x).Valued

/-- The scopes of a tree lie where they lay. -/
structure Frames (t t' : ScopeTree) : Prop where
  hasScope : ∀ s, t.HasScope s → t'.HasScope s
  place : ∀ s, t.HasScope s →
    (t'.scope s).kind = (t.scope s).kind ∧ (t'.scope s).outer = (t.scope s).outer

/-- A tree with more scopes and symbols. Only a delegate learns later what it takes and returns. -/
structure Grown (t t' : ScopeTree) : Prop where
  hasSymbol : ∀ x, t.HasSymbol x → t'.HasSymbol x
  hasScope : ∀ s, t.HasScope s → t'.HasScope s
  kind : ∀ x, t.HasSymbol x → (t'.symbol x).kind = (t.symbol x).kind
  type : ∀ x, t.HasSymbol x → (t'.symbol x).type = (t.symbol x).type
  symbol : ∀ x, t.HasSymbol x → (t.symbol x).kind ≠ .delegate → t'.symbol x = t.symbol x
  scope : ∀ s, t.HasScope s → (t.scope s).Same (t'.scope s)

theorem Grown.size_le (h : t.Grown t') : t.symbols.size ≤ t'.symbols.size := by
  cases hsize : t.symbols.size with
  | zero => exact Nat.zero_le _
  | succ n => exact h.hasSymbol ⟨n⟩ (by simp [HasSymbol, hsize])

theorem Grown.refl (t : ScopeTree) : t.Grown t :=
  ⟨fun _ h => h, fun _ h => h, fun _ _ => rfl, fun _ _ => rfl, fun _ _ _ => rfl, fun _ _ => .refl _⟩

theorem Grown.trans (h : t.Grown t') (h' : t'.Grown t'') : t.Grown t'' where
  hasSymbol x hx := h'.hasSymbol x (h.hasSymbol x hx)
  hasScope s hs := h'.hasScope s (h.hasScope s hs)
  kind x hx := (h'.kind x (h.hasSymbol x hx)).trans (h.kind x hx)
  type x hx := (h'.type x (h.hasSymbol x hx)).trans (h.type x hx)
  symbol x hx hk := (h'.symbol x (h.hasSymbol x hx) (h.kind x hx ▸ hk)).trans (h.symbol x hx hk)
  scope s hs := (h.scope s hs).trans (h'.scope s (h.hasScope s hs))

theorem Grown.returnType (h : t.Grown t') (hx : t.HasSymbol x) (hk : (t.symbol x).kind ≠ .delegate) :
    (t'.symbol x).returnType = (t.symbol x).returnType := by
  rw [h.symbol x hx hk]

theorem Grown.frames (h : t.Grown t') : t.Frames t' :=
  ⟨h.hasScope, fun s hs => ⟨(h.scope s hs).kind, (h.scope s hs).outer⟩⟩

theorem Outside.has (h : t.Outside s) : t.HasScope s :=
  (h s List.mem_cons_self).1

theorem Outside.kind (h : t.Outside s) : (t.scope s).kind.isLocal = false :=
  (h s List.mem_cons_self).2

theorem Outside.frame (h : t.Outside s) (hf : t.Frames t') : t'.Outside s := by
  intro o ho
  rw [chain, (hf.place s h.has).2] at ho
  obtain ⟨hhas, hkind⟩ := h o ho
  exact ⟨hf.hasScope o hhas, (hf.place o hhas).1 ▸ hkind⟩

theorem Spacious.frame (h : t.Spacious s) (hf : t.Frames t') : t'.Spacious s :=
  ⟨h.1.frame hf, (hf.place s h.1.has).1 ▸ h.2⟩

theorem Outside.mono (h : t.Outside s) (hg : t.Grown t') : t'.Outside s :=
  h.frame hg.frames

theorem Spacious.mono (h : t.Spacious s) (hg : t.Grown t') : t'.Spacious s :=
  h.frame hg.frames

/-- A new scope that is none of a procedure lies in no procedure either. -/
theorem Outside.child (h : t.Outside s) (hg : t.Grown t') (hnew : t'.HasScope new)
    (hk : (t'.scope new).kind.isLocal = false) (ho : (t'.scope new).outer = t.chain s) :
    t'.Outside new := by
  intro o hm
  rw [chain, ho] at hm
  rcases List.mem_cons.mp hm with rfl | hm
  · exact ⟨hnew, hk⟩
  · obtain ⟨hhas, hkind⟩ := h o hm
    exact ⟨hg.hasScope o hhas, (hg.scope o hhas).kind ▸ hkind⟩

/-! Scopes change. -/

theorem hasScope_modifyScope : (t.modifyScope s f).HasScope u ↔ t.HasScope u := by
  simp [HasScope, modifyScope]

theorem scope_modifyScope : (t.modifyScope s f).scope u = t.scope u ∨
    u = s ∧ (t.modifyScope s f).scope u = f (t.scope u) := by
  simp only [modifyScope, scope, Array.getD_eq_getD_getElem?, Array.getElem?_modify]
  split
  · rename_i h
    cases hu : t.scopes[u.index]? with
    | none => exact .inl rfl
    | some p => exact .inr ⟨by cases u; cases s; exact congrArg _ h.symm, rfl⟩
  · exact .inl rfl

theorem scope_modifyScope_self (h : t.HasScope s) : (t.modifyScope s f).scope s = f (t.scope s) := by
  have hlt : s.index < t.scopes.size := h
  simp [modifyScope, scope, Array.getElem_modify, hlt]

theorem scope_modifyScope_of_ne (h : u ≠ s) : (t.modifyScope s f).scope u = t.scope u :=
  scope_modifyScope.resolve_right fun he => h he.1

theorem modifyScope_congr {r : Scope → α} (hf : ∀ p, r (f p) = r p) :
    r ((t.modifyScope s f).scope u) = r (t.scope u) := by
  rcases scope_modifyScope (t := t) (s := s) (f := f) (u := u) with h | ⟨-, h⟩
  · rw [h]
  · rw [h, hf]

theorem Frames.modifyScope (ho : ∀ p, (f p).outer = p.outer) (hk : ∀ p, (f p).kind = p.kind) :
    t.Frames (t.modifyScope s f) :=
  ⟨fun _ => hasScope_modifyScope.mpr, fun _ _ => ⟨modifyScope_congr hk, modifyScope_congr ho⟩⟩

theorem Ok.modifyScope (h : t.Ok) (ho : ∀ p, (f p).outer = p.outer) (hk : ∀ p, (f p).kind = p.kind)
    (hc : ∀ p c, (f p).classType = some c → p.classType = some c ∨ c.Added) :
    (t.modifyScope s f).Ok where
  root := h.root.frame (.modifyScope ho hk)
  classType u c hu := by
    rcases scope_modifyScope (t := t) (s := s) (f := f) (u := u) with he | ⟨-, he⟩
    · exact h.classType u c (he ▸ hu)
    · rw [he] at hu
      exact (hc _ c hu).elim (h.classType u c) id
  valued := h.valued
  outer u o hm := hasScope_modifyScope.mpr (h.outer u o (modifyScope_congr ho ▸ hm))
  inner x u hx := (h.inner x u hx).frame (.modifyScope ho hk)

/-- A scope may change in any way as long as it is new. -/
theorem Grown.modifyScope (h : t₀.Grown t) (hs : ¬t₀.HasScope s) : t₀.Grown (t.modifyScope s f) where
  hasSymbol := h.hasSymbol
  hasScope u hu := hasScope_modifyScope.mpr (h.hasScope u hu)
  kind := h.kind
  type := h.type
  symbol := h.symbol
  scope u hu := by
    have hne : u ≠ s := fun he => hs (he ▸ hu)
    rw [scope_modifyScope_of_ne hne]
    exact h.scope u hu

/-! Scopes are added. -/

theorem scope_eq_default (h : ¬t.HasScope o) : t.scope o = default := by
  rw [scope, Array.getD_eq_getD_getElem?, Array.getElem?_eq_none (Nat.le_of_not_lt h)]
  rfl

theorem scope_addScope : ({ t with scopes := t.scopes.push p } : ScopeTree).scope u =
    if u.index = t.scopes.size then p else t.scope u := by
  simp only [scope, Array.getD_eq_getD_getElem?, Array.getElem?_push]
  split <;> rfl

/-- The table and the name of a scope stay the same. -/
structure SameTable (t t' : ScopeTree) (o : ScopeId) : Prop where
  symbols : (t'.scope o).symbols = (t.scope o).symbols
  name : (t'.scope o).name = (t.scope o).name

theorem SameTable.refl (t : ScopeTree) (o : ScopeId) : t.SameTable t o :=
  ⟨rfl, rfl⟩

theorem SameTable.trans (h : t.SameTable t' o) (h' : t'.SameTable t'' o) : t.SameTable t'' o :=
  ⟨h'.symbols.trans h.symbols, h'.name.trans h.name⟩

theorem SameTable.modifyScope (hf : ∀ p, (f p).symbols = p.symbols ∧ (f p).name = p.name) :
    t.SameTable (t.modifyScope s f) o :=
  ⟨modifyScope_congr fun p => (hf p).1, modifyScope_congr fun p => (hf p).2⟩

/-- A new scope lies in the scopes that its outer scope lies in, and in that one. The others keep
what they have, up to their children. -/
structure Adds (t t' : ScopeTree) (outer new : ScopeId) (name : String) (kind : ScopeKind) : Prop where
  fresh : ¬t.HasScope new
  hasScope : ∀ o, t'.HasScope o ↔ t.HasScope o ∨ o = new
  same : ∀ o, o ≠ new → (t.scope o).Same (t'.scope o)
  table : ∀ o, o ≠ new → t.SameTable t' o
  symbols : t'.symbols = t.symbols
  new : t'.scope new = { name, kind, outer := t.chain outer }

theorem adds (h : t.child s name kind = (t', u)) : t.Adds t' s u name kind := by
  cases h
  generalize hf : (fun p : Scope =>
    { p with children := p.children ++ [(⟨t.scopes.size⟩ : ScopeId)] }) = f
  have hsize : (t.modifyScope s f).scopes.size = t.scopes.size := by simp [ScopeTree.modifyScope]
  have hkeep (p : Scope) : p.Same (f p) ∧ (f p).symbols = p.symbols ∧ (f p).name = p.name := by
    rw [← hf]
    exact ⟨⟨rfl, rfl, rfl, rfl⟩, rfl, rfl⟩
  have hnew : (⟨t.scopes.size⟩ : ScopeId).index = (t.modifyScope s f).scopes.size := hsize.symm
  have hold (u : ScopeId) (hu : u ≠ ⟨t.scopes.size⟩) : u.index ≠ (t.modifyScope s f).scopes.size := by
    rintro hi
    cases u
    exact hu (congrArg _ (hi.trans hsize))
  refine ⟨Nat.lt_irrefl _, fun u => ?_, fun u hu => ?_, fun u hu => ?_, rfl, ?_⟩
  · cases u
    simp only [HasScope, Array.size_push, hsize, ScopeId.mk.injEq]
    omega
  · rw [scope_addScope, if_neg (hold u hu)]
    exact ⟨modifyScope_congr fun p => (hkeep p).1.kind, modifyScope_congr fun p => (hkeep p).1.outer,
      modifyScope_congr fun p => (hkeep p).1.returnType,
      modifyScope_congr fun p => (hkeep p).1.classType⟩
  · have htable : t.SameTable (t.modifyScope s f) u := .modifyScope fun p => (hkeep p).2
    exact ⟨by rw [scope_addScope, if_neg (hold u hu), htable.symbols],
      by rw [scope_addScope, if_neg (hold u hu), htable.name]⟩
  · rw [scope_addScope, if_pos hnew, chain, modifyScope_congr fun p => (hkeep p).1.outer, chain]

namespace Adds

variable {new : ScopeId}

section

variable (h : t.Adds t' s new name kind)

include h

theorem symbol_eq (x : SymbolId) : t'.symbol x = t.symbol x := by
  rw [symbol, h.symbols, symbol]

theorem hasSymbol : t'.HasSymbol x ↔ t.HasSymbol x := by
  rw [HasSymbol, h.symbols, HasSymbol]

theorem ne (ho : t.HasScope o) : o ≠ new :=
  fun he => h.fresh (he ▸ ho)

theorem tables (o : ScopeId) :
    (t'.scope o).symbols = (t.scope o).symbols := by
  by_cases ho : o = new
  · rw [ho, h.new, scope_eq_default h.fresh]
    rfl
  · exact (h.table o ho).symbols

theorem grown : t.Grown t' where
  hasSymbol _ := h.hasSymbol.mpr
  hasScope o ho := (h.hasScope o).mpr (.inl ho)
  kind x _ := by rw [h.symbol_eq]
  type x _ := by rw [h.symbol_eq]
  symbol x _ _ := h.symbol_eq x
  scope o ho := h.same o (h.ne ho)

theorem ok (ht : t.Ok) (hs : t.HasScope s) : t'.Ok where
  root := ht.root.mono h.grown
  valued x := h.symbol_eq x ▸ ht.valued x
  inner x o hx := (ht.inner x o (h.symbol_eq x ▸ hx)).mono h.grown
  outer u o hm := by
    refine h.grown.hasScope o ?_
    by_cases hu : u = new
    · rw [hu, h.new] at hm
      exact (List.mem_cons.mp hm).elim (· ▸ hs) (ht.outer s o)
    · exact ht.outer u o ((h.same u hu).outer ▸ hm)
  classType u c hc := by
    by_cases hu : u = new
    · rw [hu, h.new] at hc
      cases hc
    · exact ht.classType u c ((h.same u hu).classType ▸ hc)

end

end Adds

/-! Symbols are added. -/

theorem symbol_addSymbol : ({ t with symbols := t.symbols.push y } : ScopeTree).symbol x =
    if x.index = t.symbols.size then y else t.symbol x := by
  simp only [symbol, Array.getD_eq_getD_getElem?, Array.getElem?_push]
  split <;> rfl

/-- A definition adds one symbol to one scope. -/
structure Defines (t t' : ScopeTree) (scope : ScopeId) (y : Symbol) (new : SymbolId) : Prop where
  hasScope : ∀ o, t'.HasScope o ↔ t.HasScope o
  same : ∀ o, (t.scope o).Same (t'.scope o)
  table : ∀ o, o ≠ scope → t.SameTable t' o
  name : (t'.scope scope).name = (t.scope scope).name
  own : t.HasScope scope →
    (t'.scope scope).symbols = (t.scope scope).symbols ++ [(foldCase y.name, new)]
  mem : ∀ e ∈ (t'.scope scope).symbols, e ∈ (t.scope scope).symbols ∨ e = (foldCase y.name, new)
  hasSymbol : ∀ x, t'.HasSymbol x ↔ t.HasSymbol x ∨ x = new
  fresh : ¬t.HasSymbol new
  old : ∀ x, x ≠ new → t'.symbol x = t.symbol x
  new : t'.symbol new = { y with scope }

theorem defines (h : t.define s y = some (t', new)) : t.Defines t' s y new := by
  unfold define at h
  split at h
  · cases h
  · cases h
    have hscope (o : ScopeId) := scope_modifyScope (t := t) (s := s) (u := o)
      (f := fun p => { p with symbols := p.symbols ++ [(foldCase y.name, ⟨t.symbols.size⟩)] })
    refine ⟨fun _ => hasScope_modifyScope, fun o => ?_, fun o ho => ?_, ?_,
      fun hs => congrArg Scope.symbols (scope_modifyScope_self hs), fun e he => ?_, fun x => ?_,
      Nat.lt_irrefl _, fun x hx => symbol_addSymbol.trans (if_neg fun hi => hx ?_),
      symbol_addSymbol.trans (if_pos rfl)⟩
    · rcases hscope o with h | ⟨-, h⟩
      · exact (h :) ▸ .refl _
      · exact (h :) ▸ ⟨rfl, rfl, rfl, rfl⟩
    · have h := (hscope o).resolve_right fun h => ho h.1
      exact ⟨congrArg Scope.symbols h, congrArg Scope.name h⟩
    · rcases hscope s with h | ⟨-, h⟩
      · exact congrArg Scope.name h
      · exact (congrArg Scope.name h :)
    · rcases hscope s with h | ⟨-, h⟩
      · exact .inl (congrArg Scope.symbols h ▸ he)
      · have he' := congrArg Scope.symbols h ▸ he
        exact (List.mem_append.mp he').imp_right List.mem_singleton.mp
    · cases x
      simp only [HasSymbol, ScopeTree.modifyScope, Array.size_push, SymbolId.mk.injEq]
      omega
    · cases x
      exact congrArg _ hi

namespace Defines

variable {new : SymbolId}

section

variable (h : t.Defines t' s y new)

include h

theorem ne (hx : t.HasSymbol x) : x ≠ new :=
  fun he => h.fresh (he ▸ hx)

theorem has : t'.HasSymbol new :=
  (h.hasSymbol new).mpr (.inr rfl)

theorem symbols (o : ScopeId) (he : e ∈ (t'.scope o).symbols) :
    e ∈ (t.scope o).symbols ∨ e.2 = new := by
  by_cases ho : o = s
  · subst ho
    exact (h.mem e he).imp_right fun he => by rw [he]
  · exact .inl ((h.table o ho).symbols ▸ he)

theorem grown : t.Grown t' where
  hasSymbol x hx := (h.hasSymbol x).mpr (.inl hx)
  hasScope o := (h.hasScope o).mpr
  kind x hx := by rw [h.old x (h.ne hx)]
  type x hx := by rw [h.old x (h.ne hx)]
  symbol x hx _ := h.old x (h.ne hx)
  scope o _ := h.same o

theorem ok (ht : t.Ok) (hy : ∀ i, y.inner = some i → t.Spacious i)
    (hv : y.Valued) : t'.Ok where
  root := ht.root.mono h.grown
  outer u o hm := (h.hasScope o).mpr (ht.outer u o ((h.same u).outer ▸ hm))
  classType u c hc := ht.classType u c ((h.same u).classType ▸ hc)
  inner x i hx := by
    refine Spacious.mono ?_ h.grown
    by_cases hn : x = new
    · rw [hn, h.new] at hx
      exact hy i hx
    · exact ht.inner x i (h.old x hn ▸ hx)
  valued x := by
    by_cases hn : x = new
    · rw [hn, h.new]
      exact hv
    · exact h.old x hn ▸ ht.valued x

end

end Defines

theorem define_isSome (h : (t.scope s).symbols = []) : (t.define s y).isSome = true := by
  simp [define, findLocal?, h]

/-! Symbols change. -/

theorem symbol_modifySymbol {f : Symbol → Symbol} : (t.modifySymbol y f).symbol x = t.symbol x ∨
    x = y ∧ (t.modifySymbol y f).symbol x = f (t.symbol x) := by
  simp only [modifySymbol, symbol, Array.getD_eq_getD_getElem?, Array.getElem?_modify]
  split
  · rename_i h
    cases hu : t.symbols[x.index]? with
    | none => exact .inl rfl
    | some p => exact .inr ⟨by cases x; cases y; exact congrArg _ h.symm, rfl⟩
  · exact .inl rfl

theorem modifySymbol_ok {f : Symbol → Symbol} (h : t.Ok) (hi : ∀ x, (f x).inner = x.inner)
    (hk : ∀ x, (f x).kind = x.kind) (ht : ∀ x, (f x).type = x.type)
    (hx : (t.symbol x).kind = .delegate) : (t.modifySymbol x f).Ok ∧ t.Grown (t.modifySymbol x f) := by
  have hsize (y : SymbolId) : (t.modifySymbol x f).HasSymbol y ↔ t.HasSymbol y := by
    simp [HasSymbol, modifySymbol]
  refine ⟨⟨h.root, h.outer, fun y s hy => ?_, h.classType, fun y => ?_⟩,
    ⟨fun y hy => (hsize y).mpr hy, fun _ h => h, fun y _ => ?_, fun y _ => ?_, fun y _ hne => ?_,
      fun _ _ => .refl _⟩⟩
  all_goals
    rcases symbol_modifySymbol (t := t) (y := x) (f := f) (x := y) with he | ⟨hyx, he⟩
  · exact h.inner y s (he ▸ hy)
  · exact h.inner y s (by rwa [he, hi] at hy)
  · rw [he]
    exact h.valued y
  · rw [he]
    exact Symbol.valued_of_kind ((hk _).trans (hyx ▸ hx)) rfl
  · rw [he]
  · rw [he, hk]
  · rw [he]
  · rw [he, ht]
  · rw [he]
  · exact absurd (hyx ▸ hx) hne

end ScopeTree

end BasicSSA
