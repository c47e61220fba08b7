import BasicSSA.Proofs.Analysis.Course.Types
import BasicSSA.Proofs.Analysis.Tables

/-!
# Layouts

The first two visits lay out the scopes of a program. They define variables only in the scopes of
procedures, and each of these keeps its table once its procedure is declared. `Lays` says of a step
of theirs what all of them keep, and `Visits` says it of one that might fail but does not.
-/

namespace BasicSSA

/-- The kinds of symbols that hold a value in a procedure. -/
def SymbolKind.isVariable : SymbolKind → Bool
  | .variable | .parameter | .constant => true
  | _ => false

theorem ScopeKind.isLocal_of_isProcedure {k : ScopeKind} (h : k.isProcedure = true) :
    k.isLocal = true := by
  cases k with
  | function | subroutine => rfl
  | _ => cases h

/-! ### Trees -/

namespace ScopeTree

open Declaration (InOrder)

variable {t : ScopeTree} {scope : ScopeId}

/-- A symbol that is no variable. -/
structure Inert (t : ScopeTree) (x : SymbolId) : Prop where
  has : t.HasSymbol x
  kind : (t.symbol x).kind.isVariable = false

theorem Inert.mono (h : t.Inert x) (hg : t.Grown t') : t'.Inert x :=
  ⟨hg.hasSymbol x h.has, (hg.kind x h.has) ▸ h.kind⟩

theorem hasScope_of_isLocal (h : (t.scope o).kind.isLocal = true) : t.HasScope o := by
  by_cases ho : t.HasScope o
  · exact ho
  · rw [scope_eq_default ho] at h
    cases h

theorem findLocal?_eq (h : t.SameTable t' scope) : t'.findLocal? scope name = t.findLocal? scope name := by
  rw [findLocal?, h.symbols, findLocal?]

/-- Some names are entered into the table of a scope, unless it has them. -/
structure Enters (t t' : ScopeTree) (scope : ScopeId) (names : List String) : Prop where
  kept : ∀ n x, t.findLocal? scope n = some x → t'.findLocal? scope n = some x
  found : ∀ n ∈ names, (t'.findLocal? scope n).isSome
  own : ∀ e ∈ (t'.scope scope).symbols, e ∈ (t.scope scope).symbols ∨
    ∃ n ∈ names, t'.findLocal? scope n = some e.2

theorem Enters.of_same (h : t.SameTable t' scope) : t.Enters t' scope [] where
  kept n x hx := (findLocal?_eq h).trans hx
  found := by simp
  own e he := .inl (h.symbols ▸ he)

theorem Enters.of_found (h : (t.findLocal? scope name).isSome) : t.Enters t scope [name] where
  kept _ _ hx := hx
  found := by simpa using h
  own _ he := .inl he

theorem Enters.trans (h : t.Enters t' scope names) (h' : t'.Enters t'' scope names') :
    t.Enters t'' scope (names ++ names') where
  kept n x hx := h'.kept n x (h.kept n x hx)
  found n hn := by
    rcases List.mem_append.mp hn with hn | hn
    · obtain ⟨x, hx⟩ := Option.isSome_iff_exists.mp (h.found n hn)
      exact Option.isSome_iff_exists.mpr ⟨x, h'.kept n x hx⟩
    · exact h'.found n hn
  own e he := by
    rcases h'.own e he with he | ⟨n, hn, hx⟩
    · refine (h.own e he).imp_right fun ⟨n, hn, hx⟩ => ?_
      exact ⟨n, List.mem_append_left _ hn, h'.kept n _ hx⟩
    · exact .inr ⟨n, List.mem_append_right _ hn, hx⟩

theorem isSome_of_define (hd : t.define scope y = none) : (t.findLocal? scope y.name).isSome := by
  unfold define at hd
  split at hd
  · assumption
  · cases hd

theorem enters_define (hs : t.HasScope scope) (hd : t.define scope y = some (t', new)) :
    t.Enters t' scope [y.name] ∧ t'.findLocal? scope y.name = some new := by
  have hfree : t.findLocal? scope y.name = none := by
    unfold define at hd
    split at hd
    · cases hd
    · rename_i hno
      simpa using hno
  have h := defines hd
  have hnew : t'.findLocal? scope y.name = some new := by
    rw [findLocal?, h.own hs, List.lookup_append, show (t.scope scope).symbols.lookup _ = none from hfree]
    simp
  refine ⟨⟨fun n x hx => ?_, by simp [hnew], fun e he => (h.mem e he).imp_right ?_⟩, hnew⟩
  · rw [findLocal?, h.own hs, List.lookup_append, show (t.scope scope).symbols.lookup _ = some x from hx]
    rfl
  · rintro rfl
    exact ⟨_, List.mem_cons_self, hnew⟩

/-- The scope of a procedure holds its parameters and no other variables. -/
structure Furnished (t : ScopeTree) (scope : ScopeId) (names : List String) : Prop where
  has : t.HasScope scope
  kind : (t.scope scope).kind.isProcedure = true
  outer : ∀ o ∈ (t.scope scope).outer, t.HasScope o ∧ (t.scope o).kind.isLocal = false
  found : ∀ n ∈ names, (t.findLocal? scope n).isSome
  own : ∀ e ∈ (t.scope scope).symbols, t.Inert e.2 ∨ ∃ n ∈ names, t.findLocal? scope n = some e.2

theorem Furnished.frame (h : t.Furnished scope names) (hf : t.Frames t')
    (hi : ∀ x, t.Inert x → t'.Inert x) (hs : t.SameTable t' scope) : t'.Furnished scope names where
  has := hf.hasScope scope h.has
  kind := (hf.place scope h.has).1 ▸ h.kind
  outer o ho := by
    rw [(hf.place scope h.has).2] at ho
    obtain ⟨hhas, hkind⟩ := h.outer o ho
    exact ⟨hf.hasScope o hhas, (hf.place o hhas).1 ▸ hkind⟩
  found n hn := by
    rw [findLocal?_eq hs]
    exact h.found n hn
  own e he := by
    rw [hs.symbols] at he
    refine (h.own e he).imp (hi _) fun ⟨n, hn, hx⟩ => ⟨n, hn, ?_⟩
    rwa [findLocal?_eq hs]

theorem Furnished.mono (h : t.Furnished scope names) (hg : t.Grown t') (hs : t.SameTable t' scope) :
    t'.Furnished scope names :=
  h.frame hg.frames (fun _ hi => hi.mono hg) hs

theorem Furnished.modifyScope (h : t.Furnished scope names)
    (hf : ∀ p, (f p).symbols = p.symbols ∧ (f p).name = p.name ∧ (f p).outer = p.outer ∧
      (f p).kind = p.kind) : (t.modifyScope o f).Furnished scope names :=
  h.frame (.modifyScope (fun p => (hf p).2.2.1) fun p => (hf p).2.2.2) (fun _ hi => ⟨hi.has, hi.kind⟩)
    (.modifyScope fun p => ⟨(hf p).1, (hf p).2.1⟩)

/-- Some names of a scope stand for symbols that are numbered in order. -/
def Numbered (t : ScopeTree) (scope : ScopeId) (names : List String) : Prop :=
  InOrder 0 t.symbols.size ((names.filterMap (t.findLocal? scope)).map .new)

theorem Numbered.mono (h : t.Numbered scope names) (hle : t.symbols.size ≤ t'.symbols.size)
    (hs : t.SameTable t' scope) : t'.Numbered scope names := by
  have hfind : t'.findLocal? scope = t.findLocal? scope := funext fun _ => findLocal?_eq hs
  rw [Numbered, hfind]
  exact InOrder.widen h hle

theorem Furnished.isLocal (h : t.Furnished scope names) : (t.scope scope).kind.isLocal = true :=
  ScopeKind.isLocal_of_isProcedure h.kind

end ScopeTree

/-! ### States -/

namespace AnalysisState

variable {s : AnalysisState}

/-- Only scopes of procedures get variables, and of those that exist only some get any names. -/
structure Prepares (own : List ScopeId) (s t : AnalysisState) : Prop where
  names : ∀ o, ∀ e ∈ (t.tree.scope o).symbols, e ∈ (s.tree.scope o).symbols ∨ t.tree.Inert e.2 ∨
    (t.tree.scope o).kind.isLocal = true
  locals : ∀ o, (s.tree.scope o).kind.isLocal = true → o ∉ own → s.tree.SameTable t.tree o
  members : ∀ x, t.types.HasMember x → s.types.HasMember x ∨ t.tree.Inert x

namespace Prepares

theorem of_same (hs : ∀ o, (t.tree.scope o).symbols = (s.tree.scope o).symbols)
    (hn : ∀ o, s.tree.HasScope o → (t.tree.scope o).name = (s.tree.scope o).name)
    (hm : ∀ x, t.types.HasMember x → s.types.HasMember x) : s.Prepares own t where
  names o _ he := .inl (hs o ▸ he)
  locals o ho _ := ⟨hs o, hn o (ScopeTree.hasScope_of_isLocal ho)⟩
  members x hx := .inl (hm x hx)

theorem refl (s : AnalysisState) : s.Prepares own s :=
  of_same (fun _ => rfl) (fun _ _ => rfl) fun _ h => h

theorem trans (h : s.Prepares own t) (hg : s.Grown t) (h' : t.Prepares own u) (hg' : t.Grown u) :
    s.Prepares own u where
  names o e he := by
    rcases h'.names o e he with he | hnew
    · refine (h.names o e he).imp_right fun hnew => hnew.imp (·.mono hg'.tree) fun hl => ?_
      rw [(hg'.tree.scope o (ScopeTree.hasScope_of_isLocal hl)).kind]
      exact hl
    · exact .inr hnew
  locals o hl ho := by
    refine (h.locals o hl ho).trans (h'.locals o ?_ ho)
    rw [(hg.tree.scope o (ScopeTree.hasScope_of_isLocal hl)).kind]
    exact hl
  members x hx := (h'.members x hx).elim (fun hx => (h.members x hx).imp_right (·.mono hg'.tree)) .inr

theorem quiet (h : s.Quiet t) : s.Prepares own t :=
  of_same (fun _ => by rw [h.tree]) (fun _ _ => by rw [h.tree]) fun _ => h.members

theorem child {tree : ScopeTree} {new : ScopeId} (h : s.tree.Adds tree scope new name kind) :
    s.Prepares own (s.setTree tree) :=
  of_same h.tables (fun o ho => (h.table o (h.ne ho)).name) fun _ hx => hx

/-- A scope outside of procedures may always get names. -/
theorem outside (h : s.Prepares [scope] t) (hs : (s.tree.scope scope).kind.isLocal = false) :
    s.Prepares own t where
  names := h.names
  locals o hl _ := h.locals o hl fun ho => by
    cases List.mem_singleton.mp ho
    cases hs.symm.trans hl
  members := h.members

/-- So may a scope that was just opened. -/
theorem inside (h : s.Prepares own t) (hg : s.Grown t) (hnew : ¬s.tree.HasScope scope)
    (h' : t.Prepares [scope] u) (hg' : t.Grown u) : s.Prepares own u := by
  have hwide : s.Prepares (scope :: own) t := ⟨h.names, fun o hl ho => h.locals o hl fun hm =>
    ho (List.mem_cons_of_mem _ hm), h.members⟩
  have hwide' : t.Prepares (scope :: own) u := ⟨h'.names, fun o hl ho => h'.locals o hl fun hm =>
    ho (List.mem_singleton.mp hm ▸ List.mem_cons_self), h'.members⟩
  have hall := hwide.trans hg hwide' hg'
  refine ⟨hall.names, fun o hl ho => hall.locals o hl fun hm => ?_, hall.members⟩
  rcases List.mem_cons.mp hm with rfl | hm
  · exact hnew (ScopeTree.hasScope_of_isLocal hl)
  · exact ho hm

theorem modifyScope (h : s.Prepares own t)
    (hf : ∀ p, (f p).symbols = p.symbols ∧ (f p).name = p.name ∧ (f p).kind = p.kind) :
    s.Prepares own (t.setTree (t.tree.modifyScope scope f)) := by
  have htable (o : ScopeId) : t.tree.SameTable (t.tree.modifyScope scope f) o :=
    .modifyScope fun p => ⟨(hf p).1, (hf p).2.1⟩
  have hkind (o : ScopeId) : ((t.tree.modifyScope scope f).scope o).kind = (t.tree.scope o).kind :=
    ScopeTree.modifyScope_congr fun p => (hf p).2.2
  refine ⟨fun o e he => ?_, fun o hl ho => (h.locals o hl ho).trans (htable o), fun x hx => ?_⟩
  · refine (h.names o e ((htable o).symbols ▸ he)).imp_right (Or.imp (fun hi => ⟨hi.has, hi.kind⟩) ?_)
    exact fun hl => (congrArg ScopeKind.isLocal (hkind o)).trans hl
  · exact (h.members x hx).imp_right fun hi => ⟨hi.has, hi.kind⟩

end Prepares

end AnalysisState

/-! ### Steps -/

namespace AnalysisState

variable {s : AnalysisState}

/-- What the first two visits keep. They set the bases of some types only. -/
structure Advances (L : TypeId → Prop) (v : Visit) (own : List ScopeId) (s t : AnalysisState) : Prop
    extends s.Grown t where
  along : Along L v s t
  prepares : s.Prepares own t

namespace Advances

theorem refl (s : AnalysisState) : s.Advances L v own s :=
  ⟨.refl s, .refl, .refl s⟩

theorem trans (h : s.Advances L v own t) (h' : t.Advances L v own u) : s.Advances L v own u :=
  ⟨h.toGrown.trans h'.toGrown, h.along.trans h'.along,
    h.prepares.trans h.toGrown h'.prepares h'.toGrown⟩

end Advances

end AnalysisState

namespace Analyze

open AnalysisState

/-- A step that lays out scopes, what it gives, and which new scopes it may leave incomplete. -/
def LaysBut (L : TypeId → Prop) (v : Visit) (own : List ScopeId) (out : α → List ScopeId)
    (s : AnalysisState) (x : Analyze α) (Q : AnalysisState → α → Prop) : Prop :=
  s.Valid v → s.Ok → (x s).2.Ok ∧ s.Advances L v own (x s).2 ∧
    s.Opens .bodies (out (x s).1) (x s).2 ∧ Q (x s).2 (x s).1

/-- A step that lays out scopes, and what it gives. -/
def Lays (L : TypeId → Prop) (v : Visit) (own : List ScopeId) (s : AnalysisState) (x : Analyze α)
    (Q : AnalysisState → α → Prop) : Prop :=
  LaysBut L v own (fun _ => []) s x Q

namespace LaysBut

theorem of (h : RunsBut L v .bodies out s x Q) (hp : s.Prepares own (x s).2) :
    LaysBut L v own out s x Q := by
  intro hs hok
  obtain ⟨hok', ha, hg, ho, hq⟩ := h hs hok
  exact ⟨hok', ⟨hg, ha, hp⟩, ho, hq⟩

theorem openScope (h : s.tree.HasScope outer) (hk : v.completes kind = false) :
    LaysBut L v own (fun new => [new]) s (openScope outer name kind) (OpensAt outer name kind s) :=
  of (.openScope h hk) (.child (ScopeTree.adds rfl))

theorem inside {Q : AnalysisState → ScopeId → Prop}
    {g : β → ScopeId} (hx : LaysBut L v own (fun new => [new]) s x Q)
    (hy : ∀ new t, s.Advances L v own t → Q t new → ¬s.tree.HasScope new ∧
      Lays L v [new] t (y new) fun u b => g b = new ∧ R u b) :
    LaysBut L v own (fun b => [g b]) s (x >>= y) R := by
  intro hs hok
  obtain ⟨hok', ht, ho, hq⟩ := hx hs hok
  obtain ⟨hnew, hy⟩ := hy _ _ ht hq
  obtain ⟨hok'', hu, ho', hg, hr⟩ := hy (ht.along.last hs) hok'
  refine ⟨hok'', ⟨ht.toGrown.trans hu.toGrown, ht.along.trans hu.along,
    ht.prepares.inside ht.toGrown hnew hu.prepares hu.toGrown⟩, ?_, hr⟩
  have hout : s.Opens .bodies [(x s).1] ((x >>= y) s).2 := ho.trans ho'.weaken hu.toGrown
  rwa [← show g ((x >>= y) s).1 = (x s).1 from hg] at hout

/-- A scope that was just opened gets its types. -/
theorem fill {g : α → ScopeId}
    (hx : LaysBut L v own (fun a => [g a]) s x Q)
    (hy : ∀ a t, s.Advances L v own t → t.Valid v → Q t a → ∃ f z,
      y a = (Analyze.modifyScope (g a) f >>= z) ∧ ¬s.tree.HasScope (g a) ∧ t.tree.HasScope (g a) ∧
      (t.tree.scope (g a)).FilledBy v .bodies t.types f ∧
      (∀ p : Scope, (f p).symbols = p.symbols ∧ (f p).name = p.name ∧ (f p).outer = p.outer ∧
        (f p).kind = p.kind) ∧
      (∀ p c, (f p).classType = some c → p.classType = some c ∨ c.Added) ∧
      ∀ t', t' = t.setTree (t.tree.modifyScope (g a) f) → Lays L v own t' (z ()) R) :
    Lays L v own s (x >>= y) R := by
  intro hs hok
  obtain ⟨hok', ht, ho, hq⟩ := hx hs hok
  have hv := ht.along.last hs
  obtain ⟨f, z, he, hnew, hhas, hfill, hf, hc, hz⟩ := hy _ _ ht hv hq
  have hv' := hv.fill hhas hfill
  have hok'' := hok'.tree.modifyScope (s := g (x s).1) (fun p => (hf p).2.2.1)
    (fun p => (hf p).2.2.2) hc
  have ht' : s.Advances L v own ((x s).2.setTree ((x s).2.tree.modifyScope (g (x s).1) f)) :=
    ⟨⟨ht.types, ht.tree.modifyScope hnew, ht.findings⟩, ht.along.trans (.next hv' rfl),
      ht.prepares.modifyScope fun p => ⟨(hf p).1, (hf p).2.1, (hf p).2.2.2⟩⟩
  obtain ⟨hend, hu, ho', hr⟩ := hz _ rfl hv' ⟨hok'', hok'.made⟩
  have hrun : (x >>= y) s = z () ((x s).2.setTree ((x s).2.tree.modifyScope (g (x s).1) f)) :=
    congrFun he (x s).2
  rw [hrun]
  exact ⟨hend, ht'.trans hu, (ho.fill hhas hfill.completed).trans ho' hu.toGrown, hr⟩

end LaysBut

namespace Lays

theorem pure (h : Q s a) : Lays L v own s (Pure.pure a) Q :=
  fun _ hok => ⟨hok, .refl s, .refl s, h⟩

theorem mono (hx : Lays L v own s x Q)
    (h : ∀ t a, s.Advances L v own t → Q t a → Q' t a) : Lays L v own s x Q' := by
  intro hs hok
  obtain ⟨hok', ht, ho, hq⟩ := hx hs hok
  exact ⟨hok', ht, ho, h _ _ ht hq⟩

theorem of_valid (h : s.Valid v → Lays L v own s x Q) : Lays L v own s x Q :=
  fun hs => h hs hs

theorem bind (hx : Lays L v own s x Q)
    (hy : ∀ a t, s.Advances L v own t → Q t a → Lays L v own t (y a) R) :
    Lays L v own s (x >>= y) R := by
  intro hs hok
  obtain ⟨hok', ht, ho, hq⟩ := hx hs hok
  obtain ⟨hok'', hu, ho', hr⟩ := hy _ _ ht hq (ht.along.last hs) hok'
  exact ⟨hok'', ht.trans hu, ho.trans ho' hu.toGrown, hr⟩

theorem weaken (hx : Lays L v own s x Q)
    (hL : ∀ u, L u → L' u) : Lays L' v own s x fun t a => s.Advances L v own t ∧ Q t a := by
  intro hs hok
  obtain ⟨hok', ht, ho, hq⟩ := hx hs hok
  exact ⟨hok', ⟨ht.toGrown, ht.along.weaken hL, ht.prepares⟩, ho, ht, hq⟩

/-- A scope outside of procedures may always get names. -/
theorem outside (hx : Lays L v [scope] s x Q) (hs : s.tree.Outside scope) :
    Lays L v own s x Q := by
  intro hv hok
  obtain ⟨hok', ht, ho, hq⟩ := hx hv hok
  exact ⟨hok', ⟨ht.toGrown, ht.along, ht.prepares.outside hs.kind⟩, ho, hq⟩

theorem types (h : Lays L v own s (y s.types) R) :
    Lays L v own s (Analyze.types >>= y) R :=
  h

theorem tree (h : Lays L v own s (y s.tree) R) :
    Lays L v own s (Analyze.tree >>= y) R :=
  h

theorem quiet (h : Looks L v .bodies s x Q) : Lays L v own s x fun t a => s.Quiet t ∧ Q t a := by
  intro hs hok
  obtain ⟨hok', ha, hg, ho, hquiet, hq⟩ := h hs hok
  exact ⟨hok', ⟨hg, ha, .quiet hquiet⟩, ho, hquiet, hq⟩

theorem report (h : p.isInternal = false) :
    Lays L v own s (report p loc n) fun t _ => s.Quiet t ∧ (p.severity = .error → t.Failed) :=
  quiet (.report h)

theorem fails (h : p.isInternal = false := by rfl) (he : p.severity = .error := by rfl) :
    Lays L v own s (Analyze.report p loc n) fun t _ => s.Quiet t ∧ t.Failed :=
  (report h).mono fun _ _ _ hfail => ⟨hfail.1, hfail.2 he⟩

theorem refer : Lays L v own s (refer loc n x) fun t _ => s.Quiet t :=
  (quiet .refer).mono fun _ _ _ h => h.1

theorem ofTypes (hx : (x s).2 = s.setTypes c)
    (hc : s.Valid v → s.types.Succeeds L c fun _ => False) :
    Lays L v own s x fun t a => t = s.setTypes c ∧ a = (x s).1 :=
  (quiet (.ofTypes (Q := fun t a => t = s.setTypes c ∧ a = (x s).1) hx hc
    fun _ => ⟨rfl, rfl⟩)).mono fun _ _ _ h => h.2

theorem writeRest {f : Snapshot → Snapshot} (ht : (f s.toSnapshot).types = s.types)
    (htree : (f s.toSnapshot).tree = s.tree) (hf : (f s.toSnapshot).findings = s.findings)
    (hsymbols : ∀ e ∈ (f s.toSnapshot).typeSymbols, e ∈ s.typeSymbols ∨ s.tree.HasSymbol e.2) :
    Lays L v own s (write f) fun t _ => s.Quiet t :=
  (quiet (.rest (Q := fun _ _ => True) ht htree hsymbols (fun _ hg => hf ▸ hg)
    (fun _ hg => .inl (hf ▸ hg)) trivial)).mono fun _ _ _ h => h.1

theorem modifySymbol (hi : ∀ x, (f x).inner = x.inner)
    (hk : ∀ x, (f x).kind = x.kind) (ht : ∀ x, (f x).type = x.type)
    (hx : (s.tree.symbol x).kind = .delegate)
    (hf : ∀ y : Symbol, y.Valid s.types → (f y).Valid s.types) :
    Lays L v own s (write fun s => { s with tree := s.tree.modifySymbol x f }) fun _ _ => True :=
  LaysBut.of (Runs.modifySymbol hi hk ht hx hf)
    (.of_same (fun _ => rfl) (fun _ _ => rfl) fun _ hx => hx)

theorem addMember (hx : s.tree.Inert x) :
    Lays L v own s (addMember owner name x) fun _ _ => True := by
  intro hs hok
  have hruns : Runs L v .bodies s (Analyze.addMember owner name x) _ := .addMember hx.has
  obtain ⟨hok', ha, hg, ho, htree, hm, -⟩ := hruns hs hok
  refine ⟨hok', ⟨hg, ha, fun _ _ he => .inl (htree ▸ he), fun _ _ _ => htree ▸ .refl _ _,
    fun y hy => (hm y hy).imp_right fun he => ?_⟩, ho, trivial⟩
  rw [htree, he]
  exact hx

theorem openScope (h : s.tree.HasScope outer) (hv : v.completes kind = false)
    (hw : Visit.bodies.completes kind = false) :
    Lays L v own s (openScope outer name kind) (OpensAt outer name kind s) :=
  LaysBut.of (Runs.openScope h hv hw) (.child (ScopeTree.adds rfl))

theorem define (hi : ∀ i, y.inner = some i → s.tree.Spacious i) (hs : s.tree.HasScope scope)
    (hv : y.kind.isVariable = true → (s.tree.scope scope).kind.isLocal = true)
    (hy : y.Valid s.types) (ht : y.Valued := by rfl) :
    Lays L v [scope] s (Analyze.define scope y) fun t new =>
      (∀ x, new = some x → t.tree.HasSymbol x ∧ t.tree.symbol x = { y with scope }) ∧
        s.tree.Enters t.tree scope [y.name] ∧
        (∀ e ∈ (t.tree.scope scope).symbols, e ∈ (s.tree.scope scope).symbols ∨ new = some e.2) ∧
        (∀ x, new = some x → t.tree.findLocal? scope y.name = some x) ∧
        Declaration.InOrder s.tree.symbols.size t.tree.symbols.size (new.toList.map .new) := by
  intro hvalid hok
  obtain ⟨hok', ha, hg, ho, hnew⟩ :=
    Runs.define (L := L) (w := .bodies) (o := scope) hi ht (fun _ => hy) hvalid hok
  have horder := define_inOrder s scope y
  rcases define_run s scope y with ⟨hd, hrun⟩ | ⟨tree, new, hd, hrun⟩
  · rw [hrun] at hok' ha hg ho horder ⊢
    exact ⟨hok', ⟨hg, ha, .refl s⟩, ho, nofun, .of_found (ScopeTree.isSome_of_define hd),
      fun _ he => .inl he, nofun, horder⟩
  · rw [hrun] at hok' ha hg ho horder hnew ⊢
    have h := ScopeTree.defines hd
    obtain ⟨henters, hfound⟩ := ScopeTree.enters_define hs hd
    have hmem (e : String × SymbolId) (he : e ∈ (tree.scope scope).symbols) :
        e ∈ (s.tree.scope scope).symbols ∨ some new = some e.2 :=
      (h.mem e he).imp_right fun he => congrArg (some ·.2) he.symm
    refine ⟨hok', ⟨hg, ha, fun o e he => ?_, fun o _ ho => ?_, fun x hx => .inl hx⟩, ho, hnew, henters,
      hmem, fun x hx => Option.some.inj hx ▸ hfound, horder⟩
    · by_cases ho : o = scope
      · subst ho
        refine (hmem e he).imp_right fun hx => ?_
        obtain ⟨hhas, hsym⟩ := hnew _ hx
        cases hy : y.kind.isVariable with
        | true => exact .inr ((h.same o).kind ▸ hv hy)
        | false => exact .inl ⟨hhas, by rw [hsym]; exact hy⟩
      · exact .inl ((h.table o ho).symbols ▸ he)
    · exact h.table o fun he => ho (he ▸ List.mem_cons_self)

theorem mapM {as : List α}
    (hmono : ∀ t u b, t.Advances L v own u → R t b → R u b)
    (hf : ∀ a ∈ as, ∀ t, Lays L v own t (f a) R) :
    Lays L v own s (as.mapM f) fun t bs => ∀ b ∈ bs, R t b := by
  induction as generalizing s with
  | nil => exact .pure (by simp)
  | cons a as ih =>
    rw [List.mapM_cons]
    obtain ⟨ha, has⟩ := List.forall_mem_cons.mp hf
    exact (ha s).bind fun b t _ hb => (ih has).bind fun bs u hu hbs =>
      .pure (List.forall_mem_cons.mpr ⟨hmono t u b hu hb, hbs⟩)

end Lays

theorem typeOf_lays :
    Lays L v own s (typeOf scope r loc) fun t a => s.Quiet t ∧ t.types.Has a :=
  .quiet (typeOf_looks r)

theorem typeOf?_lays :
    Lays L v own s (typeOf? scope r loc) fun t a => s.Quiet t ∧ t.types.Has a :=
  .quiet typeOf?_looks

/-! ### Visits -/

/-- A step of the first two visits, which does not fail, and what it gives. -/
def Visits (L : TypeId → Prop) (v : Visit) (s : AnalysisState) (x : Declare α)
    (Q : AnalysisState → α → Prop) : Prop :=
  Lays L v [] s x.run fun t r => ∃ a, r = .ok a ∧ Q t a

namespace Visits

theorem pure (h : Q s a) : Visits L v s (Pure.pure a) Q :=
  Lays.pure ⟨a, rfl, h⟩

theorem of_valid (h : s.Valid v → Visits L v s x Q) : Visits L v s x Q :=
  fun hs => h hs hs

theorem of_ok (h : s.Ok → Visits L v s x Q) : Visits L v s x Q :=
  fun hs hok => h hok hs hok

theorem lift (h : Lays L v [] s x Q) : Visits L v s (liftM x) Q := by
  intro hs hok
  obtain ⟨hok', ht, ho, hq⟩ := h hs hok
  exact ⟨hok', ht, ho, _, rfl, hq⟩

theorem bind (hx : Visits L v s x Q)
    (hy : ∀ a t, s.Advances L v [] t → Q t a → Visits L v t (y a) R) :
    Visits L v s (x >>= y) R := by
  refine Lays.bind (y := ExceptT.bindCont y) hx fun r t ht hq => ?_
  obtain ⟨a, rfl, hq⟩ := hq
  exact hy a t ht hq

theorem weaken (hx : Visits L v s x Q)
    (hL : ∀ u, L u → L' u) : Visits L' v s x fun t a => s.Advances L v [] t ∧ Q t a :=
  (Lays.weaken hx hL).mono fun _ _ _ ⟨ht, a, ha, hq⟩ => ⟨a, ha, ht, hq⟩

theorem run (hx : Visits L v s x Q) (hs : s.Valid v) (hok : s.Ok) :
    ∃ a t, x.run s = (.ok a, t) ∧ t.Ok ∧ s.Advances L v [] t ∧ s.Opens .bodies [] t ∧ Q t a := by
  obtain ⟨hok', ht, ho, a, hr, hq⟩ := hx hs hok
  exact ⟨a, _, Prod.ext hr rfl, hok', ht, ho, hq⟩

theorem tree (h : Visits L v s (y s.tree) R) :
    Visits L v s (liftM Analyze.tree >>= y) R :=
  h

theorem types (h : Visits L v s (y s.types) R) :
    Visits L v s (liftM Analyze.types >>= y) R :=
  h

end Visits

end Analyze

end BasicSSA
