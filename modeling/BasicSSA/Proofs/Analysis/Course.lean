import BasicSSA.Proofs.Analysis.Steps
import BasicSSA.Proofs.Types.Lineage

/-!
# The course of analysis

The state of analysis holds what was collected before each change of it, so a run can be followed
moment by moment.

## Main definitions

* `AnalysisState.Through`: something holds at each moment on the way from one state to another;
* `Snapshot.Valid`: what holds at all moments of a visit;
* `Analyze.Runs`: a step of analysis that keeps the state valid at each moment.
-/

namespace BasicSSA

/-- The visits of a program. -/
inductive Visit where
  | types | members | bodies
  deriving DecidableEq

/-- The scopes that have got their types before a visit. -/
def Visit.completes : Visit → ScopeKind → Bool
  | members, .cls | members, .interface => true
  | bodies, .cls | bodies, .interface | bodies, .function | bodies, .subroutine => true
  | _, _ => false

def Problem.isInternal : Problem → Bool
  | .internal _ => true
  | _ => false

/-- The types that a symbol speaks of exist, and it has those that its uses ask for. -/
structure Symbol.Valid (c : Catalog) (x : Symbol) : Prop where
  type : ∀ t, x.type = some t → c.Has t
  returnType : ∀ t, x.returnType = some t → c.Has t
  params : ∀ p ∈ x.params, ∃ t, p.type = some t ∧ c.Has t
  typed : x.kind.hasType = true → x.type.isSome = true
  returning : x.isCallable = true → x.returnType.isSome = true
  inner : x.kind = .nspace → x.inner.isSome = true

/-- The types that a scope speaks of exist. The type of a class scope was declared. -/
structure Scope.Valid (c : Catalog) (p : Scope) : Prop where
  returnType : ∀ t, p.returnType = some t → c.Has t
  classType : ∀ t, p.classType = some t → c.Has t ∧ ¬Catalog.initial.Has t

/-- A class scope has a class type, and the scope of a procedure has a return type, if a visit may
ask for it. -/
def Scope.Complete (v : Visit) (p : Scope) : Prop :=
  v.completes p.kind = true →
    if p.kind.isProcedure then p.returnType.isSome = true else p.classType.isSome = true

/-- A change gives a scope its types. -/
structure Scope.FilledBy (v w : Visit) (c : Catalog) (p : Scope) (f : Scope → Scope) : Prop where
  kind : (f p).kind = p.kind
  symbols : (f p).symbols = p.symbols
  valid : (f p).Valid c
  complete : (f p).Complete v
  completed : (f p).Complete w

/-- The third visit asks for all that an earlier one asks for. -/
theorem Scope.Complete.earlier {p : Scope} (h : p.Complete .bodies) (v : Visit) : p.Complete v := by
  intro hv
  refine h ?_
  cases v <;> cases hk : p.kind <;> rw [hk] at hv <;> first | rfl | cases hv

theorem Scope.Same.complete {p p' : Scope} (hp : p.Same p') (h : p.Complete v) : p'.Complete v := by
  rwa [Scope.Complete, hp.kind, hp.returnType, hp.classType]

/-- What holds of all that is collected, at all times during a visit. -/
structure Snapshot.Valid (v : Visit) (s : Snapshot) : Prop where
  types : s.types.Lawful
  symbols : ∀ x, s.tree.HasSymbol x → (s.tree.symbol x).Valid s.types
  scopes : ∀ o, (s.tree.scope o).Valid s.types
  complete : ∀ o, s.tree.HasScope o → (s.tree.scope o).Complete v
  /-- Every name leads to a symbol. -/
  tables : ∀ o, ∀ e ∈ (s.tree.scope o).symbols, s.tree.HasSymbol e.2
  members : ∀ x, s.types.HasMember x → s.tree.HasSymbol x
  typeSymbols : ∀ e ∈ s.typeSymbols, s.tree.HasSymbol e.2
  findings : ∀ f ∈ s.findings, f.problem.isInternal = false

namespace AnalysisState

/-- What was collected at each moment up to a state, the last one first. -/
def moments (s : AnalysisState) : List Snapshot :=
  s.toSnapshot :: s.past

/-- Something holds of what was collected at each moment after one state, up to another. -/
def Through (P : Snapshot → Prop) (s t : AnalysisState) : Prop :=
  ∃ l, t.moments = l ++ s.moments ∧ ∀ q ∈ l, P q

/-- The new scopes, up to some, have got what another visit may ask for. -/
def Opens (w : Visit) (except : List ScopeId) (s t : AnalysisState) : Prop :=
  ∀ o, t.tree.HasScope o → ¬s.tree.HasScope o → o ∉ except → (t.tree.scope o).Complete w

/-- The way from one state to another during a visit. It sets the bases of some types only. -/
structure Along (L : TypeId → Prop) (v : Visit) (s t : AnalysisState) : Prop where
  through : Through (Snapshot.Valid v) s t
  has : ∀ b, s.types.Has b → t.types.Has b
  base : ∀ {b}, s.types.Has b → ¬L b → t.types.base b = s.types.base b

variable {s : AnalysisState}

namespace Opens

theorem refl (s : AnalysisState) : s.Opens w l s :=
  fun _ ho hnot => absurd ho hnot

theorem of_scopes (h : ∀ o, t.tree.HasScope o → s.tree.HasScope o) : Opens w l s t :=
  fun o ho hnot => absurd (h o ho) hnot

theorem trans (h : Opens w l s t) (h' : Opens w l t u) (hg : t.Grown u) : Opens w l s u := by
  intro o ho hnot hne
  by_cases hot : t.tree.HasScope o
  · exact (hg.tree.scope o hot).complete (h o hot hnot hne)
  · exact h' o ho hot hne

theorem weaken (h : Opens w [] s t) : Opens w l s t :=
  fun o ho hnot _ => h o ho hnot (by simp)

theorem fill (h : Opens w [o] s t) (ho : t.tree.HasScope o)
    (hf : (f (t.tree.scope o)).Complete w) :
    Opens w [] s (t.setTree (t.tree.modifyScope o f)) := by
  intro u hu hnot _
  have hut := ScopeTree.hasScope_modifyScope.mp hu
  obtain rfl | hne := Decidable.eq_or_ne u o
  · rwa [tree_setTree, ScopeTree.scope_modifyScope_self ho]
  · rw [tree_setTree, ScopeTree.scope_modifyScope_of_ne hne]
    exact h u hut hnot (by simpa using hne)

end Opens

namespace Through

theorem refl : Through P s s :=
  ⟨[], rfl, by simp⟩

theorem trans (h : Through P s t) (h' : Through P t u) : Through P s u := by
  obtain ⟨l, hl, hP⟩ := h
  obtain ⟨l', hl', hP'⟩ := h'
  refine ⟨l' ++ l, ?_, List.forall_mem_append.mpr ⟨hP', hP⟩⟩
  rw [hl', hl, List.append_assoc]

theorem next {q : Snapshot} (h : P q) : Through P s (s.next q) :=
  ⟨[q], rfl, List.forall_mem_singleton.mpr h⟩

theorem last (h : Through P s t) (hs : P s.toSnapshot) : P t.toSnapshot := by
  obtain ⟨l, hl, hP⟩ := h
  cases l with
  | nil => exact (List.cons.inj hl).1 ▸ hs
  | cons q l => exact (List.cons.inj hl).1 ▸ hP q List.mem_cons_self

theorem imp (h : Through P s t) (hP : ∀ {q}, P q → P' q) : Through P' s t := by
  obtain ⟨l, hl, h⟩ := h
  exact ⟨l, hl, fun q hq => hP (h q hq)⟩

end Through

namespace Along

theorem refl : Along L v s s :=
  ⟨.refl, fun _ hb => hb, fun _ _ => rfl⟩

theorem trans (h : Along L v s t) (h' : Along L v t u) : Along L v s u :=
  ⟨h.through.trans h'.through, fun b hb => h'.has b (h.has b hb),
    fun hb hL => (h'.base (h.has _ hb) hL).trans (h.base hb hL)⟩

/-- A change that does not concern types. -/
theorem next {q : Snapshot} (hq : q.Valid v) (ht : q.types = s.types) : Along L v s (s.next q) :=
  ⟨.next hq, fun _ hb => ht.symm ▸ hb, fun _ _ => congrArg (Catalog.base · _) ht⟩

theorem last (h : Along L v s t) (hs : s.Valid v) : t.Valid v :=
  h.through.last hs

theorem weaken (h : Along L v s t) (hL : ∀ u, L u → L' u) : Along L' v s t :=
  ⟨h.through, h.has, fun hb hnot => h.base hb (mt (hL _) hnot)⟩

end Along

end AnalysisState

/-! ### Valid states -/

variable {c c' : Catalog} {s : AnalysisState}

/-- A visit may follow another one that has completed all scopes. -/
theorem Snapshot.Valid.next {t : AnalysisState} (h : t.Valid v)
    (hs : ∀ o, s.tree.HasScope o → (s.tree.scope o).Complete w) (hg : s.Grown t)
    (ho : s.Opens w [] t) : t.Valid w :=
  { h with
    complete := fun o hot => by
      by_cases hos : s.tree.HasScope o
      · exact (hg.tree.scope o hos).complete (hs o hos)
      · exact ho o hot hos (by simp) }

theorem Symbol.Valid.mono {x : Symbol} (h : x.Valid c) (hk : c.Keeps c') : x.Valid c' where
  type t ht := hk.has (h.type t ht)
  returnType t ht := hk.has (h.returnType t ht)
  params p hp := by
    obtain ⟨t, ht, hhas⟩ := h.params p hp
    exact ⟨t, ht, hk.has hhas⟩
  typed := h.typed
  returning := h.returning
  inner := h.inner

theorem Scope.Valid.mono {p : Scope} (h : p.Valid c) (hk : c.Keeps c') : p.Valid c' where
  returnType t ht := hk.has (h.returnType t ht)
  classType t ht := ⟨hk.has (h.classType t ht).1, (h.classType t ht).2⟩

/-- One more catalog in the course of analysis. -/
structure Catalog.Succeeds (L : TypeId → Prop) (c c' : Catalog) (new : SymbolId → Prop) :
    Prop where
  lawful : c'.Lawful
  keeps : c.Keeps c'
  base : ∀ b, c.Has b → ¬L b → c'.base b = c.base b
  members : ∀ x, c'.HasMember x → c.HasMember x ∨ new x
  made : ∀ e ∈ c'.made, e ∈ c.made ∨ ¬c.Has e.2

theorem Scope.Valid.same {p p' : Scope} (h : p.Valid c) (hp : p.Same p') : p'.Valid c where
  returnType t ht := h.returnType t (hp.returnType ▸ ht)
  classType t ht := h.classType t (hp.classType ▸ ht)

namespace Catalog

theorem hasMember_of_types (h : c'.types = c.types) (hx : c'.HasMember x) : c.HasMember x := by
  obtain ⟨t, name, hx⟩ := hx
  rw [info, h] at hx
  exact ⟨t, name, hx⟩

theorem hasMember_of_push (h : c'.types = c.types.push i) (hm : i.members = [])
    (hx : c'.HasMember x) : c.HasMember x := by
  obtain ⟨t, name, hx⟩ := hx
  simp only [info, h, Array.getD_eq_getD_getElem?, Array.getElem?_push] at hx
  split at hx
  · simp [hm] at hx
  · exact ⟨t, name, by simpa [info] using hx⟩

theorem hasMember_modify {P : SymbolId → Prop}
    (hm : ∀ i, ∀ e ∈ (f i).members, e ∈ i.members ∨ P e.2)
    (hx : (c.modify ty f).HasMember x) : c.HasMember x ∨ P x := by
  obtain ⟨u, name, hx⟩ := hx
  by_cases hu : (c.modify ty f).Has u
  · obtain rfl | hne := Decidable.eq_or_ne u ty
    · rw [info_modify_self (has_modify.mp hu)] at hx
      exact (hm _ _ hx).imp_left fun h => ⟨u, name, h⟩
    · exact .inl ⟨u, name, info_modify_of_ne hne ▸ hx⟩
  · rw [info_eq_default hu] at hx
    cases hx

namespace Succeeds

theorem make (h : (c.make spelling i).1.Lawful ∧ Keeps c (c.make spelling i).1 ∧ P)
    (hm : i.members = []) : c.Succeeds L (c.make spelling i).1 new := by
  obtain ⟨hc, hk, -⟩ := h
  revert hc hk
  unfold Catalog.make
  cases c.made.lookup spelling with
  | some _ =>
    exact fun hc hk => ⟨hc, hk, fun _ _ _ => rfl, fun _ hx => .inl hx, fun _ he => .inl he⟩
  | none =>
    refine fun hc hk => ⟨hc, hk, fun _ hb _ => congrArg TypeInfo.base (info_add hb),
      fun _ hx => .inl (hasMember_of_push rfl hm hx), fun e he => ?_⟩
    exact (List.mem_cons.mp he).elim (fun he => .inr (he ▸ Nat.lt_irrefl _)) .inl

theorem arrayOf (hc : c.Lawful) (ht : c.Has ty) : c.Succeeds L (c.arrayOf ty n).1 new :=
  make (hc.arrayOf ht) rfl

theorem pointerTo (hc : c.Lawful) (ht : c.Has ty) : c.Succeeds L (c.pointerTo ty).1 new :=
  make (hc.pointerTo ht) rfl

theorem parameter {name : String} (hc : c.Lawful) : c.Succeeds L (c.parameter name).1 new :=
  make hc.parameter rfl

theorem genericOf {name : String} (hc : c.Lawful) (ht : c.Has ty)
    (hargs : ∀ u ∈ args, c.Has u) :
    c.Succeeds L ((c.genericOf name args).getD (c, ty)).1 new := by
  obtain ⟨hlawful, hkeeps, -⟩ : ((c.genericOf name args).getD (c, ty)).1.Lawful ∧ _ :=
    hc.genericOf ht hargs
  revert hlawful hkeeps
  unfold Catalog.genericOf
  cases c.find? name with
  | none => exact fun _ _ => ⟨hc, .refl, fun _ _ _ => rfl, fun _ hx => .inl hx, fun _ he => .inl he⟩
  | some definition => exact fun hlawful hkeeps => make ⟨hlawful, hkeeps, trivial⟩ rfl

theorem define {name : String} (hc : c.Lawful)
    (h : c.define name kind = some (c', ty)) (hk : kind.isDeclared = true) :
    c.Succeeds L c' new := by
  obtain ⟨hc', hkeeps, -⟩ := hc.define h hk
  unfold Catalog.define at h
  split at h
  · cases h
  · obtain ⟨shape, -, h⟩ := Option.map_eq_some_iff.mp h
    cases h
    exact ⟨hc', hkeeps, fun _ hb _ => congrArg TypeInfo.base (info_add hb),
      fun _ hx => .inl (hasMember_of_push rfl rfl hx), fun _ he => .inl he⟩

theorem defineAlias {name : String} (hc : c.Lawful) (ht : c.Has ty)
    (h : c.defineAlias name ty = some c') : c.Succeeds L c' new := by
  obtain ⟨hc', hkeeps⟩ := hc.defineAlias ht h
  unfold Catalog.defineAlias at h
  split at h
  · cases h
  · cases h
    exact ⟨hc', hkeeps, fun _ _ _ => rfl, fun _ hx => .inl (hasMember_of_types rfl hx),
      fun _ he => .inl he⟩

theorem setBase (hc : c.Lawful) (ht : c.Has ty) (hnot : ¬initial.Has ty) (hshape : c.shape ty = .cls)
    (hb : c.Has b) (hb' : c.shape b = .cls) (hne : ty ∉ c.bases b) (hL : L ty) :
    c.Succeeds L (c.setBase ty b) new := by
  refine ⟨hc.setBase ht hnot hshape hb hb' hne, keeps_modify fun _ => ⟨rfl, rfl, rfl⟩,
    fun u _ hu => ?_, fun _ => hasMember_modify fun _ _ h => .inl h, fun _ he => .inl he⟩
  have hne : u ≠ ty := fun he => hu (he ▸ hL)
  rw [Catalog.base, Catalog.setBase, info_modify_of_ne hne, Catalog.base]

theorem addInterface (hc : c.Lawful) (hnot : ¬initial.Has ty) (hshape : c.shape ty = .cls)
    (hb : c.Has b) (hb' : c.shape b = .interface) : c.Succeeds L (c.addInterface ty b) new :=
  ⟨hc.addInterface hnot hshape hb hb', keeps_modify fun _ => ⟨rfl, rfl, rfl⟩,
    fun _ _ _ => base_modify fun _ => rfl, fun _ => hasMember_modify fun _ _ h => .inl h,
    fun _ he => .inl he⟩

theorem setMember {name : String} (hc : c.Lawful) :
    c.Succeeds L (c.setMember ty name x) (· = x) := by
  refine ⟨hc.setMember, keeps_modify fun _ => ⟨rfl, rfl, rfl⟩,
    fun _ _ _ => base_modify fun _ => rfl,
    fun _ => hasMember_modify (P := (· = x)) fun _ e he => ?_, fun _ he => .inl he⟩
  exact (List.mem_cons.mp he).elim (fun he => .inr (he ▸ rfl)) .inl

end Succeeds

end Catalog

namespace Snapshot

variable {s : Snapshot}

theorem Valid.withTypes {new : SymbolId → Prop} (h : s.Valid v) (hc : s.types.Succeeds L c new)
    (hn : ∀ x, new x → s.tree.HasSymbol x) : Valid v { s with types := c } where
  types := hc.lawful
  symbols x hx := (h.symbols x hx).mono hc.keeps
  scopes o := (h.scopes o).mono hc.keeps
  complete := h.complete
  tables := h.tables
  members x hx := (hc.members x hx).elim (h.members x) (hn x)
  typeSymbols := h.typeSymbols
  findings := h.findings

theorem Valid.define {tree : ScopeTree} {y : Symbol} (hs : s.Valid v)
    (h : s.tree.Defines tree o y new) (hy : y.Valid s.types) : Valid v { s with tree } where
  types := hs.types
  symbols x hx := by
    obtain hx | rfl := (h.hasSymbol x).mp hx
    · rw [h.old x (h.ne hx)]
      exact hs.symbols x hx
    · rw [h.new]
      exact ⟨hy.type, hy.returnType, hy.params, hy.typed, hy.returning, hy.inner⟩
  scopes u := (hs.scopes u).same (h.same u)
  complete u hu := (h.same u).complete (hs.complete u ((h.hasScope u).mp hu))
  tables u e he := (h.hasSymbol e.2).mpr ((h.symbols u he).imp_left (hs.tables u e))
  members x hx := (h.hasSymbol x).mpr (.inl (hs.members x hx))
  typeSymbols e he := (h.hasSymbol e.2).mpr (.inl (hs.typeSymbols e he))
  findings := hs.findings

theorem Valid.child {tree : ScopeTree} {kind : ScopeKind} (hs : s.Valid v)
    (h : s.tree.Adds tree o new name kind) (hk : v.completes kind = false) :
    Valid v { s with tree } where
  types := hs.types
  symbols x hx := h.symbol_eq x ▸ hs.symbols x (h.hasSymbol.mp hx)
  scopes u := by
    obtain rfl | hne := Decidable.eq_or_ne u new
    · exact h.new ▸ ⟨nofun, nofun⟩
    · exact (hs.scopes u).same (h.same u hne)
  complete u hu := by
    obtain rfl | hne := Decidable.eq_or_ne u new
    · rw [h.new]
      exact fun hc => absurd hc (by simp [hk])
    · exact (h.same u hne).complete (hs.complete u (((h.hasScope u).mp hu).resolve_right hne))
  tables u e he := h.hasSymbol.mpr (hs.tables u e (h.tables u ▸ he))
  members x hx := h.hasSymbol.mpr (hs.members x hx)
  typeSymbols e he := h.hasSymbol.mpr (hs.typeSymbols e he)
  findings := hs.findings

theorem Valid.fill (hs : s.Valid v) (ho : s.tree.HasScope o)
    (hf : (s.tree.scope o).FilledBy v w s.types f) :
    Valid v { s with tree := s.tree.modifyScope o f } := by
  have hself := ScopeTree.scope_modifyScope_self (f := f) ho
  have hother (u : ScopeId) (hne : u ≠ o) : (s.tree.modifyScope o f).scope u = s.tree.scope u :=
    ScopeTree.scope_modifyScope_of_ne hne
  refine ⟨hs.types, hs.symbols, fun u => ?_, fun u hu => ?_, fun u e he => ?_, hs.members,
    hs.typeSymbols, hs.findings⟩
  all_goals obtain rfl | hne := Decidable.eq_or_ne u o
  · exact hself ▸ hf.valid
  · exact hother u hne ▸ hs.scopes u
  · exact hself ▸ hf.complete
  · exact hother u hne ▸ hs.complete u (ScopeTree.hasScope_modifyScope.mp hu)
  · have he' : e ∈ (f (s.tree.scope u)).symbols := hself ▸ he
    exact hs.tables u e (hf.symbols ▸ he')
  · exact hs.tables u e (hother u hne ▸ he)

/-- The types that a symbol speaks of exist, be it one of the tree or not. -/
theorem Valid.has_of_symbol (h : s.Valid v) (x : SymbolId) :
    (∀ c, (s.tree.symbol x).type = some c → s.types.Has c) ∧
    (∀ c, (s.tree.symbol x).returnType = some c → s.types.Has c) ∧
    ∀ p ∈ (s.tree.symbol x).params, ∃ c, p.type = some c ∧ s.types.Has c := by
  by_cases hx : s.tree.HasSymbol x
  · exact ⟨(h.symbols x hx).type, (h.symbols x hx).returnType, (h.symbols x hx).params⟩
  · have hdefault : s.tree.symbol x = default := by
      rw [ScopeTree.symbol, Array.getD_eq_getD_getElem?,
        Array.getElem?_eq_none (Nat.not_lt.mp hx), Option.getD_none]
    rw [hdefault]
    refine ⟨?_, ?_, ?_⟩ <;> rintro _ ⟨⟩

end Snapshot

namespace Analyze

open AnalysisState

/-- A step of analysis that keeps the state valid after each of its writes and sets the bases of some
types only, what it gives, and which new scopes it may leave incomplete. -/
def RunsBut (L : TypeId → Prop) (v w : Visit) (out : α → List ScopeId) (s : AnalysisState) (x : Analyze α)
    (Q : AnalysisState → α → Prop) : Prop :=
  s.Valid v → s.Ok → (x s).2.Ok ∧ Along L v s (x s).2 ∧ s.Grown (x s).2 ∧
    s.Opens w (out (x s).1) (x s).2 ∧ Q (x s).2 (x s).1

/-- A step of analysis that keeps the state valid after each of its writes and sets the bases of some
types only, and what it gives. -/
def Runs (L : TypeId → Prop) (v w : Visit) (s : AnalysisState) (x : Analyze α)
    (Q : AnalysisState → α → Prop) : Prop :=
  RunsBut L v w (fun _ => []) s x Q

theorem RunsBut.and {Q Q' : AnalysisState → α → Prop} (h : RunsBut L v w out s x Q)
    (h' : Q' (x s).2 (x s).1) : RunsBut L v w out s x fun t a => Q t a ∧ Q' t a :=
  fun hs hok => (h hs hok).imp_right (.imp_right (.imp_right (.imp_right (⟨·, h'⟩))))

theorem Runs.ofTypes {Q : AnalysisState → α → Prop} (hx : (x s).2 = s.setTypes c)
    (hc : s.Valid v → s.types.Succeeds L c P) (hn : ∀ y, P y → s.tree.HasSymbol y)
    (hq : s.Valid v → Q (s.setTypes c) (x s).1) : Runs L v w s x Q := by
  intro hs hok
  have hsucc := hc hs
  rw [hx]
  refine ⟨⟨hok.tree, fun e he => ?_⟩,
    ⟨.next (hs.withTypes hsucc hn), fun _ hb => hsucc.keeps.has hb, hsucc.base _⟩,
    ⟨hs.types.grown hsucc.lawful hsucc.keeps, .refl _, fun _ hf => hf⟩,
    .of_scopes fun _ ho => ho, hq hs⟩
  exact (hsucc.made e he).elim (hok.made e) hs.types.added

/-- Such a step that leaves the meaning of all names alone. -/
def Looks (L : TypeId → Prop) (v w : Visit) (s : AnalysisState) (x : Analyze α)
    (Q : AnalysisState → α → Prop) : Prop :=
  Runs L v w s x fun t a => s.Quiet t ∧ Q t a

namespace Looks

theorem pure (h : Q s a) : Looks L v w s (Pure.pure a) Q :=
  fun _ hok => ⟨hok, .refl, .refl s, .refl s, .refl s, h⟩

theorem bind (hx : Looks L v w s x Q)
    (hy : ∀ a t, s.Grown t → Q t a → Looks L v w t (y a) R) : Looks L v w s (x >>= y) R := by
  intro hs hok
  obtain ⟨hok', ha, hg, ho, hquiet, hq⟩ := hx hs hok
  obtain ⟨hok'', ha', hg', ho', hquiet', hr⟩ := hy _ _ hg hq (ha.last hs) hok'
  exact ⟨hok'', ha.trans ha', hg.trans hg', ho.trans ho' hg', hquiet.trans hquiet', hr⟩

theorem of_valid (h : s.Valid v → Looks L v w s x Q) : Looks L v w s x Q :=
  fun hs => h hs hs

theorem get (h : Looks L v w s (y s) R) : Looks L v w s (MonadState.get >>= y) R :=
  h

/-- A step that writes what is neither a type nor in the tree. -/
theorem rest {Q : AnalysisState → PUnit → Prop} {f : Snapshot → Snapshot}
    (ht : (f s.toSnapshot).types = s.types) (htree : (f s.toSnapshot).tree = s.tree)
    (hsymbols : ∀ e ∈ (f s.toSnapshot).typeSymbols, e ∈ s.typeSymbols ∨ s.tree.HasSymbol e.2)
    (hkeep : ∀ g ∈ s.findings, g ∈ (f s.toSnapshot).findings)
    (hfindings : ∀ g ∈ (f s.toSnapshot).findings, g ∈ s.findings ∨ g.problem.isInternal = false)
    (hq : Q (s.next (f s.toSnapshot)) ⟨⟩) : Looks L v w s (write f) Q := by
  intro hs hok
  have hvalid : (f s.toSnapshot).Valid v :=
    { types := ht ▸ hs.types
      symbols := ht ▸ htree ▸ hs.symbols
      scopes := ht ▸ htree ▸ hs.scopes
      complete := htree ▸ hs.complete
      tables := htree ▸ hs.tables
      members := ht ▸ htree ▸ hs.members
      typeSymbols := fun e he => htree ▸ (hsymbols e he).elim (hs.typeSymbols e) id
      findings := fun g hg => (hfindings g hg).elim (hs.findings g) id }
  exact ⟨⟨htree ▸ hok.tree, ht ▸ hok.made⟩, .next hvalid ht,
    ⟨ht ▸ .refl, htree ▸ .refl _, hkeep⟩, .of_scopes fun _ ho => htree ▸ ho, ⟨htree, ht ▸ id⟩, hq⟩

theorem reportAll (h : ∀ p ∈ ps, p.isInternal = false) :
    Looks L v w s (reportAll ps loc) fun t _ => (∃ p ∈ ps, p.severity = .error) → t.Failed := by
  refine rest rfl rfl (fun _ he => .inl he) (fun _ hg => List.mem_append_left _ hg)
    (fun _ hg => (List.mem_append.mp hg).imp_right fun hg => ?_) fun ⟨p, hp, he⟩ => ?_
  · obtain ⟨p, hp, rfl⟩ := List.mem_map.mp hg
    exact h p hp
  · refine List.any_append.trans (Bool.or_eq_true_iff.mpr (.inr (List.any_eq_true.mpr ?_)))
    exact ⟨{ problem := p, loc }, List.mem_map_of_mem hp, by simp [Finding.isError, he]⟩

theorem report (h : p.isInternal = false) :
    Looks L v w s (report p loc n) fun t _ => p.severity = .error → t.Failed := by
  refine rest rfl rfl (fun _ he => .inl he) (fun _ hg => List.mem_append_left _ hg)
    (fun _ hg => (List.mem_append.mp hg).imp_right fun hg => ?_) fun he => ?_
  · cases List.mem_singleton.mp hg
    exact h
  · exact List.any_append.trans (by simp [Finding.isError, he])

theorem refer : Looks L v w s (refer loc n x) fun _ _ => True := by
  unfold Analyze.refer
  split
  · exact rest rfl rfl (fun _ he => .inl he) (fun _ hg => hg) (fun _ hg => .inl hg) trivial
  · exact .pure trivial

/-- A step that writes to the catalog and gives no type a member. -/
theorem ofTypes (hx : (x s).2 = s.setTypes c)
    (hc : s.Valid v → s.types.Succeeds L c fun _ => False)
    (hq : s.Valid v → Q (s.setTypes c) (x s).1) : Looks L v w s x Q :=
  Runs.ofTypes hx hc (fun _ h => h.elim) fun hs =>
    ⟨⟨rfl, fun h => ((hc hs).members _ h).resolve_right id⟩, hq hs⟩

end Looks

namespace Runs

theorem define (hi : ∀ i, y.inner = some i → s.tree.Spacious i) (hv : y.Valued)
    (hy : s.Valid v → y.Valid s.types) : Runs L v w s (define o y) fun t new => ∀ x, new = some x →
      t.tree.HasSymbol x ∧ t.tree.symbol x = { y with scope := o } := by
  intro hs hok
  rcases define_run s o y with ⟨-, hrun⟩ | ⟨tree, new, hd, hrun⟩
  · rw [hrun]
    exact ⟨hok, .refl, .refl s, .refl s, nofun⟩
  · rw [hrun]
    have h := ScopeTree.defines hd
    refine ⟨⟨h.ok hok.tree hi hv, hok.made⟩, .next (hs.define h (hy hs)) rfl,
      ⟨.refl, h.grown, fun _ hf => hf⟩, .of_scopes fun o => (h.hasScope o).mp, fun x hx => ?_⟩
    cases hx
    exact ⟨h.has, h.new⟩

theorem addMember (hx : s.tree.HasSymbol x) :
    Runs L v w s (addMember owner name x) fun t _ => t.tree = s.tree ∧
      (∀ y, t.types.HasMember y → s.types.HasMember y ∨ y = x) ∧ (owner = none → t = s) := by
  cases owner with
  | none => exact fun _ hok => ⟨hok, .refl, .refl s, .refl s, rfl, fun _ => .inl, fun _ => rfl⟩
  | some c =>
    exact ofTypes (P := (· = x)) rfl (fun hs => .setMember hs.types) (fun y hy => hy ▸ hx)
      fun hs => ⟨rfl, (Catalog.Succeeds.setMember (L := L) hs.types).members, nofun⟩

/-- A delegate gets other parameters and another return type. -/
theorem modifySymbol (hi : ∀ x, (f x).inner = x.inner) (hk : ∀ x, (f x).kind = x.kind)
    (ht : ∀ x, (f x).type = x.type) (hx : (s.tree.symbol x).kind = .delegate)
    (hf : ∀ y : Symbol, y.Valid s.types → (f y).Valid s.types) :
    Runs L v w s (write fun s => { s with tree := s.tree.modifySymbol x f }) fun _ _ => True := by
  intro hs hok
  have hsymbol (y : SymbolId) : (s.tree.modifySymbol x f).HasSymbol y ↔ s.tree.HasSymbol y := by
    simp [ScopeTree.HasSymbol, ScopeTree.modifySymbol]
  have hvalid : Snapshot.Valid v { s.toSnapshot with tree := s.tree.modifySymbol x f } := by
    refine ⟨hs.types, fun y hy => ?_, hs.scopes, hs.complete,
      fun o e he => (hsymbol _).mpr (hs.tables o e he),
      fun y hy => (hsymbol _).mpr (hs.members y hy),
      fun e he => (hsymbol _).mpr (hs.typeSymbols e he), hs.findings⟩
    have hy := hs.symbols y ((hsymbol y).mp hy)
    rcases ScopeTree.symbol_modifySymbol (t := s.tree) (y := x) (f := f) (x := y) with h | ⟨-, h⟩
    · exact h ▸ hy
    · exact h ▸ hf _ hy
  obtain ⟨htree, hgrown⟩ := ScopeTree.modifySymbol_ok hok.tree hi hk ht hx
  exact ⟨⟨htree, hok.made⟩, .next hvalid rfl, ⟨.refl, hgrown, fun _ h => h⟩,
    .of_scopes fun _ ho => ho, trivial⟩

end Runs

/-- A new scope is opened. -/
structure OpensAt (outer : ScopeId) (name : String) (kind : ScopeKind) (s t : AnalysisState)
    (new : ScopeId) : Prop where
  adds : s.tree.Adds t.tree outer new name kind
  types : t.types = s.types

namespace OpensAt

section

variable (h : OpensAt outer name kind s t new)

include h

theorem fresh : ¬s.tree.HasScope new :=
  h.adds.fresh

theorem has : t.tree.HasScope new :=
  (h.adds.hasScope new).mpr (.inr rfl)

theorem outer_eq :
    (t.tree.scope new).outer = s.tree.chain outer := by
  rw [h.adds.new]

end

theorem kind (h : OpensAt outer name k s t new) : (t.tree.scope new).kind = k := by
  rw [h.adds.new]

end OpensAt

theorem RunsBut.openScope (ho : s.tree.HasScope o) (hk : v.completes kind = false) :
    RunsBut L v w (fun new => [new]) s (openScope o name kind) (OpensAt o name kind s) := by
  intro hs hok
  have h : s.tree.Adds _ o _ name kind := ScopeTree.adds rfl
  refine ⟨⟨h.ok hok.tree ho, hok.made⟩, .next (hs.child h hk) rfl,
    ⟨.refl, h.grown, fun _ h => h⟩, fun u hu hnot hne => ?_, h, rfl⟩
  exact absurd (List.mem_singleton.mpr (((h.hasScope u).mp hu).resolve_left hnot)) hne

theorem Runs.openScope (ho : s.tree.HasScope o) (hv : v.completes kind = false)
    (hw : w.completes kind = false) :
    Runs L v w s (openScope o name kind) (OpensAt o name kind s) := by
  intro hs hok
  have hopen : RunsBut L v w (fun new => [new]) s (Analyze.openScope o name kind) _ :=
    RunsBut.openScope ho hv
  obtain ⟨hok', ha, hg, ho, hq⟩ := hopen hs hok
  refine ⟨hok', ha, hg, fun u hu hnot _ => ?_, hq⟩
  by_cases hne : u = (Analyze.openScope o name kind s).1
  · intro hc
    rw [hne, hq.kind, hw] at hc
    cases hc
  · exact ho u hu hnot (by simpa using hne)

end Analyze

end BasicSSA
