import BasicSSA.Lower.Program
import BasicSSA.Proofs.Analysis.Signatures

/-!
# What analysis checks in a program

The third visit checks all bodies and values that it reaches, and gives every expression in them a
type of the catalog. So the items of an accepted program keep to the rules.
-/

namespace BasicSSA

open Lower (ScopedAll)

/-! ### Checked items -/

variable {s : AnalysisState}

/-- A value whose nodes were checked. -/
def AnalysisState.ChecksValue (s : AnalysisState) (value : Option (Expr Note)) : Prop :=
  ∀ e, value = some e → ∀ r, ∀ n ∈ e.nodes, s.Checked r n

theorem AnalysisState.ChecksValue.of_nodes
    (h : ∀ r, ∀ n ∈ v.elim [] Expr.nodes, s.Checked r n) : s.ChecksValue v := by
  rintro e rfl
  exact h

theorem AnalysisState.ChecksValue.mono (hv : s.ChecksValue v) (h : s.Grown t) : t.ChecksValue v :=
  fun e he r n hn => (hv e he r n hn).mono h

/-- A procedure whose body was checked against what it returns. Its symbol says how it is called. -/
def Procedure.Checked (s : AnalysisState) (bound : Bool) (p : Procedure Note) : Prop :=
  ∀ body, p.body = some body → s.Failed ∨ ∃ x, p.info.symbol = some x ∧ s.Signs bound p x ∧
    ∃ r, s.Returns x r ∧ ∀ n ∈ Stmt.nodesList body, s.Checked r n

namespace Item

/-- An item whose code was checked. A constant has a symbol that says so. -/
def Checked (s : AnalysisState) : Item → Prop
  | .global i _ init isConstant => s.ChecksValue init ∧ s.Suits i init ∧ (isConstant = true →
    ∀ x, i.symbol = some x → s.Failed ∨
      s.tree.HasSymbol x ∧ (s.tree.symbol x).kind = .constant)
  | .cls _ _ _ fields _ => ∀ d ∈ fields, s.ChecksValue d.init
  | .record .. => True
  | .procedure p _ owner => p.Checked s owner.isSome

theorem Checked.of_failed (h : s.Failed) (item : Item) : item.Checked s := by
  cases item with
  | global => exact ⟨fun _ _ _ _ _ => .inl h, fun _ _ => .inl h, fun _ _ _ => .inl h⟩
  | cls => exact fun _ _ _ _ _ _ _ => .inl h
  | record => trivial
  | procedure => exact fun _ _ => .inl h

theorem Checked.mono {item : Item} (hi : item.Checked s) (h : s.Grown t) : item.Checked t := by
  cases item with
  | global =>
    refine ⟨hi.1.mono h, hi.2.1.mono h, fun hc x hx => (hi.2.2 hc x hx).imp h.failed fun hk => ?_⟩
    exact ⟨h.tree.hasSymbol x hk.1, (h.tree.kind x hk.1).trans hk.2⟩
  | cls => exact fun d hd => (hi d hd).mono h
  | record => trivial
  | procedure =>
    exact fun body hb => (hi body hb).imp h.failed fun ⟨x, hx, hs, r, hr, hn⟩ =>
      ⟨x, hx, hs.mono h, r, hr.mono h, fun n hm => (hn n hm).mono h⟩

/-- The class of an item, or of the method that it is, is a type of its own. -/
def Typed (s : AnalysisState) : Item → Prop
  | .cls i _ _ _ _ => s.Failed ∨ i.Typed s
  | .procedure _ _ owner => ∀ x, owner = some x → s.Failed ∨ s.NamesType x
  | .global .. | .record .. => True

theorem Typed.of_failed (h : s.Failed) (item : Item) : item.Typed s := by
  cases item with
  | cls => exact .inl h
  | procedure => exact fun _ _ => .inl h
  | global | record => trivial

theorem Typed.mono {item : Item} (hi : item.Typed s) (h : s.Grown t) : item.Typed t := by
  cases item with
  | cls => exact Or.imp h.failed (·.mono h) hi
  | procedure => exact fun x hx => (hi x hx).imp h.failed (·.mono h)
  | global | record => trivial

theorem typed_of_member {d : Decl Note} (hi : item ∈ d.memberItems owner name)
    (ho : ∀ x, owner = some x → s.NamesType x) : item.Typed s := by
  unfold Decl.memberItems at hi
  split at hi
  · split at hi
    · rw [List.mem_singleton.mp hi]
      trivial
    · cases hi
  · rw [List.mem_singleton.mp hi]
    trivial
  · rw [List.mem_singleton.mp hi]
    intro x hx
    split at hx
    · cases hx
    · exact .inr (ho x hx)
  · rw [List.mem_singleton.mp hi]
    intro x hx
    split at hx
    · cases hx
    · exact .inr (ho x hx)
  · cases hi

end Item

namespace Decl

/-- A member of a class whose code was checked. -/
structure CheckedMember (s : AnalysisState) (d : Decl Note) : Prop where
  items : ∀ owner name, owner.isSome → ∀ item ∈ d.memberItems owner name, item.Checked s
  field : ∀ f, d.instanceField? = some f → s.ChecksValue f.init

theorem CheckedMember.mono (hd : CheckedMember s d) (h : s.Grown t) : d.CheckedMember t :=
  ⟨fun owner name ho item hi => (hd.items owner name ho item hi).mono h,
    fun f hf => (hd.field f hf).mono h⟩

theorem CheckedMember.of_var (h : s.ChecksValue d.init) (hs : s.Suits d.info d.init) :
    CheckedMember s (.var d) := by
  refine ⟨fun _ _ _ => ?_, fun f hf => ?_⟩
  · rw [memberItems]
    split
    · rw [List.forall_mem_singleton]
      exact ⟨h, hs, by simp⟩
    · simp
  · rw [instanceField?] at hf
    split at hf
    · cases hf
    · exact Option.some.inj hf ▸ h

theorem CheckedMember.of_none {d : Decl Note}
    (hi : ∀ owner name, d.memberItems owner name = []) (hf : d.instanceField? = none) :
    d.CheckedMember s where
  items owner name _ := by simp [hi]
  field := by simp [hf]

end Decl

/-! ### Procedures and fields -/

/-- What the third visit does with a procedure. One without a body or a scope stays as it is. -/
structure Procedure.Analysed (s t : AnalysisState) (p p' : Procedure Note) : Prop where
  same : p' = { p with params := p'.params, body := p'.body }
  erased : p'.map Note.loc = p.map Note.loc
  unread : p.body = none ∨ p.info.scope = none → p' = p ∧ t = s
  read : ∀ b scope, p.body = some b → p.info.scope = some scope → ∃ b' r, p'.body = some b' ∧
    (∀ x, p.info.symbol = some x → s.Failed ∨ s.Returns x r) ∧
    s.Within t { scope } r [] ((Stmt.actionsList b').flatMap Action.declarations)
      (p'.params.flatMap (·.default.elim [] Expr.nodes) ++ Stmt.nodesList b') fun env sc =>
        ScopedAll env sc b'

namespace Procedure.Analysed

variable {p : Procedure Note}

theorem names (h : p.Analysed s t p') : p'.params.map (·.name) = p.params.map (·.name) := by
  simpa [Procedure.map, Function.comp_def, Param.map] using
    congrArg (fun q => q.params.map (·.name)) h.erased

theorem checked (h : p.Analysed s t p') (hd : p.Declared s owned) :
    p'.Checked t (owned && !p.modifiers.isShared) := by
  intro body hbody
  cases hb : p.body with
  | none =>
    obtain ⟨rfl, -⟩ := h.unread (.inl hb)
    cases hb.symm.trans hbody
  | some b =>
    obtain ⟨scope, hscope⟩ := Option.ne_none_iff_exists'.mp hd.1
    obtain ⟨b', r, hb', hx, hw⟩ := h.read b scope hb hscope
    cases hb'.symm.trans hbody
    rcases hd.2 with hf | ⟨x, hsym, hs⟩
    · exact .inl (hw.onward.failed hf)
    · refine (hx x hsym).imp hw.onward.failed fun hr => ⟨x, ?_, ?_, r, hr.mono hw.onward.toGrown,
        (List.forall_mem_append.mp hw.checked).2⟩
      · rw [h.same]
        exact hsym
      · have hlength := congrArg List.length h.names
        rw [List.length_map, List.length_map] at hlength
        obtain ⟨hhas, hcall, hparams, hscope, hbound⟩ := hs.mono hw.onward.toGrown
        rw [h.same]
        exact ⟨hhas, hcall, hparams.trans hlength.symm, hscope, hbound⟩

theorem typed (h : p.Analysed s t p') : ∀ n ∈ p'.reached, n.Typed t.types := by
  intro n hn
  have hinfo : p'.info = p.info := by rw [h.same]
  unfold reached at hn
  split at hn
  · rename_i b' scope hb' hscope
    rw [hinfo] at hscope
    cases hb : p.body with
    | none =>
      obtain ⟨rfl, -⟩ := h.unread (.inl hb)
      cases hb.symm.trans hb'
    | some b =>
      obtain ⟨b'', r, hb'', -, hw⟩ := h.read b scope hb hscope
      cases hb''.symm.trans hb'
      exact hw.typed n hn
  · cases hn

end Procedure.Analysed

theorem Context.Typed.of_nil {cx : Context} (h : cx.withTypes = []) : cx.Typed c := by
  intro t ht
  rw [h] at ht
  cases ht

namespace Analyze

open AnalysisState
open Decl (ReadyList DeclaredList)

theorem paramDefault_reads (h : ∀ n ∈ p.default.elim [] Expr.nodes, n.Fresh)
    (hcx : cx.Typed s.types) : Reads s (paramDefault cx p) fun t q =>
      s.Reading t cx (q.default.elim [] Expr.nodes) ∧ q.map Note.loc = p.map Note.loc := by
  unfold paramDefault
  split
  · rename_i hnone
    exact .pure ⟨by rw [hnone]; exact .nil (.refl s), rfl⟩
  · rename_i e he
    rw [he] at h
    refine (expr_reads e h hcx).bind fun e' t _ he' => .get ?_
    have hsame : Param.map Note.loc { p with default := some e' } = p.map Note.loc := by
      simp only [Param.map, he, Option.map_some, he'.same]
    split
    · exact .pure ⟨he'.toReading, hsame⟩
    · dsimp only
      split
      · exact .bind .fails fun _ u hu _ => .pure ⟨he'.toReading.after hu, hsame⟩
      · exact .pure ⟨he'.toReading, hsame⟩

theorem params_reads {ps : List (Param Note)}
    (h : ∀ q ∈ ps, ∀ n ∈ q.default.elim [] Expr.nodes, n.Fresh) (hcx : cx.Typed s.types) :
    Reads s (ps.mapM (paramDefault cx)) fun t qs =>
      s.Reading t cx (qs.flatMap (·.default.elim [] Expr.nodes)) ∧
        qs.map (·.map Note.loc) = ps.map (·.map Note.loc) := by
  induction ps generalizing s with
  | nil => exact .pure ⟨.nil (.refl s), rfl⟩
  | cons p ps ih =>
    rw [List.mapM_cons]
    obtain ⟨hp, hps⟩ := List.forall_mem_cons.mp h
    refine (paramDefault_reads hp hcx).bind fun q t ht ⟨hq, hsame⟩ =>
      (ih hps (hcx.mono ht.keeps)).bind fun qs u _ ⟨hqs, hsames⟩ => .pure ⟨hq.seq hqs, ?_⟩
    rw [List.map_cons, List.map_cons, hsame, hsames]

theorem procedureBody_goes (hp : p.Ready s) :
    Goes s (procedureBody p) fun t p' => p.Analysed s t p' := by
  unfold procedureBody
  split
  · rename_i body scope hbody hscope
    obtain ⟨r, hin, hx⟩ := hp.scope scope hscope
    have hcx (u : AnalysisState) : Context.Typed u.types { scope } := .of_nil rfl
    refine (params_reads hp.defaults (hcx s)).bindGoes fun params t ht ⟨hparams, hparams'⟩ => ?_
    simp only [block, bind_assoc]
    refine block_goes (stmts_goes body (hp.body body hbody)) ⟨hin.mono ht.tree, hcx t⟩
      fun b u hb' hb => .pure ⟨rfl, ?_, ?_, ?_⟩
    · simp only [Procedure.map, hparams', hbody, Option.map_some, hb']
    · simp [hbody, hscope]
    · intro _ _ hb' hs'
      cases hscope.symm.trans hs'
      exact ⟨b, r, rfl, hx, (hparams.within.seq hb).imp fun _ _ h => .inr h.2⟩
  · rename_i hno
    exact .pure ⟨rfl, rfl, fun _ => ⟨rfl, rfl⟩, fun b scope hb hs => (hno b scope hb hs).elim⟩

/-- The value of a field is looked at if the field has a symbol. -/
theorem fieldInit_reads (h : ∀ n ∈ d.init.elim [] Expr.nodes, n.Fresh) (hcx : cx.Typed s.types) :
    Reads s (fieldInit cx d) fun t d' => d'.info = d.info ∧ d'.map Note.loc = d.map Note.loc ∧
      (d.info.symbol.isSome → s.Reading t cx (d'.init.elim [] Expr.nodes)) ∧
      ((∀ x, d.info.symbol = some x → s.tree.HasSymbol x) → t.Suits d'.info d'.init) := by
  unfold fieldInit
  refine .symbol? ?_
  split
  · rename_i e x he hsym
    rw [he] at h
    refine (expr_reads e h hcx).bind fun e' t ht he' => .of_valid fun hv => .types ?_
    have hsame : VarDecl.map Note.loc { d with init := some e' } = d.map Note.loc := by
      simp only [VarDecl.map, he, Option.map_some, he'.same]
    dsimp only
    split
    · exact .bind .fails fun _ u hu hfail =>
        .pure ⟨rfl, hsame, fun _ => he'.toReading.after hu, fun _ _ _ => .inl hfail⟩
    · rename_i hfits
      refine .pure ⟨rfl, hsame, fun _ => he'.toReading, fun hhas y hy => .inr ?_⟩
      have hx := ht.tree.hasSymbol y (hhas y hy)
      refine ⟨hx, ?_⟩
      rintro _ a ⟨⟩ ha
      have htype : x.type = some a := by
        rw [hy] at hsym
        cases hsym
        rw [← ht.tree.type y (hhas y hy), ha]
      rw [htype] at hfits
      exact hv.types.takes_of_fits ((hv.symbols y hx).type a ha) (by simpa using hfits)
  · rename_i hno
    have hnone (x : SymbolId) (hx : d.info.symbol = some x) : d.init = none := by
      cases he : d.init with
      | none => rfl
      | some e => exact absurd (by rw [hx]; rfl) (hno e _ he)
    refine .pure ⟨rfl, rfl, fun hx => ?_, fun hhas x hx =>
      .inr ⟨hhas x hx, by simp [hnone x hx]⟩⟩
    obtain ⟨x, hx⟩ := Option.isSome_iff_exists.mp hx
    rw [hnone x hx]
    exact .nil (.refl s)

end Analyze

/-! ### Names -/

/-- The names of functions of a program whose procedures have names. -/
theorem Item.name_ne_empty_of_member {d : Decl Note}
    (h : Item.procedure p name owner ∈ d.memberItems x className) : name ≠ "" := by
  have hdot (q : String) : className ++ "." ++ q ≠ "" := by simp
  unfold Decl.memberItems at h
  split at h
  · split at h <;> simp at h
  · simp at h
  · simp only [List.mem_singleton, Item.procedure.injEq] at h
    exact h.2.1 ▸ hdot _
  · simp only [List.mem_singleton, Item.procedure.injEq] at h
    exact h.2.1 ▸ hdot _
  · simp at h

namespace Decl

mutual

theorem name_ne_empty : (d : Decl Note) → ∀ {path}, path ≠ "" ∨ d.Named →
    .procedure p full owner ∈ d.items path → full ≠ ""
  | .nspace _ n ds, path, _, h | .module _ n ds, path, _, h => by
    rw [items] at h
    exact name_ne_empty_list ds (.inl (by simp)) h
  | .cls i c ds, path, _, h => by
    simp only [items, List.mem_cons, reduceCtorEq, false_or, List.mem_flatMap] at h
    obtain ⟨d, -, h⟩ := h
    exact Item.name_ne_empty_of_member h
  | .interface _ n ps, path, _, h => by
    simp only [items, List.mem_map, Item.procedure.injEq] at h
    obtain ⟨q, -, -, rfl, -⟩ := h
    simp
  | .proc q, path, hp, h | .extension _ _ q, path, hp, h => by
    simp only [items, List.mem_singleton, Item.procedure.injEq] at h
    obtain ⟨-, rfl, -⟩ := h
    rw [ne_eq, String.append_eq_empty_iff]
    exact fun he => hp.elim (absurd he.1) fun hq => hq he.2
  | .template _ d, path, hp, h => by
    rw [items] at h
    exact name_ne_empty d hp h
  | .record .., _, _, h | .var _, _, _, h | .const _, _, _, h | .uses .., _, _, h
  | .imports .., _, _, h | .typeDefine .., _, _, h | .delegate _, _, _, h => by
    simp [items] at h

theorem name_ne_empty_list : (ds : List (Decl Note)) → ∀ {path}, (path ≠ "" ∨ ∀ d ∈ ds, d.Named) →
    .procedure p full owner ∈ itemsList path ds → full ≠ ""
  | [], _, _, h => by simp [itemsList] at h
  | d :: ds, path, hp, h => by
    simp only [itemsList, List.mem_append] at h
    rcases h with h | h
    · exact name_ne_empty d (hp.imp_right fun hn => hn d List.mem_cons_self) h
    · exact name_ne_empty_list ds (hp.imp_right fun hn e he => hn e (List.mem_cons_of_mem d he)) h

end

end Decl

/-! ### Programs -/

theorem Decl.named_of_map {f : α → β} : (d : Decl α) → (d.map f).Named → d.Named
  | .template _ d, h => by
    rw [map] at h
    exact named_of_map d h
  | .proc _, h | .extension .., h => by
    rw [map] at h
    exact h
  | .nspace .., _ | .module .., _ | .cls .., _ | .uses .., _ | .imports .., _ | .interface .., _
  | .record .., _ | .var _, _ | .const _, _ | .typeDefine .., _ | .delegate _, _ => trivial

/-! ### The first state -/

theorem ScopeTree.ok_initial : ScopeTree.initial.Ok := by
  have hscope (s : ScopeId) : (initial.scope s).outer = [] := by
    obtain ⟨_ | n⟩ := s <;> rfl
  have hroot : initial.Outside root := by
    intro o ho
    rw [chain, hscope root] at ho
    cases List.mem_singleton.mp ho
    exact ⟨Nat.zero_lt_one, rfl⟩
  refine ⟨⟨hroot, rfl⟩, fun s o ho => ?_, fun x s hx => ?_, fun s c hc => ?_, fun x => rfl⟩
  · rw [hscope s] at ho
    cases ho
  · cases hx
  · obtain ⟨_ | n⟩ := s <;> cases hc

theorem Builtin.valued_symbol (b : Builtin) (types : Catalog) : (b.symbol types).Valued := by
  unfold symbol Symbol.Valued
  dsimp only
  split <;> rfl

theorem Builtin.ok_register (h : tree.Ok) : (register types tree scope).Ok := by
  unfold register
  generalize all = bs
  induction bs generalizing tree with
  | nil => exact h
  | cons b bs ih =>
    refine ih ?_
    dsimp only
    cases hd : tree.define scope (b.symbol types) with
    | none => exact h
    | some r => exact (ScopeTree.defines hd).ok h (by simp [Builtin.symbol]) (b.valued_symbol types)

theorem Catalog.not_hasMember_initial : ¬Catalog.initial.HasMember x := by
  rintro ⟨t, name, hm⟩
  have hall : ∀ i ∈ Catalog.initial.types, i.members = [] := by simp [Catalog.initial]
  rw [info, Array.getD_eq_getD_getElem?] at hm
  cases ht : Catalog.initial.types[t.index]? with
  | none =>
    rw [ht] at hm
    cases hm
  | some i =>
    rw [ht, Option.getD_some, hall i (Array.mem_of_getElem? ht)] at hm
    cases hm

theorem AnalysisState.ok_initial : Ok {} := by
  have htree : (Builtin.register .initial .initial ScopeTree.root).Ok :=
    Builtin.ok_register ScopeTree.ok_initial
  exact ⟨htree, nofun⟩

namespace Analyze

/-- The second visit of a program. -/
def members (p : Program Note) : Declare (Program Note) := do
  aliases ScopeTree.root p
  memberDecls ScopeTree.root p

theorem program_eq (p : Program Note) : program p = (typeDecls ScopeTree.root p >>= members) >>=
    fun p => liftM (bodyDecls { scope := ScopeTree.root } p) := by
  simp only [program, members, bind_assoc]

end Analyze

end BasicSSA
