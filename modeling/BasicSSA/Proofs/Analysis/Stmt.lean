import BasicSSA.Proofs.Analysis.Scoping
import BasicSSA.Proofs.Types.Order

/-!
# What analysis of statements gives

Each node of a statement is checked and has a type, and the statement asks only for what surrounds
it. It defines names in its own scope and in scopes that it opens, and nowhere else.
-/

namespace BasicSSA

open List (forall_mem_append forall_mem_cons)

namespace ScopeTree

variable {t : ScopeTree} {scope : ScopeId}

/-- A scope inside a procedure with some return type. -/
structure Inside (t : ScopeTree) (scope : ScopeId) (r : Option TypeId) : Prop where
  chain : ∀ o ∈ t.chain scope, t.HasScope o
  notClass : (t.scope scope).kind ≠ .cls
  procedure : ∃ s, t.procedure? scope = some s ∧ (t.scope s).returnType = r

theorem find?_procedure_grown {l : List ScopeId} (hl : ∀ o ∈ l, t.HasScope o) (h : t.Grown t') :
    (l.find? fun s => (t'.scope s).kind.isProcedure) =
      l.find? fun s => (t.scope s).kind.isProcedure := by
  induction l with
  | nil => rfl
  | cons o l ih =>
    obtain ⟨ho, hl⟩ := forall_mem_cons.mp hl
    rw [List.find?_cons, List.find?_cons, (h.scope o ho).kind, ih hl]

theorem Inside.mono (hi : t.Inside scope r) (h : t.Grown t') : t'.Inside scope r := by
  have hchain : t'.chain scope = t.chain scope := by
    rw [ScopeTree.chain, (h.scope scope (hi.chain scope List.mem_cons_self)).outer,
      ScopeTree.chain]
  obtain ⟨s, hs, hr⟩ := hi.procedure
  refine ⟨fun o ho => h.hasScope o (hi.chain o (hchain ▸ ho)), ?_, s, ?_, ?_⟩
  · rw [(h.scope scope (hi.chain scope List.mem_cons_self)).kind]
    exact hi.notClass
  · rw [procedure?, hchain, find?_procedure_grown hi.chain h]
    exact hs
  · rw [(h.scope s (hi.chain s (List.mem_of_find?_eq_some hs))).returnType, hr]

theorem Inside.child (hi : t.Inside scope r) (h : t.Grown t') (hnew : t'.HasScope new)
    (hk : (t'.scope new).kind = .block ∨ (t'.scope new).kind = .loop)
    (ho : (t'.scope new).outer = t.chain scope) : t'.Inside new r := by
  have hkind : (t'.scope new).kind.isProcedure = false ∧ (t'.scope new).kind ≠ .cls := by
    obtain hk | hk := hk <;> rw [hk] <;> simp [ScopeKind.isProcedure]
  have hchain : t'.chain new = new :: t.chain scope := by rw [ScopeTree.chain, ho]
  obtain ⟨s, hs, hr⟩ := hi.procedure
  refine ⟨fun o hmem => ?_, hkind.2, s, ?_, ?_⟩
  · rw [hchain] at hmem
    rcases List.mem_cons.mp hmem with rfl | hmem
    · exact hnew
    · exact h.hasScope o (hi.chain o hmem)
  · rw [procedure?, hchain, List.find?_cons_of_neg (by simp [hkind.1]), find?_procedure_grown hi.chain h]
    exact hs
  · rw [(h.scope s (hi.chain s (List.mem_of_find?_eq_some hs))).returnType, hr]

/-- The scope of a procedure once its return type is known. -/
theorem inside_own (ty : TypeId) (hs : t.HasScope scope) (hk : (t.scope scope).kind.isProcedure = true)
    (ho : ∀ o ∈ (t.scope scope).outer, t.HasScope o) :
    (t.modifyScope scope fun p => { p with returnType := some ty }).Inside scope (some ty) := by
  have hself := scope_modifyScope_self (f := fun p => { p with returnType := some ty }) hs
  refine ⟨fun o hmem => hasScope_modifyScope.mpr ?_, fun hc => ?_, scope, ?_, by rw [hself]⟩
  · rw [ScopeTree.chain, hself] at hmem
    rcases List.mem_cons.mp hmem with rfl | hmem
    · exact hs
    · exact ho o hmem
  · rw [hself] at hc
    rw [hc] at hk
    cases hk
  · rw [procedure?, ScopeTree.chain, List.find?_cons_of_pos (by rw [hself]; exact hk)]

end ScopeTree

open Lower (Env Scoping Scoped ScopedAll ScopedElse ScopedCases ScopedCatches)

variable {s : AnalysisState} {cx cx' : Context}

/-- A context inside a procedure with some return type. -/
structure Context.In (cx : Context) (s : AnalysisState) (r : Option TypeId) : Prop where
  inside : s.tree.Inside cx.scope r
  typed : cx.Typed s.types

theorem Context.In.has (h : cx.In s r) : s.tree.HasScope cx.scope :=
  h.inside.chain _ List.mem_cons_self

theorem Context.In.mono (h : cx.In s r) (ht : s.Onward t) : cx.In t r :=
  ⟨h.inside.mono ht.tree, h.typed.mono ht.keeps⟩

namespace AnalysisState

/-- What analysis of code gives: each node is checked and has a type, and the code asks only for what
surrounds it. -/
structure Noted (s t : AnalysisState) (cx : Context) (r : Option TypeId) (ns : List (Node Note))
    (P : Env → Scoping → Prop) : Prop where
  onward : s.Onward t
  checked : ∀ n ∈ ns, t.Checked r n
  typed : ∀ n ∈ ns, n.Typed t.types
  asks : ∀ env sc, sc.Covers env s cx → t.Failed ∨ P env sc

/-- The same where only the scope around the code gets new names. What the code declares is numbered
in order. -/
structure Within (s t : AnalysisState) (cx : Context) (r : Option TypeId) (xs : List SymbolId)
    (ds : List Declaration) (ns : List (Node Note)) (P : Env → Scoping → Prop) : Prop
    extends s.Noted t cx r ns P where
  adds : s.Adds cx.scope xs t
  ordered : t.Failed ∨ Declaration.InOrder s.tree.symbols.size t.tree.symbols.size ds

theorem Reading.within (h : s.Reading t cx ns) :
    s.Within t cx r [] [] ns fun env sc => ∀ n ∈ ns, sc.Sees env n where
  onward := h.still.toOnward
  checked := h.checked r
  typed := h.typed
  asks _ _ hc := h.found.imp_right fun hf n hn => hc.sees (hf n hn) (h.typed n hn)
  adds := by
    have htree := h.still.quiet.tree
    exact ⟨fun _ _ _ => htree ▸ .refl _ _, by rw [htree], ⟨[], by simp [htree], by simp⟩,
      fun _ => h.still.quiet.members⟩
  ordered := .inr h.still.tree.size_le

namespace Within

section

variable (h : s.Within t cx r xs ds ns P)

include h

theorem seq (h' : t.Within u cx r ys ds' ns' P') :
    s.Within u cx r (ys ++ xs) (ds ++ ds') (ns ++ ns')
      fun env sc => P env sc ∧ P' env (sc.declare xs) where
  onward := h.onward.trans h'.onward
  checked := forall_mem_append.mpr
    ⟨fun n hn => (h.checked n hn).mono h'.onward.toGrown, h'.checked⟩
  typed := forall_mem_append.mpr ⟨fun n hn => (h.typed n hn).mono h'.onward.keeps, h'.typed⟩
  asks env sc hc := by
    rcases h.asks env sc hc with hf | hp
    · exact .inl (h'.onward.failed hf)
    · exact (h'.asks env _ (hc.declare h.onward.toGrown h.adds)).imp_right fun hp' => ⟨hp, hp'⟩
  adds := h.adds.trans h.onward.toGrown h'.adds
  ordered := by
    rcases h.ordered with hf | ho
    · exact .inl (h'.onward.failed hf)
    · exact h'.ordered.imp_right ho.append

theorem imp (hP : ∀ env sc, P env sc → t.Failed ∨ P' env sc) :
    s.Within t cx r xs ds ns P' :=
  { h with asks := fun env sc hc => (h.asks env sc hc).elim .inl (hP env sc) }

theorem arms (hP : ∀ env sc, P env sc → P' env sc)
    (hds : ds' = ds := by
      simp [Stmt.actionsElse, Stmt.actionsCases, Stmt.actionsCatches, Action.declarations]) :
    s.Within t cx r xs ds' ns P' :=
  hds ▸ h.imp fun env sc hp => .inr (hP env sc hp)

/-- The steps after it define nothing. -/
theorem after (hu : t.Still u) : s.Within u cx r xs ds ns P := by
  simpa using h.seq (Reading.nil hu).within

end

/-- The step after it defines some names. -/
theorem define (h : s.Within t cx r [] [] ns P) (hu : t.Onward u) (ha : t.Adds cx.scope xs u)
    (ho : Declaration.InOrder t.tree.symbols.size u.tree.symbols.size ds) :
    s.Within u cx r xs ds ns P := by
  have hdefine : t.Within u cx r xs ds [] fun _ _ => True :=
    ⟨⟨hu, by simp, by simp, fun _ _ _ => .inr trivial⟩, ha, .inr ho⟩
  simpa using h.seq hdefine

/-- Code that is never reached declares nothing. -/
theorem shorten (h : s.Within t cx r xs (ds ++ ds') ns P) : s.Within t cx r xs ds ns P :=
  { h with ordered := h.ordered.imp_right fun ho =>
      have ⟨_, ho, ho'⟩ := Declaration.inOrder_append.mp ho
      ho.widen ho'.le }

/-- What a new scope gets does not concern the scopes around it. -/
theorem leave {f : Scoping → Scoping} (ho : cx.Opened cx' name kind s t)
    (h : t.Within u cx' r xs ds ns P)
    (hf : ∀ {env sc}, sc.Covers env s cx → (f sc).Covers env t cx') :
    s.Within u cx r [] ds ns fun env sc => P env (f sc) where
  onward := ho.onward.trans h.onward
  checked := h.checked
  typed := h.typed
  asks env sc hc := h.asks env (f sc) (hf hc)
  adds := (ho.kept.inside ho.onward.toGrown ho.new h.adds).adds ho.around
  ordered := h.ordered.imp_right (·.weaken ho.onward.tree.size_le)

theorem subset (h : s.Within t cx r xs ds ns P) (hns : ns' ⊆ ns) : s.Within t cx r xs ds ns' P :=
  { h with checked := fun n hn => h.checked n (hns hn), typed := fun n hn => h.typed n (hns hn) }

theorem inside (h : s.Within t { cx with withTypes := ty :: cx.withTypes } r xs ds ns P) :
    s.Within t cx r xs ds ns fun env sc => P env sc.inside :=
  ⟨⟨h.onward, h.checked, h.typed, fun env _ hc => h.asks env _ (hc.inside ty)⟩, h.adds, h.ordered⟩

/-- A statement is checked if what it is made of is. -/
theorem stmt (h : s.Within t cx r xs ds ns P)
    (hself : t.Failed ∨ t.Accepts r (.stmt st)) (hP : ∀ env sc, P env sc → Scoped env sc st)
    (hds : st.actions.flatMap Action.declarations = ds := by
      simp [Stmt.actions, Action.declarations])
    (hxs : xs = st.declared := by rfl)
    (hns : st.nodes = .stmt st :: ns := by simp only [Stmt.nodes, Option.elim, List.nil_append]) :
    s.Within t cx r st.declared (st.actions.flatMap Action.declarations) st.nodes
      fun env sc => Scoped env sc st := by
  subst hxs
  rw [hns, hds]
  refine ⟨⟨h.onward, ?_, ?_, fun env sc hc => (h.asks env sc hc).imp_right (hP env sc)⟩, h.adds,
    h.ordered⟩
  · exact forall_mem_cons.mpr ⟨hself, h.checked⟩
  · exact forall_mem_cons.mpr ⟨trivial, h.typed⟩

end Within

end AnalysisState

/-! ### Values that variables take -/

/-- A number is not stored where the type is narrower. -/
def TypeId.Takes (t s : TypeId) : Prop :=
  s.isNumeric = true → t ≠ .char ∧ (t.isNumeric = true → s.index ≤ t.index)

theorem TypeId.Takes.refl (t : TypeId) : t.Takes t :=
  fun hn => ⟨(by rintro rfl; cases hn), fun _ => Nat.le_refl _⟩

theorem Catalog.Lawful.takes_of_fits {c : Catalog} (hc : c.Lawful) (ht : c.Has t)
    (h : c.fits t e = true) : t.Takes e.typeId := by
  intro hs
  unfold fits at h
  split at h
  · split at h
    · rename_i hshape
      refine ⟨?_, fun hn => ?_⟩
      · rintro rfl
        cases (hc.shape_initial (by decide)).symm.trans hshape
      · cases (hc.shape_of_isNumeric hn).symm.trans hshape
    · exact hc.narrows_not ht hs h
  · exact hc.narrows_not ht hs h

/-- The type of a variable takes the value that it is declared with. -/
def AnalysisState.Suits (s : AnalysisState) (i : Note) (value : Option (Expr Note)) : Prop :=
  ∀ x, i.symbol = some x → s.Failed ∨ s.tree.HasSymbol x ∧
    ∀ e t, value = some e → (s.tree.symbol x).type = some t → t.Takes e.typeId

theorem AnalysisState.Suits.mono (hs : Suits s i value) (h : s.Grown t) : t.Suits i value :=
  fun x hx => (hs x hx).imp h.failed fun ⟨hhas, htakes⟩ =>
    ⟨h.tree.hasSymbol x hhas, fun e a he ha => htakes e a he (h.tree.type x hhas ▸ ha)⟩

theorem AnalysisState.Suits.of_type (hx : s.tree.HasSymbol x) (hsym : (s.tree.symbol x).type = some a)
    (h : ∀ e, value = some e → s.Failed ∨ a.Takes e.typeId) (hi : i.symbol = some x) :
    Suits s i value := by
  intro y hy
  cases hi.symm.trans hy
  by_cases hf : s.Failed
  · exact .inl hf
  · refine .inr ⟨hx, fun e t he ht => ?_⟩
    cases hsym.symm.trans ht
    exact (h e he).resolve_left hf

theorem Lower.Scoping.seesAll_elim {sc : Scoping}
    (h : ∀ n ∈ e.elim [] Expr.nodes, sc.Sees env n) : ∀ v, e = some v → sc.SeesAll env v := by
  rintro v rfl
  exact h

theorem Lower.Scoping.seesAll_list {sc : Scoping}
    (h : ∀ n ∈ Expr.nodesList es, sc.Sees env n) : ∀ e ∈ es, sc.SeesAll env e :=
  fun e he n hn => h n (Expr.mem_nodesList.mpr ⟨e, he, hn⟩)

namespace Analyze

open AnalysisState

/-! ### Blocks -/

theorem inner_goes (hin : cx.In s r) (hk : kind = .block ∨ kind = .loop) :
    Goes s (inner cx name kind) fun t cx' => cx.Opened cx' name kind s t ∧ cx'.In t r := by
  have hopen : Visit.bodies.completes kind = false := by
    obtain rfl | rfl := hk <;> rfl
  refine (Goes.of (.openScope hin.has hopen hopen)).bind fun new t ht h => .pure ⟨?_, ?_, ?_⟩
  · exact ⟨ht, hin.has, h.fresh, h.has, h.kind, h.outer_eq, by rw [h.adds.new], by rw [h.adds.new],
      h.kept, rfl⟩
  · exact hin.inside.child ht.tree h.has (h.kind ▸ hk) h.outer_eq
  · exact hin.typed.mono ht.keeps

/-- What analysis of the statements of a block gives. It only writes notes. -/
def Lists (r : Option TypeId) (b : List (Stmt Note)) : Prop :=
  ∀ {s : AnalysisState} {cx : Context}, cx.In s r → Goes s (stmts cx b) fun t b' =>
    Stmt.mapList Note.loc b' = Stmt.mapList Note.loc b ∧
      ∃ xs, s.Within t cx r xs ((Stmt.actionsList b').flatMap Action.declarations)
        (Stmt.nodesList b') fun env sc => ScopedAll env sc b'

section

theorem block_goes {y : List (Stmt Note) → Analyze β} (hb : Lists r b₀) (hin : cx.In s r)
    (hy : ∀ b t, Stmt.mapList Note.loc b = Stmt.mapList Note.loc b₀ →
      s.Within t cx r [] ((Stmt.actionsList b).flatMap Action.declarations) (Stmt.nodesList b)
        (fun env sc => ScopedAll env sc b) → Goes t (y b) R) :
    Goes s (inner cx "block" .block >>= fun cx => stmts cx b₀ >>= y) R :=
  (inner_goes hin (.inl rfl)).bind fun _ _ _ ⟨ho, hin'⟩ => (hb hin').bind fun b u _ ⟨hsame, _, hb⟩ =>
    hy b u hsame (hb.leave ho fun hc => hc.block ho)

theorem loop_goes {y : List (Stmt Note) → Analyze β} (hb : Lists r b₀) (hin : cx.In s r)
    (hname : name ∈ loopNames k)
    (hy : ∀ b t, Stmt.mapList Note.loc b = Stmt.mapList Note.loc b₀ →
      s.Within t cx r [] ((Stmt.actionsList b).flatMap Action.declarations) (Stmt.nodesList b)
        (fun env sc => ScopedAll env (sc.enter k) b) → Goes t (y b) R) :
    Goes s (inner cx name .loop >>= fun cx =>
      inner cx "block" .block >>= fun cx => stmts cx b₀ >>= y) R :=
  (inner_goes hin (.inr rfl)).bind fun _ _ _ ⟨ho, hin'⟩ => block_goes hb hin' fun b u hsame hb =>
    hy b u hsame (hb.leave ho fun hc => hc.enter ho hname)

/-- The same where the scope of the loop may define its variable. -/
theorem for_goes {x : Context → Analyze (Option SymbolId)}
    {y : Option SymbolId → List (Stmt Note) → Analyze β} {Q : AnalysisState → SymbolId → Prop}
    (declared : SymbolId → Declaration)
    (hb : Lists r b₀) (hin : cx.In s r) (hname : name ∈ loopNames .forLoop)
    (hx : ∀ {t cx'}, cx.Opened cx' name .loop s t → Goes t (x cx') fun u o =>
      t.Adds cx'.scope o.toList u ∧ o ≠ none ∧ ∀ v, o = some v → Q u v ∧
        Declaration.InOrder t.tree.symbols.size u.tree.symbols.size [declared v])
    (hy : ∀ v b t u, Stmt.mapList Note.loc b = Stmt.mapList Note.loc b₀ → u.Onward t → Q u v →
      s.Within t cx r [] (declared v :: (Stmt.actionsList b).flatMap Action.declarations)
        (Stmt.nodesList b) (fun env sc => ScopedAll env ((sc.declare [v]).enter .forLoop) b) →
      Goes t (y (some v) b) R) :
    Goes s (inner cx name .loop >>= fun cx' => x cx' >>= fun o =>
      inner cx' "block" .block >>= fun cx' => stmts cx' b₀ >>= y o) R := by
  refine (inner_goes hin (.inr rfl)).bind fun cx' t _ ⟨ho, hin'⟩ => (hx ho).bind
    fun o u hu ⟨hadds, hsome, hq⟩ => ?_
  cases o with
  | none => exact absurd rfl hsome
  | some v =>
    obtain ⟨hq, horder⟩ := hq v rfl
    refine block_goes hb (hin'.mono hu) fun b w hsame hb => hy v b w u hsame hb.onward hq ?_
    have hdefine := (Reading.nil (.refl t)).within.define (r := r) hu hadds horder
    exact ((hdefine.seq hb).imp fun _ _ h => .inr h.2).leave ho fun hc => hc.enter ho hname

end

/-! ### Values -/

theorem condition_reads (h : ∀ n ∈ e.nodes, n.Fresh) (hcx : cx.Typed s.types) :
    Reads s (condition cx what e) fun t e' => e'.Read s t cx e := by
  unfold condition
  refine (expr_reads e h hcx).bind fun e t _ he => ?_
  split
  · exact .typeText <| .bind (.report rfl) fun _ u hu _ => .pure (he.after hu)
  · exact .pure he

theorem expr?_reads (h : ∀ n ∈ e.elim [] Expr.nodes, n.Fresh) (hcx : cx.Typed s.types) :
    Reads s (expr? cx e) fun t o => s.Reading t cx (o.elim [] Expr.nodes) ∧
      (∀ e, o = some e → t.types.Has e.typeId) ∧
      o.map (·.map Note.loc) = e.map (·.map Note.loc) := by
  cases e with
  | none => exact .pure ⟨.nil (.refl s), nofun, rfl⟩
  | some e =>
    refine (expr_reads e h hcx).bind fun e t _ he =>
      .pure ⟨he.toReading, ?_, congrArg some he.same⟩
    rintro _ ⟨⟩
    exact he.has

theorem caseValues_reads (h : ∀ n ∈ Expr.nodesList es, n.Fresh)
    (hcx : cx.Typed s.types) :
    Reads s (caseValues cx subject es) fun t es' => s.Reading t cx (Expr.nodesList es') ∧
      es'.map (·.map Note.loc) = es.map (·.map Note.loc) := by
  induction es generalizing s with
  | nil => exact .pure ⟨.nil (.refl s), rfl⟩
  | cons e₀ es₀ ih =>
    rw [Expr.nodesList, forall_mem_append] at h
    unfold caseValues
    refine (expr_reads e₀ h.1 hcx).bind fun e t ht he => .types ?_
    have hrest (u : AnalysisState) (hu : t.Still u) : Reads u (do
        let es ← caseValues cx subject es₀
        return e :: es) fun t es => s.Reading t cx (Expr.nodesList es) ∧
          es.map (·.map Note.loc) = (e₀ :: es₀).map (·.map Note.loc) := by
      refine (ih h.2 (hcx.mono (ht.trans hu).keeps)).bind fun es v _ ⟨hes, hsame⟩ =>
        .pure ⟨?_, by rw [List.map_cons, List.map_cons, he.same, hsame]⟩
      rw [Expr.nodesList]
      exact (he.toReading.after hu).seq hes
    split
    · exact .bind .fails fun _ u hu _ => hrest u hu
    · exact hrest t (.refl t)

/-! ### Local declarations -/

theorem varType_reads
    (hinit : ∀ e, init = some e → s.types.Has e.typeId) :
    Reads s (varType cx d init) fun t a => t.types.Has a ∧
      ∀ e, init = some e → t.Failed ∨ a.Takes e.typeId := by
  unfold varType
  split
  · cases init with
    | none =>
      exact .bind .fails fun _ _ _ _ => .of_valid fun ht =>
        .pure ⟨ht.types.has_object, nofun⟩
    | some e =>
      refine .types ?_
      split
      · exact .bind .fails fun _ _ _ hfail => .of_valid fun ht =>
          .pure ⟨ht.types.has_object, fun _ _ => .inl hfail⟩
      · refine .pure ⟨hinit e rfl, ?_⟩
        rintro _ ⟨⟩
        exact .inr (.refl _)
  · refine typeOf?_reads.bind fun a t _ ha => ?_
    cases init with
    | none => exact .pure ⟨ha, nofun⟩
    | some e =>
      refine .of_valid fun hv => .types ?_
      split
      · exact .bind .fails fun _ u hu hfail =>
          .pure ⟨hu.has ha, fun _ _ => .inl hfail⟩
      · rename_i hfits
        refine .pure ⟨ha, ?_⟩
        rintro _ ⟨⟩
        exact .inr (hv.types.takes_of_fits ha (by simpa using hfits))

theorem varDecl_goes (h : ∀ n ∈ d.init.elim [] Expr.nodes, n.Fresh) (hcx : cx.Typed s.types)
    (hs : s.tree.HasScope cx.scope) : Goes s (varDecl cx d) fun t d' =>
      d'.map Note.loc = d.map Note.loc ∧ t.Suits d'.info d'.init ∧ ∀ r,
        s.Within t cx r d'.info.symbol.toList (d'.info.symbol.toList.map .new)
          (d'.init.elim [] Expr.nodes) fun env sc =>
            d'.info.symbol.isSome ∧ ∀ e, d'.init = some e → sc.SeesAll env e := by
  unfold varDecl
  refine (expr?_reads h hcx).bindGoes fun init t ht ⟨hinit, hhas, hsame⟩ => (varType_reads hhas).bindGoes
    fun a u hu ⟨ha, htakes⟩ => (Goes.define ((ht.trans hu).tree.hasScope _ hs) ha).bind
      fun new v hv ⟨hnew, hadds, _, horder⟩ => ?_
  have hdone (r : Option TypeId) := (hinit.after hu).within.define (r := r) hv hadds horder
  cases new with
  | none =>
    refine Reads.bindGoes .fails fun _ w hw hfail =>
      .pure ⟨by simp only [VarDecl.map, hsame], fun _ _ => .inl hfail, fun r => ?_⟩
    have hnone := (hdone r).after hw
    exact { hnone with
      adds := hnone.adds.mono (by simp)
      ordered := .inl hfail
      asks := fun _ _ _ => .inl hfail }
  | some x =>
    obtain ⟨hx, hsym⟩ := hnew x rfl
    refine Reads.refer.bindGoes fun _ w hw _ =>
      .pure ⟨by simp only [VarDecl.map, hsame], Suits.mono (.of_type hx (by rw [hsym]) (fun e he =>
        (htakes e he).imp_left hv.failed) rfl) hw.toGrown, fun r => ?_⟩
    exact ((hdone r).after hw).imp fun _ _ h => .inr ⟨rfl, Scoping.seesAll_elim h⟩

theorem checkConst_reads (hty : s.types.Has ty) :
    Reads s (checkConst d ty value) fun t _ => (t.Failed ∨ ∃ e, value = some e) ∧
      ∀ e, value = some e → t.Failed ∨ ty.Takes e.typeId := by
  cases value with
  | none => exact .mono .fails fun _ _ _ hfail => ⟨.inl hfail, nofun⟩
  | some e =>
    refine .of_valid fun hv => .types ?_
    split
    · exact .mono .fails fun _ _ _ hfail => ⟨.inr ⟨e, rfl⟩, fun _ _ => .inl hfail⟩
    · rename_i hfits
      refine .pure ⟨.inr ⟨e, rfl⟩, ?_⟩
      rintro _ ⟨⟩
      exact .inr (hv.types.takes_of_fits hty (by simpa using hfits))

/-- What analysis of a constant gives. A constant of a class is a member of it too. -/
structure Fixes (s t : AnalysisState) (cx : Context) (d₀ d : ConstDecl Note) : Prop where
  same : d.map Note.loc = d₀.map Note.loc
  noted : ∀ r, s.Noted t cx r (d.value.elim [] Expr.nodes) fun env sc =>
    d.info.symbol.isSome ∧ ∃ e, d.value = some e ∧ sc.SeesAll env e
  writes : s.Writes cx.scope d.info.symbol.toList t
  adds : (s.tree.scope cx.scope).kind ≠ .cls → s.Adds cx.scope d.info.symbol.toList t
  ordered : t.Failed ∨ Declaration.InOrder s.tree.symbols.size t.tree.symbols.size
    (d.info.symbol.toList.map .new)
  suits : t.Suits d.info d.value
  constant : t.Failed ∨ ∃ x, d.info.symbol = some x ∧ t.tree.HasSymbol x ∧
    (t.tree.symbol x).kind = .constant

theorem constDecl_goes (h : ∀ n ∈ d.value.elim [] Expr.nodes, n.Fresh) (hcx : cx.Typed s.types)
    (hs : s.tree.HasScope cx.scope) : Goes s (constDecl cx d) fun t d' => Fixes s t cx d d' := by
  unfold constDecl
  refine typeOf_reads.bindGoes fun ty t ht hty => (expr?_reads h (hcx.mono ht.keeps)).bindGoes
    fun value u hu ⟨hvalue, _, hsame⟩ => (checkConst_reads (hu.has hty)).bindGoes fun _ v hv ⟨hsome, htakes⟩ =>
      (Goes.define ((ht.trans (hu.trans hv)).tree.hasScope _ hs) ((hu.trans hv).has hty)).bind
        fun new w hw ⟨hnew, hadds, _, horder⟩ => ?_
  have hdone (r : Option TypeId) :=
    ((hvalue.before ht).after hv).within.define (r := r) hw hadds horder
  cases new with
  | none =>
    refine Reads.bindGoes .fails fun _ z hz hfail => .pure ?_
    have hnone (r : Option TypeId) := (hdone r).after hz
    have hadds' : s.Adds cx.scope d.info.symbol.toList z := (hnone none).adds.mono (by simp)
    exact ⟨by simp only [ConstDecl.map, hsame],
      fun r => { hnone r with asks := fun _ _ _ => .inl hfail }, hadds'.writes, fun _ => hadds',
      .inl hfail, fun _ _ => .inl hfail, .inl hfail⟩
  | some x =>
    obtain ⟨hx, hsym⟩ := hnew x rfl
    refine .tree <| (Goes.of (.addMember hx)).bind fun _ y hy ⟨htree, hmembers, hnone⟩ =>
      Reads.refer.bindGoes fun _ z hz _ => .pure ⟨by simp only [ConstDecl.map, hsame], fun r => ?_,
        ?_, fun hk => ?_, ?_, Suits.mono (.of_type hx (by rw [hsym]) (fun e he =>
          (htakes e he).imp_left hw.failed) rfl) (hy.trans hz.toOnward).toGrown, .inr ⟨x, rfl, ?_⟩⟩
    · have hyz := hy.trans hz.toOnward
      refine ⟨(hdone r).onward.trans hyz, fun n hn => ((hdone r).checked n hn).mono hyz.toGrown,
        fun n hn => ((hdone r).typed n hn).mono hyz.keeps, fun env sc hc => ?_⟩
      rcases (hdone r).asks env sc hc with hf | hsees
      · exact .inl (hyz.failed hf)
      · refine hsome.imp (fun hf => hyz.failed (hw.failed hf)) ?_
        rintro ⟨e, rfl⟩
        exact ⟨rfl, e, rfl, hsees⟩
    · have hadds := (hdone none).adds
      refine ⟨fun o ho hne => ?_, fun e he => ?_, fun m hm => ?_⟩
      · rw [hz.quiet.tree, htree]
        exact hadds.tables o ho hne
      · rw [hz.quiet.tree, htree] at he
        exact hadds.mem he
      · exact (hmembers m (hz.quiet.members hm)).imp (hadds.members m) (by rintro rfl; simp)
    · have hkind := ((hdone none).onward.tree.scope _ hs).kind
      cases hnone (if_neg (hkind ▸ hk))
      exact ((hdone none).after hz).adds
    · have hyz := hy.trans hz.toOnward
      exact (hdone none).ordered.imp hyz.failed (·.widen hyz.tree.size_le)
    · have hyz := hy.trans hz.toOnward
      refine ⟨hyz.tree.hasSymbol x hx, ?_⟩
      rw [hyz.tree.kind x hx, hsym]

/-! ### Loops -/

theorem boundType_reads (he : s.types.Has e.typeId) :
    Reads s (boundType what e) fun t a => a.isNumeric = true ∧ t.types.Has a := by
  unfold boundType
  split
  · exact .pure ⟨‹_›, he⟩
  · exact .typeText <| .bind .fails fun _ _ _ _ => .of_valid fun ht =>
      .pure ⟨rfl, ht.types.has_initial (by decide)⟩

/-- A loop has its variable, which is one that exists, or a new one. It is no constant, and it is a
number. -/
structure CountsBy (s t : AnalysisState) (scope : ScopeId) (o : Option SymbolId) : Prop where
  adds : s.Adds scope o.toList t
  isSome : o ≠ none
  counts : ∀ x, o = some x → (t.Failed ∨ t.Counts x) ∧
    Declaration.InOrder s.tree.symbols.size t.tree.symbols.size [.counter x]

theorem loopVar_goes (ho : cx'.Opened cx name kind s' s) (hty : ty.isNumeric = true)
    (hhas : s.types.Has ty) :
    Goes s (loopVar cx loc v ty) fun t o => CountsBy s t cx.scope o := by
  refine .of_valid fun hs => .get ?_
  have hfresh : Goes s (define cx.scope { name := v, kind := .variable, type := some ty, loc })
      fun t o => CountsBy s t cx.scope o := by
    refine (Goes.define ho.has hhas).mono fun t o _ ⟨h, hadds, hsome, horder⟩ =>
      ⟨hadds, hsome ho.empty, ?_⟩
    rintro x rfl
    obtain ⟨hx, hsym⟩ := h x rfl
    exact ⟨.inr ⟨hx, by simp [hsym], by rw [hsym]; exact hty⟩,
      Nat.max_le.mpr ⟨Nat.le_trans (Nat.le_succ_of_le horder.1) horder.2, horder.2⟩⟩
  have hfound (x : SymbolId) (t : AnalysisState) (ht : s.Still t) (hhas : s.tree.HasSymbol x)
      (hx : t.Failed ∨ t.Counts x) : CountsBy s t cx.scope (some x) := by
    refine ⟨ht.kept.adds ho.has, by simp, ?_⟩
    rintro _ ⟨⟩
    exact ⟨hx, Nat.max_le.mpr ⟨ht.tree.size_le, ht.tree.hasSymbol x hhas⟩⟩
  dsimp only
  split
  · exact hfresh
  · rename_i y hy
    have hhas : s.tree.HasSymbol y := hs.find hy
    have hkeep (hk : (s.tree.symbol y).kind ≠ .constant) : Goes s (do
        if !((s.tree.symbol y).type.getD .object).isNumeric then
          report (.loopVariable (s.tree.symbol y).name
            (s.types.text ((s.tree.symbol y).type.getD .object))) loc
        return some y) fun t o => CountsBy s t cx.scope o := by
      cases hn : ((s.tree.symbol y).type.getD .object).isNumeric with
      | false =>
        exact Reads.bindGoes .fails fun _ t ht hfail =>
          .pure (hfound y t ht hhas (.inl hfail))
      | true => exact .pure (hfound y s (.refl s) hhas (.inr ⟨hhas, hk, hn⟩))
    split
    · exact Reads.bindGoes .fails fun _ t ht hfail =>
        .pure (hfound y t ht hhas (.inl hfail))
    · rename_i hk
      exact hkeep (by simp [hk])
    · rename_i hk
      exact hkeep (by simp [hk])
    · exact hfresh

theorem writtenType_reads (ho : ∀ a, o = some a → s.types.Has a) :
    Reads s (writtenType cx loc written o) fun t a => t.types.Has a := by
  cases written with
  | none =>
    cases o with
    | none => exact .of_valid fun ht => .pure ht.types.has_object
    | some a => exact .pure (ho a rfl)
  | some r =>
    refine typeOf_reads.bind fun b u _ hb => .types ?_
    cases o with
    | none => exact .pure hb
    | some a =>
      dsimp only
      split
      · exact .bind .fails fun _ x hx _ => .pure (hx.has hb)
      · exact .pure hb

theorem eachType_reads (he : s.types.Has e.typeId) :
    Reads s (eachType cx loc written e) fun t a => t.types.Has a := by
  unfold eachType
  refine .of_valid fun hs => .types ?_
  have helement (a : TypeId) (ha : elementOf? s.types e.typeId = some a) : s.types.Has a :=
    hs.types.has_elementOf he ha
  dsimp only
  split
  · exact .bind (.report rfl) fun _ t ht _ =>
      writtenType_reads fun a ha => ht.has (helement a ha)
  · exact writtenType_reads helement

/-! ### Simple statements -/

theorem checkReturn_reads : Reads s (checkReturn cx loc value) fun t _ =>
    ∀ r, s.tree.Inside cx.scope r → value.isSome →
      t.Failed ∨ s.types.isVoid (r.getD .object) = false := by
  unfold checkReturn
  refine .get ?_
  split
  · rename_i hnone
    refine .mono .fails fun _ _ _ _ r h _ => ?_
    obtain ⟨_, hscope, -⟩ := h.procedure
    cases hnone.symm.trans hscope
  · rename_i scope hscope
    have hown {r : Option TypeId} (h : s.tree.Inside cx.scope r) :
        (s.tree.scope scope).returnType = r := by
      obtain ⟨_, hscope', rfl⟩ := h.procedure
      cases hscope.symm.trans hscope'
      rfl
    cases value with
    | none =>
      dsimp only
      split
      · exact .mono .fails (by simp)
      · exact .pure (by simp)
    | some e =>
      dsimp only
      cases hv : s.types.isVoid ((s.tree.scope scope).returnType.getD .object) with
      | true => exact .mono .fails fun _ _ _ hfail _ _ _ => .inl hfail
      | false =>
        rw [if_neg (by simp)]
        split
        · exact .mono .fails fun _ _ _ _ _ h _ => .inr (hown h ▸ hv)
        · exact .pure fun _ h _ => .inr (hown h ▸ hv)

/-- A compound assignment is one to a number. -/
theorem checkStored_reads : Reads s (checkStored loc op target value) fun t _ =>
    t.Failed ∨ (op ≠ .assign → target.typeId.isNumeric = true) := by
  unfold checkStored
  refine .types ?_
  split
  · rename_i hop
    split
    · exact .mono .fails fun _ _ _ hfail => .inl hfail
    · exact .pure (.inr fun h => absurd hop h)
  · split
    · exact .mono .fails fun _ _ _ hfail => .inl hfail
    · rename_i hn
      simp only [Bool.not_eq_true, Bool.not_eq_false', Bool.and_eq_true] at hn
      exact .pure (.inr fun _ => hn.1)

/-- A constant is not assigned to. A name that stands for nothing has been reported already. -/
theorem checkAssign_reads (he : target.Read q s cx target₀) :
    Reads s (checkAssign loc op target value) fun t _ =>
      t.Failed ∨ (op ≠ .assign → target.typeId.isNumeric = true) ∧
        ∀ x, target.info.symbol = some x → (s.tree.symbol x).kind ≠ .constant := by
  unfold checkAssign
  refine .symbol? ?_
  cases hx : target.info.symbol with
  | none =>
    dsimp only [Option.map]
    split
    · refine .pure ((he.checked none _ (Expr.mem_nodes_self _)).imp_right fun h => ?_)
      obtain ⟨x, hi, -⟩ := h.2
      cases hx.symm.trans hi
    · exact checkStored_reads.mono fun _ _ _ h => h.imp_right fun h => ⟨h, by simp⟩
  | some x =>
    dsimp only [Option.map]
    have hkeep (hk : (s.tree.symbol x).kind ≠ .constant) :
        Reads s (checkStored loc op target value) fun t _ => t.Failed ∨
          (op ≠ .assign → target.typeId.isNumeric = true) ∧
            ∀ y, some x = some y → (s.tree.symbol y).kind ≠ .constant := by
      refine checkStored_reads.mono fun _ _ _ h => h.imp_right fun h => ⟨h, ?_⟩
      rintro _ ⟨⟩
      exact hk
    split
    · rename_i hk
      exact hkeep (by simp [hk])
    · rename_i hk
      exact hkeep (by simp [hk])
    · rename_i hk
      exact hkeep (by simp [hk])
    · exact .bind .fails fun _ t _ hfail => checkStored_reads.mono fun u _ hu _ =>
        .inl (hu.failed hfail)
    · exact .mono .fails fun t _ _ hfail => .inl hfail

/-! ### Statements -/

mutual

theorem stmt_goes : (st : Stmt Note) → (∀ n ∈ st.nodes, n.Fresh) → ∀ {s cx}, cx.In s r →
    Goes s (stmt cx st) fun t st' => st'.map Note.loc = st.map Note.loc ∧
      s.Within t cx r st'.declared (st'.actions.flatMap Action.declarations) st'.nodes
        fun env sc => Scoped env sc st'
  | .ifThen i c b e, h, s, cx, hin => by
    rw [Stmt.nodes, forall_mem_cons, forall_mem_append, forall_mem_append] at h
    unfold stmt
    refine (condition_reads h.2.1.1 hin.typed).bindGoes fun c t ht hc =>
      block_goes (stmts_goes b h.2.1.2) (hin.mono ht.toOnward) fun b u hb' hb =>
        (elseArms_goes e h.2.2 (hin.mono (ht.toOnward.trans hb.onward))).bind fun e v _ ⟨he', he⟩ =>
          .pure ⟨by rw [Stmt.map, Stmt.map, hc.same, hb', he'],
            ((hc.within.seq hb).seq he).stmt (.inr trivial) fun _ _ h => ⟨h.1.1, h.1.2, h.2⟩⟩
  | .select i e cs, h, s, cx, hin => by
    rw [Stmt.nodes, forall_mem_cons, forall_mem_append] at h
    unfold stmt
    refine (expr_reads e h.2.1 hin.typed).bindGoes fun e t ht he =>
      (cases_goes cs h.2.2 (hin.mono ht.toOnward)).bind fun cs u _ ⟨hcs', hcs⟩ =>
        .pure ⟨by rw [Stmt.map, Stmt.map, he.same, hcs'],
          (he.within.seq hcs).stmt (.inr trivial) (fun env sc h => ?_) ?_⟩
    · rw [Scoped]
      exact h
    · rw [Stmt.actions, List.flatMap_cons, List.flatMap_append, List.flatMap_map]
      simp [Action.declarations]
  | .forLoop i v a₀ z₀ st₀ b₀, h, s, cx, hin => by
    simp only [Stmt.nodes, forall_mem_cons, forall_mem_append] at h
    obtain ⟨-, ⟨⟨ha, hz⟩, hst⟩, hb⟩ := h
    unfold stmt
    refine (expr_reads a₀ ha hin.typed).bindGoes fun a t₁ h₁ ha =>
      (boundType_reads ha.has).bindGoes fun ta t₂ h₂ ⟨hta, hhasa⟩ =>
        (expr_reads z₀ hz (hin.typed.mono (h₁.trans h₂).keeps)).bindGoes fun z t₃ h₃ hz =>
          (boundType_reads hz.has).bindGoes fun tz t₄ h₄ ⟨htz, hhasz⟩ => .of_valid fun hv₄ => .types ?_
    have h₁₄ := (h₁.trans h₂).trans (h₃.trans h₄)
    refine (expr?_reads hst (hin.typed.mono h₁₄.keeps)).bindGoes fun st t₅ h₅ ⟨hst, hhass, hst'⟩ => ?_
    have hbounds := ((ha.toReading.after h₂).seq (hz.toReading.after h₄)).seq hst
    have hty := Catalog.isNumeric_common (c := t₄.types) hta htz
    have hhas := h₅.has (hv₄.types.has_common ((h₃.trans h₄).has hhasa) hhasz)
    have hrest (u : AnalysisState) (ty : TypeId) (hu : t₅.Still u) (hty : ty.isNumeric = true)
        (hhas : u.types.Has ty) : Goes u (do
          let cx ← inner cx "For" .loop
          let x ← loopVar cx i.loc v ty
          let b ← stmts (← inner cx "block" .block) b₀
          return Stmt.forLoop { i with symbol := x } v a z st b) fun t st =>
            st.map Note.loc = (Stmt.forLoop i v a₀ z₀ st₀ b₀).map Note.loc ∧
              s.Within t cx r st.declared (st.actions.flatMap Action.declarations) st.nodes
                fun env sc => Scoped env sc st := by
      refine for_goes .counter (stmts_goes b₀ hb) (hin.mono (h₁₄.trans (h₅.trans hu)).toOnward)
        (by simp [loopNames]) (fun ho => (loopVar_goes ho hty (ho.onward.has hhas)).mono
          fun _ _ _ h => ⟨h.adds, h.isSome, h.counts⟩)
        fun x b t w hb' ht hx hb => .pure ⟨by rw [Stmt.map, Stmt.map, ha.same, hz.same, hst', hb'],
          ((hbounds.after hu).within.seq hb).stmt ?_ fun env sc h => ?_⟩
      · refine hx.imp ht.failed fun hx => ?_
        rintro _ ⟨⟩
        exact hx.mono ht.toGrown
      · rw [Scoped]
        have hsees := h.1
        simp only [forall_mem_append] at hsees
        exact ⟨hsees.1.1, hsees.1.2, Scoping.seesAll_elim hsees.2, x, rfl, h.2⟩
    cases st with
    | none => exact hrest t₅ _ (.refl _) hty hhas
    | some st =>
      exact (boundType_reads (hhass st rfl)).bindGoes fun ts u hu ⟨hts, hhasts⟩ =>
        .of_valid fun hvu => .types (hrest u _ hu (Catalog.isNumeric_common hty hts)
          (hvu.types.has_common (hu.has hhas) hhasts))
  | .forEach i v ty e b, h, s, cx, hin => by
    rw [Stmt.nodes, forall_mem_cons, forall_mem_append] at h
    unfold stmt
    refine (expr_reads e h.2.1 hin.typed).bindGoes fun e t ht he =>
      (eachType_reads he.has).bindGoes fun a u hu ha => ?_
    refine for_goes (Q := fun _ _ => True) .new (stmts_goes b h.2.2) (hin.mono (ht.trans hu).toOnward)
      (by simp [loopNames]) (fun ho => ?_) fun x b t w hb' _ _ hb =>
        .pure ⟨by rw [Stmt.map, Stmt.map, he.same, hb'],
          ((he.toReading.after hu).within.seq hb).stmt (.inr trivial) fun env sc h => ?_⟩
    · refine (Goes.define ho.has (ho.onward.has ha)).mono fun _ _ _ ⟨_, hadds, hsome, horder⟩ =>
        ⟨hadds, hsome ho.empty, ?_⟩
      rintro _ rfl
      exact ⟨trivial, horder⟩
    · rw [Scoped]
      exact ⟨h.1, x, rfl, h.2⟩
  | .whileLoop i c b, h, s, cx, hin => by
    rw [Stmt.nodes, forall_mem_cons, forall_mem_append] at h
    unfold stmt
    refine (condition_reads h.2.1 hin.typed).bindGoes fun c t ht hc =>
      loop_goes (k := .whileLoop) (stmts_goes b h.2.2) (hin.mono ht.toOnward) (by simp [loopNames])
        fun b u hb' hb => .pure ⟨by rw [Stmt.map, Stmt.map, hc.same, hb'],
          (hc.within.seq hb).stmt (.inr trivial) fun _ _ h => h⟩
  | .doLoop i none b, h, s, cx, hin => by
    rw [Stmt.nodes, forall_mem_cons, forall_mem_append] at h
    unfold stmt
    refine loop_goes (k := .doLoop) (stmts_goes b h.2.2) hin (by simp [loopNames])
      fun b t hb' hb => .pure ⟨by rw [Stmt.map, Stmt.map, hb'],
        hb.stmt (.inr trivial) fun _ _ h => ⟨nofun, h⟩⟩
  | .doLoop i (some l) b, h, s, cx, hin => by
    rw [Stmt.nodes, forall_mem_cons, forall_mem_append] at h
    have hdo : "Do" ∈ loopNames .doLoop := by simp [loopNames]
    unfold stmt
    split
    · rename_i htop
      refine (condition_reads h.2.1 hin.typed).bindGoes fun c t ht hc =>
        loop_goes (stmts_goes b h.2.2) (hin.mono ht.toOnward) hdo fun b u hb' hb =>
          .pure ⟨by simp only [Stmt.map, Option.map_some, LoopTest.map, hc.same, hb'],
            (hc.within.seq hb).stmt (.inr trivial) (fun env sc h => ?_)
              (by simp [Stmt.actions, Action.declarations, htop])⟩
      refine ⟨?_, h.2⟩
      rintro _ ⟨⟩
      exact h.1
    · rename_i htop
      refine loop_goes (stmts_goes b h.2.2) hin hdo fun b t hb' hb =>
        (condition_reads h.2.1 (hin.mono hb.onward).typed).bindGoes fun c u hu hc =>
          .pure ⟨by simp only [Stmt.map, Option.map_some, LoopTest.map, hc.same, hb'], ?_⟩
      have hns : c.nodes ++ Stmt.nodesList b ⊆ Stmt.nodesList b ++ c.nodes := by simp
      refine ((hb.seq hc.within).subset hns).stmt (.inr trivial) (fun env sc h => ?_)
        (by simp [Stmt.actions, Action.declarations, htop])
      refine ⟨?_, h.1⟩
      rintro _ ⟨⟩
      exact h.2
  | .tryCatch i b cs none, h, s, cx, hin => by
    rw [Stmt.nodes, forall_mem_cons, forall_mem_append] at h
    unfold stmt
    refine block_goes (stmts_goes b h.2.1) hin fun b t hb' hb =>
      (catches_goes cs h.2.2 (hin.mono hb.onward)).bind fun cs u _ ⟨hcs', hcs⟩ =>
        .pure ⟨by rw [Stmt.map, Stmt.map, hb', hcs'],
          (hb.seq hcs).stmt (.inr trivial) fun _ _ h => h⟩
  | .tryCatch i b cs (some l), h, s, cx, hin => by
    rw [Stmt.nodes, forall_mem_cons, forall_mem_append, forall_mem_append] at h
    unfold stmt
    refine block_goes (stmts_goes b h.2.1.1) hin fun b t hb' hb =>
      (catches_goes cs h.2.1.2 (hin.mono hb.onward)).bind fun cs u hu ⟨hcs', hcs⟩ =>
        block_goes (stmts_goes l h.2.2) (hin.mono (hb.onward.trans hu)) fun l v hl' hl =>
          .pure ⟨by rw [Stmt.map, Stmt.map, hb', hcs', hl'],
            ((hb.seq hcs).seq hl).stmt (.inr trivial) fun _ _ h => ⟨h.1.1, h.1.2, h.2⟩⟩
  | .withBlock i e b, h, s, cx, hin => by
    rw [Stmt.nodes, forall_mem_cons, forall_mem_append] at h
    unfold stmt
    refine (expr_reads e h.2.1 hin.typed).bindGoes fun e t ht he => ?_
    have hin := hin.mono ht.toOnward
    have hin' : ({ cx with withTypes := e.typeId :: cx.withTypes } : Context).In t r :=
      ⟨hin.inside, forall_mem_cons.mpr ⟨he.has, hin.typed⟩⟩
    refine block_goes (stmts_goes b h.2.2) hin' fun b u hb' hb =>
      .pure ⟨by rw [Stmt.map, Stmt.map, he.same, hb'],
        (he.within.seq hb.inside).stmt (.inr trivial) fun _ _ h => h⟩
  | .throw i e, h, s, cx, hin => by
    rw [Stmt.nodes, forall_mem_cons] at h
    unfold stmt
    refine (expr?_reads h.2 hin.typed).bindGoes fun e t _ ⟨he, _, he'⟩ =>
      .pure ⟨by rw [Stmt.map, Stmt.map, he'], he.within.stmt (.inr trivial) fun _ _ h => Scoping.seesAll_elim h⟩
  | .return_ i e, h, s, cx, hin => by
    rw [Stmt.nodes, forall_mem_cons] at h
    unfold stmt
    refine (expr?_reads h.2 hin.typed).bindGoes fun e t ht ⟨he, _, he'⟩ =>
      checkReturn_reads.bindGoes fun _ u hu hr => .pure ⟨by rw [Stmt.map, Stmt.map, he'],
        (he.after hu).within.stmt ?_ fun env sc h => ?_⟩
    · cases e with
      | none => exact .inr trivial
      | some e =>
        exact (hr r (hin.mono ht.toOnward).inside rfl).imp_right fun hr => (hu.types.void _).trans hr
    · rw [Scoped]
      exact Scoping.seesAll_elim h
  | .exit i k, h, s, cx, hin => by
    unfold stmt
    refine .tree ?_
    have hself (t : AnalysisState) (ht : s.Still t)
        (hk : t.Failed ∨ canExit s.tree cx.scope k = true) :
        s.Within t cx r [] [] (Stmt.exit i k).nodes fun env sc => Scoped env sc (.exit i k) := by
      have hnil : s.Within t cx r [] [] [] _ := (Reading.nil ht).within
      refine ⟨⟨hnil.onward, ?_, ?_, fun env sc hc => hk.imp_right fun hk => ?_⟩, hnil.adds,
        hnil.ordered⟩
      · exact List.forall_mem_singleton.mpr (.inr trivial)
      · exact List.forall_mem_singleton.mpr trivial
      · rw [Scoped]
        exact hc.exit hk
    cases hexit : canExit s.tree cx.scope k with
    | true => exact .pure ⟨rfl, hself s (.refl s) (.inr hexit)⟩
    | false =>
      exact Reads.bindGoes .fails fun _ t ht hfail =>
        .pure ⟨rfl, hself t ht (.inl hfail)⟩
  | .assign i e op v, h, s, cx, hin => by
    rw [Stmt.nodes, forall_mem_cons, forall_mem_append] at h
    unfold stmt
    refine (expr_reads e h.2.1 hin.typed).bindGoes fun e t₁ h₁ he =>
      (expr_reads v h.2.2 (hin.typed.mono h₁.keeps)).bindGoes fun v t₂ h₂ hv =>
        (checkAssign_reads (he.after h₂)).bindGoes fun _ t₃ h₃ hx =>
          .pure ⟨by rw [Stmt.map, Stmt.map, he.same, hv.same],
            ((he.within.seq hv.within).after h₃).stmt ?_ fun env sc h => ?_⟩
    · refine hx.imp_right fun hx => ⟨hx.1, fun x hsym => ?_⟩
      exact h₃.variable ⟨(he.after h₂).symbol x hsym, hx.2 x hsym⟩
    · rw [Scoped]
      exact h
  | .expr i e, h, s, cx, hin => by
    rw [Stmt.nodes, forall_mem_cons] at h
    unfold stmt
    refine (expr_reads e h.2 hin.typed).bindGoes fun e t _ he => .pure
      ⟨by rw [Stmt.map, Stmt.map, he.same], he.within.stmt (.inr trivial) fun _ _ h => h⟩
  | .var d, h, s, cx, hin => by
    rw [Stmt.nodes, forall_mem_cons] at h
    unfold stmt
    refine (varDecl_goes h.2 hin.typed hin.has).bind fun d t _ ⟨hd', _, hd⟩ =>
      .pure ⟨congrArg Stmt.var hd', (hd r).stmt (.inr trivial) fun _ _ h => h⟩
  | .const d, h, s, cx, hin => by
    rw [Stmt.nodes, forall_mem_cons] at h
    unfold stmt
    refine (constDecl_goes h.2 hin.typed hin.has).bind fun d t _ hd => ?_
    have hwithin : s.Within t cx r _ _ _ _ :=
      ⟨hd.noted r, hd.adds hin.inside.notClass, hd.ordered⟩
    refine .pure ⟨congrArg Stmt.const hd.same, hwithin.stmt (.inr trivial) fun _ _ h => h⟩

theorem stmts_goes : (b : List (Stmt Note)) → (∀ n ∈ Stmt.nodesList b, n.Fresh) → Lists r b
  | [], _, s, _, _ => by
    unfold stmts
    refine .pure ⟨rfl, [], (Reading.nil (.refl s)).within.imp fun _ _ _ => .inr trivial⟩
  | st :: b, h, s, cx, hin => by
    rw [Stmt.nodesList, forall_mem_append] at h
    unfold stmts
    refine (stmt_goes st h.1 hin).bind fun st t ht ⟨hst', hst⟩ =>
      (stmts_goes b h.2 (hin.mono ht)).bind fun b u _ ⟨hb', xs, hb⟩ =>
        .pure ⟨by rw [Stmt.mapList, Stmt.mapList, hst', hb'], xs ++ st.declared, ?_⟩
    rw [Stmt.nodesList, Stmt.actionsList, List.flatMap_append]
    have hboth : s.Within u cx r _ _ _ fun env sc => ScopedAll env sc (st :: b) :=
      (hst.seq hb).imp fun _ _ h => .inr (by rwa [ScopedAll])
    split
    · rw [List.flatMap_nil, List.append_nil]
      exact hboth.shorten
    · exact hboth

theorem elseArms_goes : (e : Else Note) → (∀ n ∈ Stmt.nodesElse e, n.Fresh) → ∀ {s cx},
    cx.In s r → Goes s (elseArms cx e) fun t e' => Stmt.mapElse Note.loc e' = Stmt.mapElse Note.loc e ∧
      s.Within t cx r [] ((Stmt.actionsElse e').flatMap Action.declarations) (Stmt.nodesElse e')
        fun env sc => ScopedElse env sc e'
  | .nothing, _, s, _, _ => by
    unfold elseArms
    refine .pure ⟨rfl, (Reading.nil (.refl s)).within.imp fun _ _ _ => .inr trivial⟩
  | .block b, h, s, cx, hin => by
    rw [Stmt.nodesElse] at h
    unfold elseArms
    refine block_goes (stmts_goes b h) hin fun b t hb' hb =>
      .pure ⟨by rw [Stmt.mapElse, Stmt.mapElse, hb'], ?_⟩
    rw [Stmt.nodesElse]
    refine hb.imp fun _ _ h => .inr h
  | .elseIf i c b e, h, s, cx, hin => by
    rw [Stmt.nodesElse, forall_mem_append, forall_mem_append] at h
    unfold elseArms
    refine (condition_reads h.1.1 hin.typed).bindGoes fun c t ht hc =>
      block_goes (stmts_goes b h.1.2) (hin.mono ht.toOnward) fun b u hb' hb =>
        (elseArms_goes e h.2 (hin.mono (ht.toOnward.trans hb.onward))).bind fun e v _ ⟨he', he⟩ =>
          .pure ⟨by rw [Stmt.mapElse, Stmt.mapElse, hc.same, hb', he'], ?_⟩
    rw [Stmt.nodesElse]
    refine ((hc.within.seq hb).seq he).arms fun _ _ h => ⟨h.1.1, h.1.2, h.2⟩

theorem cases_goes : (cs : List (Case Note)) → (∀ n ∈ Stmt.nodesCases cs, n.Fresh) → ∀ {s cx},
    cx.In s r → Goes s (cases cx subject cs) fun t cs' =>
      Stmt.mapCases Note.loc cs' = Stmt.mapCases Note.loc cs ∧
        s.Within t cx r [] ((Stmt.actionsCases cs').flatMap Action.declarations)
          (Stmt.nodesCases cs') fun env sc => ScopedCases env sc cs'
  | [], _, s, _, _ => by
    unfold cases
    refine .pure ⟨rfl, (Reading.nil (.refl s)).within.imp fun _ _ _ => .inr trivial⟩
  | .values i vs b :: cs, h, s, cx, hin => by
    rw [Stmt.nodesCases, forall_mem_append, forall_mem_append] at h
    unfold cases
    refine (caseValues_reads h.1.1 hin.typed).bindGoes fun vs t ht ⟨hvs, hvs'⟩ =>
      block_goes (stmts_goes b h.1.2) (hin.mono ht.toOnward) fun b u hb' hb =>
        (cases_goes cs h.2 (hin.mono (ht.toOnward.trans hb.onward))).bind fun cs v _ ⟨hcs', hcs⟩ =>
          .pure ⟨by rw [Stmt.mapCases, Stmt.mapCases, hvs', hb', hcs'], ?_⟩
    rw [Stmt.nodesCases]
    refine ((hvs.within.seq hb).seq hcs).arms fun _ _ h => ⟨Scoping.seesAll_list h.1.1, h.1.2, h.2⟩
  | .otherwise i b :: cs, h, s, cx, hin => by
    rw [Stmt.nodesCases, forall_mem_append] at h
    unfold cases
    refine block_goes (stmts_goes b h.1) hin fun b t hb' hb =>
      (cases_goes cs h.2 (hin.mono hb.onward)).bind fun cs u _ ⟨hcs', hcs⟩ =>
        .pure ⟨by rw [Stmt.mapCases, Stmt.mapCases, hb', hcs'], ?_⟩
    rw [Stmt.nodesCases]
    refine (hb.seq hcs).arms fun _ _ h => h

theorem catches_goes : (cs : List (Catch Note)) → (∀ n ∈ Stmt.nodesCatches cs, n.Fresh) →
    ∀ {s cx}, cx.In s r → Goes s (catches cx cs) fun t cs' =>
      Stmt.mapCatches Note.loc cs' = Stmt.mapCatches Note.loc cs ∧
        s.Within t cx r [] ((Stmt.actionsCatches cs').flatMap Action.declarations)
          (Stmt.nodesCatches cs') fun env sc => ScopedCatches env sc cs'
  | [], _, s, _, _ => by
    unfold catches
    refine .pure ⟨rfl, (Reading.nil (.refl s)).within.imp fun _ _ _ => .inr trivial⟩
  | .mk i none ty b :: cs, h, s, cx, hin => by
    rw [Stmt.nodesCatches, forall_mem_append] at h
    unfold catches
    refine (inner_goes hin (.inl rfl)).bind fun cx' t _ ⟨ho, hin'⟩ => ?_
    refine block_goes (stmts_goes b h.1) hin' fun b u hb' hb => ?_
    have hbody := hb.leave ho fun hc => hc.block ho
    refine (catches_goes cs h.2 (hin.mono hbody.onward)).bind fun cs v _ ⟨hcs', hcs⟩ =>
      .pure ⟨by rw [Stmt.mapCatches, Stmt.mapCatches, hb', hcs'], ?_⟩
    rw [Stmt.nodesCatches]
    refine (hbody.seq hcs).arms fun _ _ h => h
  | .mk i (some v) ty b :: cs, h, s, cx, hin => by
    rw [Stmt.nodesCatches, forall_mem_append] at h
    unfold catches
    refine (inner_goes hin (.inl rfl)).bind fun cx' t _ ⟨ho, hin'⟩ =>
      typeOf?_reads.bindGoes fun a t' ht' ha =>
        (Goes.define (ht'.tree.hasScope _ ho.has) ha).bind fun x u hu ⟨_, hadds, _, horder⟩ => ?_
    refine block_goes (stmts_goes b h.1) ((hin'.mono ht'.toOnward).mono hu) fun b w hb' hb => ?_
    have hdefine := (Reading.nil ht').within.define (r := r) hu hadds horder
    have hbody := ((hdefine.seq hb).imp fun _ _ h => .inr h.2).leave ho fun hc => hc.block ho
    refine (catches_goes cs h.2 (hin.mono hbody.onward)).bind fun cs z _ ⟨hcs', hcs⟩ =>
      .pure ⟨by rw [Stmt.mapCatches, Stmt.mapCatches, hb', hcs'], ?_⟩
    rw [Stmt.nodesCatches]
    refine (hbody.seq hcs).arms fun _ _ h => h

end

end Analyze

end BasicSSA
