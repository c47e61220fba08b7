import BasicSSA.Proofs.Analysis.Bodies
import BasicSSA.Proofs.Analysis.Erasure

/-!
# The course of a whole analysis

All three visits of a program come to their end, and the state is valid at each moment. So what is
known of the third visit holds of the program that analysis gives.
-/

namespace BasicSSA

open Lower (Env ScopedItem)

/-! ### The first state -/

theorem Builtin.symbol_valid (h : b ∈ Builtin.all) :
    (b.symbol .initial).Valid .initial := by
  have hreturn : ∀ b ∈ Builtin.all, (b.returnType.elim (some .void) Catalog.initial.find?).any
      (·.index < Catalog.initial.types.size) = true := by decide
  have hparam : ∀ b ∈ Builtin.all, ∀ n ∈ b.params, (Catalog.initial.find? n).any
      (·.index < Catalog.initial.types.size) = true := by decide
  have hhas {o : Option TypeId} (ho : o.any (·.index < Catalog.initial.types.size) = true) :
      ∃ a, o = some a ∧ Catalog.initial.Has a := by
    cases o with
    | none => cases ho
    | some a => exact ⟨a, rfl, of_decide_eq_true ho⟩
  obtain ⟨a, ha, hhasa⟩ := hhas (hreturn b h)
  have htype : ∀ t, (b.symbol .initial).type = some t → Catalog.initial.Has t := by
    intro t ht
    cases ha.symm.trans ht
    exact hhasa
  refine ⟨htype, htype, fun p hp => ?_, fun _ => ?_, fun _ => ?_, fun hk => ?_⟩
  · obtain ⟨⟨n, j⟩, hn, rfl⟩ := List.mem_map.mp hp
    exact hhas (hparam b h n (List.fst_mem_of_mem_zipIdx hn))
  · exact Option.isSome_iff_exists.mpr ⟨a, ha⟩
  · exact Option.isSome_iff_exists.mpr ⟨a, ha⟩
  · unfold Builtin.symbol at hk
    dsimp only at hk
    split at hk <;> cases hk

namespace Snapshot

theorem Valid.register {bs : List Builtin} (hbs : ∀ b ∈ bs, b ∈ Builtin.all) {tree : ScopeTree}
    (h : Valid v { tree }) : Valid v { tree := bs.foldl (fun tree b =>
      ((tree.define ScopeTree.root (b.symbol .initial)).map (·.1)).getD tree) tree } := by
  induction bs generalizing tree with
  | nil => exact h
  | cons b bs ih =>
    obtain ⟨hb, hbs⟩ := List.forall_mem_cons.mp hbs
    refine ih hbs ?_
    dsimp only
    cases hd : tree.define ScopeTree.root (b.symbol .initial) with
    | none => exact h
    | some r => exact h.define (ScopeTree.defines hd) (Builtin.symbol_valid hb)

theorem valid_initial (v : Visit) : Valid v {} := by
  refine Valid.register (fun _ h => h) ⟨Catalog.lawful_initial, nofun, fun o => ?_, fun o ho => ?_,
    fun o e he => ?_, fun x hx => absurd hx Catalog.not_hasMember_initial, nofun, nofun⟩
  · obtain ⟨_ | n⟩ := o <;> exact ⟨nofun, nofun⟩
  · obtain ⟨_ | n⟩ := o
    · cases v <;> nofun
    · exact absurd (Nat.lt_of_succ_lt_succ ho) (Nat.not_lt_zero n)
  · obtain ⟨_ | n⟩ := o <;> cases he

end Snapshot

/-! ### The three visits -/

namespace Analyze

/-- A step of the first two visits that does not fail. -/
theorem run_bind {x : Declare α} {y : α → Declare β} {a : α}
    (h : x.run s = (.ok a, t)) : (x >>= y).run s = (y a).run t := by
  change (ExceptT.bindCont y (x.run s).1 : Analyze _) (x.run s).2 = _
  rw [h]
  rfl

end Analyze

open AnalysisState Analyze
open Snapshot (Valid valid_initial)

/-- The first two visits of a program have come to their end. -/
structure Visited (p : Program Loc) (p₁ p₂ : Program Note) (s₁ s₂ : AnalysisState) : Prop where
  runTypes : (typeDecls ScopeTree.root (p.map ({ loc := · }))).run {} = (.ok p₁, s₁)
  runMembers : (members p₁).run s₁ = (.ok p₂, s₂)
  types : Advances (fun _ => True) .types [] {} s₁
  between : s₁.Valid .members
  members : Advances (fun _ => True) .members [] s₁ s₂
  valid : s₂.Valid .bodies
  ok : s₂.Ok
  ready : Decl.ReadyList s₂ p₂
  declared : Decl.DeclaredList s₂ p₂
  noted : Decl.NotedList (Decl.mapList ({ loc := · }) p) p₂
  laid : Decl.FormedList (fun _ => True) p → Decl.LaidList s₂ p₂
  /-- Classes have the bases that they name. -/
  bases : ∃ l, ExtendsAll s₂ l (Decl.headsList p)

theorem exists_visited (p : Program Loc) : ∃ p₁ p₂ s₁ s₂, Visited p p₁ p₂ s₁ s₂ := by
  obtain ⟨p₁, s₁, hr₁, hok₁, ht₁, ho₁, hready₁, hnoted₁, hform₁, l, hsettled, hnodup, -⟩ :=
    (typeDecls_visits (L := fun _ => True) p ok_initial.tree.root.1).run (valid_initial .types)
      ok_initial
  have hv₁ := (ht₁.along.last (valid_initial .types)).next (valid_initial .bodies).complete
    ht₁.toGrown ho₁
  have hbetween : s₁.Valid .members :=
    { hv₁ with complete := fun o ho => (hv₁.complete o ho).earlier .members }
  obtain ⟨p₂, s₂, hr₂, hok₂, ht₂, ho₂, ⟨hready, hdeclared, hnoted, hlaid⟩, hbases⟩ :=
    ((Visits.lift aliases_lays).bind fun _ t ht _ => memberDecls_visits p₁
      (ScopeTree.Spacious.mono hok₁.tree.root ht.tree) (hready₁.mono ht.toGrown) (hsettled.mono ht)
        hnodup).run hbetween hok₁
  have hheads : Decl.headsList p₁ = Decl.headsList p := by
    rw [← Decl.headsList_map (f := Note.loc), hnoted₁.same, Decl.headsList_map, Decl.headsList_map]
  refine ⟨p₁, p₂, s₁, s₂, hr₁, hr₂, ht₁, hbetween,
    ⟨ht₂.toGrown, ht₂.along.weaken fun _ _ => trivial, ht₂.prepares⟩,
    (ht₂.along.last hbetween).next hv₁.complete ht₂.toGrown ho₂, hok₂, hready, hdeclared,
    hnoted₁.trans hnoted, fun hf => hlaid (hform₁ (.map (fun loc => ?_) hf)), l, hheads ▸ hbases⟩
  rfl

namespace Visited

section

variable (h : Visited p p₁ p₂ s₁ s₂)

include h

theorem grown : Grown {} s₂ :=
  h.types.toGrown.trans h.members.toGrown

theorem prepares : Prepares [] {} s₂ :=
  h.types.prepares.trans h.types.toGrown h.members.prepares h.members.toGrown

theorem bodies : bodyDecls { scope := ScopeTree.root } p₂ s₂ =
    ((analyze p).program, (analyze p).toAnalysisState) := by
  have hrun : (program (p.map ({ loc := · }))).run {} =
      (liftM (bodyDecls { scope := ScopeTree.root } p₂) : Declare (Program Note)).run s₂ := by
    rw [program_eq, run_bind ((run_bind h.runTypes).trans h.runMembers)]
  unfold analyze
  dsimp only
  rw [show StateT.run (program (p.map ({ loc := · }))).run {} = _ from hrun]
  rfl

/-- What is known of the third visit holds of the program that analysis gives. -/
theorem analysed : (analyze p).toAnalysisState.Ok ∧
    s₂.Onward (analyze p).toAnalysisState ∧ Decl.AnalysedList s₂ (analyze p).toAnalysisState
      ScopeTree.root p₂ (analyze p).program := by
  have hgoes : Goes s₂ (bodyDecls { scope := ScopeTree.root } p₂) _ :=
    bodyDecls_goes p₂ h.ok.tree.root.1 rfl h.ready
  simpa only [h.bodies] using hgoes h.valid h.ok

end

end Visited

/-- The three visits of a program. Each goes on with the program and the state that the one before
it left, none fails, and the state is valid at each moment. -/
structure Course (p : Program Loc) (s₁ s₂ : AnalysisState) : Prop where
  visits : ∃ p₁ p₂, (typeDecls ScopeTree.root (p.map ({ loc := · }))).run {} = (.ok p₁, s₁) ∧
    (members p₁).run s₁ = (.ok p₂, s₂) ∧
    bodyDecls { scope := ScopeTree.root } p₂ s₂ =
      ((analyze p).program, (analyze p).toAnalysisState)
  start : Valid .types {}
  types : Through (Valid .types) {} s₁
  between : s₁.Valid .members
  members : Through (Valid .members) s₁ s₂
  after : s₂.Valid .bodies
  bodies : Through (Valid .bodies) s₂ (analyze p).toAnalysisState
  /-- Classes have the bases that they name. -/
  bases : ∃ l, ExtendsAll (analyze p).toAnalysisState l (Decl.headsList p)
  typed : ∀ n ∈ Decl.reachedList (analyze p).program, n.Typed (analyze p).types

theorem exists_course (p : Program Loc) : ∃ s₁ s₂, Course p s₁ s₂ := by
  obtain ⟨p₁, p₂, s₁, s₂, hv⟩ := exists_visited p
  obtain ⟨-, honward, hbodies⟩ := hv.analysed
  obtain ⟨l, hbases⟩ := hv.bases
  refine ⟨s₁, s₂, ⟨p₁, p₂, hv.runTypes, hv.runMembers, hv.bodies⟩, valid_initial .types,
    hv.types.along.through, hv.between, hv.members.along.through, hv.valid, honward.along.through,
    ⟨l, fun h hh hne => ?_⟩, hbodies.typed⟩
  -- The third visit leaves the bases as they are.
  refine (hbases h hh hne).imp honward.failed fun ⟨a, ha, he⟩ => ⟨a, ha, he.mono honward.toGrown ?_⟩
  exact honward.along.base (hv.valid.types.find he.1) id

/-- Analysis never fails internally. All three visits come to their end, so each scope that a visit
looks up was opened by an earlier one. No internal error is reported. At each moment of the run
every name and member leads to a symbol, a symbol has the types that its uses ask for, and a scope
has them as soon as a visit asks for them. Every expression that is reached has a type, and all
these types are in the catalog. -/
theorem analyze_never_internal (p : Program Loc) :
    (∃ s₁ s₂, (∃ p₁ p₂, (typeDecls ScopeTree.root (p.map ({ loc := · }))).run {} = (.ok p₁, s₁) ∧
        (members p₁).run s₁ = (.ok p₂, s₂) ∧
        bodyDecls { scope := ScopeTree.root } p₂ s₂ =
          ((analyze p).program, (analyze p).toAnalysisState)) ∧
      Valid .types {} ∧ Through (Valid .types) {} s₁ ∧
      s₁.Valid .members ∧ Through (Valid .members) s₁ s₂ ∧
      s₂.Valid .bodies ∧ Through (Valid .bodies) s₂ (analyze p).toAnalysisState) ∧
    (∀ f ∈ (analyze p).findings, f.problem.isInternal = false) ∧
    ∀ n ∈ Decl.reachedList (analyze p).program, n.Typed (analyze p).types := by
  obtain ⟨s₁, s₂, h⟩ := exists_course p
  exact ⟨⟨s₁, s₂, h.visits, h.start, h.types, h.between, h.members, h.after, h.bodies⟩,
    (h.bodies.last h.after).findings, h.typed⟩

/-! ### Accepted programs -/

/-- Analysis only writes notes. -/
theorem map_analyze (p : Program Loc) : Program.map Note.loc (analyze p).program = p := by
  obtain ⟨_, p', _, s, hv⟩ := exists_visited p
  obtain ⟨-, -, hbodies⟩ := hv.analysed
  calc Program.map Note.loc (analyze p).program
    _ = Decl.mapList Note.loc p' := hbodies.same
    _ = Decl.mapList Note.loc (Decl.mapList ({ loc := · }) p) := hv.noted.same
    _ = p := Decl.mapList_leftInverse (fun _ => rfl) p

theorem analyze_named (h : ∀ d ∈ p, d.Named) : ∀ d ∈ (analyze p).program, d.Named := by
  intro d hd
  have hmem : d.map Note.loc ∈ Program.map Note.loc (analyze p).program := by
    rw [Program.map, Decl.mapList_eq]
    exact List.mem_map_of_mem hd
  rw [map_analyze p] at hmem
  exact d.named_of_map (h _ hmem)

/-- In an accepted program all items were checked, and no error was found. -/
theorem analyze_checked (h : (analyze p).isAccepted = true) :
    ¬(analyze p).Failed ∧ (analyze p).toAnalysisState.Ok ∧
      AnalysisState.Grown {} (analyze p).toAnalysisState ∧
      ((∀ d ∈ p, d.Named) → ∀ d ∈ (analyze p).program, d.Named) ∧
      ∀ item ∈ Decl.itemsList "" (analyze p).program,
        item.Checked (analyze p).toAnalysisState ∧ item.Typed (analyze p).toAnalysisState := by
  obtain ⟨_, p', _, s, hv⟩ := exists_visited p
  obtain ⟨hok, honward, hbodies⟩ := hv.analysed
  refine ⟨by simpa [Analysis.isAccepted, AnalysisState.Failed] using h, hok,
    hv.grown.trans honward.toGrown, analyze_named,
    hbodies.items hv.declared ""⟩

/-- The items of an accepted program ask for nothing that is not there. -/
theorem analyze_scoped (hn : ∀ d ∈ p, d.Named) (hf : Decl.FormedList (fun _ => True) p)
    (h : (analyze p).isAccepted = true) :
    ∀ item ∈ Decl.itemsList "" (analyze p).program, ScopedItem (.ofItems (analyze p).types
      (analyze p).tree (Decl.itemsList "" (analyze p).program)) item := by
  obtain ⟨hnot, -, -, hnamed, -⟩ := analyze_checked h
  obtain ⟨_, p', _, b, hv⟩ := exists_visited p
  obtain ⟨-, honward, hbodies⟩ := hv.analysed
  generalize hitems : Decl.itemsList "" (analyze p).program = items
  generalize henv : Env.ofItems (analyze p).types (analyze p).tree items = env
  have htree : env.tree = (analyze p).tree := henv ▸ rfl
  have hgrown : b.tree.Grown env.tree := htree ▸ honward.tree
  have hset := hbodies.settles ⟨.refl b, hgrown, hv.ok.tree.root.1⟩ hv.ready (hv.laid hf) ""
  rw [hitems] at hset
  have hclear := hv.prepares.clear hv.grown hgrown (fun _ _ => AnalysisState.inert_initial) fun _ =>
    Catalog.not_hasMember_initial
  have hknown : ∀ item ∈ items, item.Known env := by
    intro item hitem
    cases item with
    | global i name init isConstant =>
      intro x hx
      have hmem : (x, name) ∈ env.globals := by
        rw [← henv]
        exact List.mem_filterMap.mpr ⟨_, hitem, by simp [hx]⟩
      refine Option.isSome_iff_ne_none.mpr fun hnone => ?_
      simpa using List.lookup_eq_none_iff.mp hnone _ hmem
    | procedure q name owner =>
      rw [← hitems] at hitem
      simpa [Item.Known] using Decl.name_ne_empty_list _ (.inr (hnamed hn)) hitem
    | cls | record => trivial
  obtain ⟨hend, hgood⟩ := (hset hclear hknown).resolve_left hnot
  exact hgood fun o ho => htree ▸ hend.locals o ho

end BasicSSA
