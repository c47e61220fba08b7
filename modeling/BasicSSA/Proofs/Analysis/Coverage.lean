import BasicSSA.Proofs.Analysis.Course.Program
import BasicSSA.Proofs.Compile.Text

/-!
# Which expressions analysis looks at

In an accepted program an expression has a type exactly if it stands in a place that the third visit
comes to.
-/

namespace BasicSSA

/-! ### Notes that are still empty -/

/-- An expression that has no type yet. -/
def Node.Blank : Node Note → Prop
  | .expr e => e.info.type = none
  | .stmt _ => True

section

variable {f : Loc → Note} (hf : ∀ loc, (f loc).type = none)

include hf

theorem Node.blank_map : (n : Node Loc) → (n.map f).Blank
  | .expr e => by
    have hinfo : (e.map f).info = f e.info := by cases e <;> rfl
    exact (congrArg Note.type hinfo).trans (hf _)
  | .stmt _ => trivial

theorem Expr.blank_map {e : Option (Expr Loc)} :
    ∀ n ∈ (e.map (·.map f)).elim [] Expr.nodes, n.Blank := by
  intro n hn
  cases e with
  | none => cases hn
  | some e =>
    rw [Option.map_some, Option.elim_some, Expr.nodes_map] at hn
    obtain ⟨m, -, rfl⟩ := List.mem_map.mp hn
    exact m.blank_map hf

theorem Param.blank_map {ps : List (Param Loc)} :
    ∀ n ∈ (ps.map (·.map f)).flatMap (·.default.elim [] Expr.nodes), n.Blank := by
  intro n hn
  obtain ⟨q, hq, hn⟩ := List.mem_flatMap.mp hn
  obtain ⟨q, -, rfl⟩ := List.mem_map.mp hq
  exact Expr.blank_map hf n hn

theorem Procedure.blank_map (p : Procedure Loc) : ∀ n ∈ (p.map f).nodes, n.Blank := by
  refine List.forall_mem_append.mpr ⟨Param.blank_map hf, fun n hn => ?_⟩
  change n ∈ (p.body.map (Stmt.mapList f)).elim [] Stmt.nodesList at hn
  cases hb : p.body with
  | none =>
    rw [hb] at hn
    cases hn
  | some b =>
    rw [hb, Option.map_some, Option.elim_some, Stmt.nodesList_map] at hn
    obtain ⟨m, -, rfl⟩ := List.mem_map.mp hn
    exact m.blank_map hf

end

namespace Decl

mutual

theorem nodes_blank_map (hf : ∀ loc, (f loc).type = none) : (d : Decl Loc) →
    ∀ n ∈ (d.map f).nodes, n.Blank
  | .nspace _ _ ds | .module _ _ ds | .cls _ _ ds => by
    rw [map, nodes]
    exact nodesList_blank_map hf ds
  | .interface _ _ ps => by
    rw [map, nodes]
    intro n hn
    obtain ⟨p, hp, hn⟩ := List.mem_flatMap.mp hn
    obtain ⟨p, -, rfl⟩ := List.mem_map.mp hp
    exact p.blank_map hf n hn
  | .record _ _ _ vs => by
    rw [map, nodes]
    intro n hn
    obtain ⟨d, hd, hn⟩ := List.mem_flatMap.mp hn
    obtain ⟨d, -, rfl⟩ := List.mem_map.mp hd
    exact Expr.blank_map hf n hn
  | .proc p | .extension _ _ p => by
    rw [map, nodes]
    exact p.blank_map hf
  | .var _ | .const _ => by
    rw [map, nodes]
    exact Expr.blank_map hf
  | .template _ d => by
    rw [map, nodes]
    exact nodes_blank_map hf d
  | .delegate _ => by
    rw [map, nodes]
    exact Param.blank_map hf
  | .uses .. | .imports .. | .typeDefine .. => by simp [map, nodes]

theorem nodesList_blank_map (hf : ∀ loc, (f loc).type = none) : (ds : List (Decl Loc)) →
    ∀ n ∈ nodesList (mapList f ds), n.Blank
  | [] => by simp [mapList, nodesList]
  | d :: ds => by
    rw [mapList, nodesList]
    exact List.forall_mem_append.mpr ⟨nodes_blank_map hf d, nodesList_blank_map hf ds⟩

end

end Decl

/-! ### Accepted programs -/

/-- An expression of an accepted program has no type exactly if it stands where no visit comes to, and
each other one has a type of the catalog. Without notes the program is the one that was read. -/
theorem typed_iff_reached (h : (analyze p).isAccepted = true) :
    Program.map Note.loc (analyze p).program = p ∧
      ∀ e, .expr e ∈ Decl.nodesList (analyze p).program →
        (e.info.type = none ↔ .expr e ∈ Decl.unreachedList (analyze p).program) ∧
        ∀ t, e.info.type = some t → (analyze p).types.Has t := by
  have hnot : ¬(analyze p).Failed := by
    simpa [Analysis.isAccepted, AnalysisState.Failed] using h
  obtain ⟨_, _, hcourse⟩ := exists_course p
  obtain ⟨_, p', _, s, hv⟩ := exists_visited p
  obtain ⟨-, -, hbodies⟩ := hv.analysed
  have hblank (n : Node Note) (hn : n ∈ Decl.unreachedList (analyze p).program) : n.Blank := by
    have hmem := hbodies.unreached (hv.noted.closed (Decl.sealedList_map (fun _ => rfl) p)) hn
    rw [hv.noted.nodes] at hmem
    exact Decl.nodesList_blank_map (fun _ => rfl) p n hmem
  have hsplit := hbodies.split hnot hv.declared
  refine ⟨map_analyze p, fun e he => ⟨⟨fun hnone => ?_, hblank _⟩, fun t ht => ?_⟩⟩
  · refine (hsplit _ he).resolve_left fun hr => ?_
    obtain ⟨t, ht, -⟩ := hcourse.typed _ hr
    cases hnone.symm.trans ht
  · rcases hsplit _ he with hr | hr
    · obtain ⟨t', ht', hhas⟩ := hcourse.typed _ hr
      exact Option.some.inj (ht'.symm.trans ht) ▸ hhas
    · cases (hblank _ hr).symm.trans ht

/-- A field of a record and a field of a class, both with a value. -/
def fieldValues : Program Loc :=
  let x : VarDecl Loc := { info := {}, name := "x", type := some (.mk "Integer" [] false false [] {}),
                           init := some (.literal {} (.integer ⟨1, by decide⟩)) }
  [.record {} .type "P" [x], .cls {} { name := "C" } [.var x]]

theorem fieldValues_typed_iff : (analyze fieldValues).isAccepted = true ∧
    Program.map Note.loc (analyze fieldValues).program = fieldValues ∧
      ∀ e, .expr e ∈ Decl.nodesList (analyze fieldValues).program →
        (e.info.type = none ↔ .expr e ∈ Decl.unreachedList (analyze fieldValues).program) ∧
        ∀ t, e.info.type = some t → (analyze fieldValues).types.Has t :=
  ⟨by decide +kernel, typed_iff_reached (by decide +kernel)⟩

/-- Whether a node is an expression without a type. -/
def Node.isUntyped : Node Note → Bool
  | .expr e => e.info.type.isNone
  | .stmt _ => false

/-- A record whose field has a value. -/
def recordValue : String :=
  "Type P\nx As Integer = 1\nEnd Type\n"

/-- No visit looks at the value of a field of a record. -/
theorem recordValue_untyped : ∃ tokens p, tokenize recordValue 1 = .ok tokens ∧
    parse tokens = .ok p ∧ (analyze p).isAccepted = true ∧
    ∃ e, .expr e ∈ Decl.nodesList (analyze p).program ∧ e.info.type = none := by
  have h : ((accepted? 1 recordValue).map fun p =>
      (Decl.nodesList (analyze p).program).any Node.isUntyped) = some true := by
    decide +kernel
  obtain ⟨p, hp, hany⟩ := Option.map_eq_some_iff.mp h
  obtain ⟨tokens, htokens, hparse, haccepted⟩ := accepted?_eq_some hp
  obtain ⟨n, hn, huntyped⟩ := List.any_eq_true.mp hany
  cases n with
  | stmt => cases huntyped
  | expr e =>
    exact ⟨tokens, p, htokens, hparse, haccepted, e, hn, Option.isNone_iff_eq_none.mp huntyped⟩

end BasicSSA
