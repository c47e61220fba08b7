import Mathlib.Logic.Relation
import Mathlib.Order.Defs.Unbundled
import BasicSSA.Proofs.Analysis.Course.Program
import BasicSSA.Proofs.Compile.Text
import BasicSSA.Proofs.Types.Order

/-!
# The hierarchy of types

The types of an analysed program are ordered by assignability, and the bases of classes never form a
cycle.

## Main definitions

* `Catalog.Grounded`: every walk along bases ends, so no bound on a walk is ever reached;
* `ClassHead.Names`: the `Inherits` clause of a class names another class.
-/

namespace BasicSSA

open AnalysisState Analyze

/-! ### Assignability is an order -/

/-- A type of a catalog without type parameters in it, whose generic types come from classes and
interfaces. -/
def Catalog.PlainType (c : Catalog) : Type :=
  { t : TypeId // c.Has t ∧ c.Plain t }

theorem analyze_lawful (p : Program Loc) : (analyze p).types.Lawful := by
  obtain ⟨s₁, s₂, h⟩ := exists_course p
  exact (h.bodies.last h.after).types

/-- Among the plain types of an analysed program, assignability is a partial order. -/
theorem isAssignable_partialOrder (p : Program Loc) :
    IsPartialOrder (analyze p).types.PlainType
      fun t s => (analyze p).types.isAssignable t.1 s.1 = true := by
  have hc := analyze_lawful p
  generalize (analyze p).types = c at hc
  have hiff (t s : c.PlainType) : c.isAssignable t.1 s.1 = true ↔ c.Converts t.1 s.1 :=
    hc.isAssignable_iff t.2.1 s.2.1 t.2.2 s.2.2
  refine @IsPartialOrder.mk _ _ (@IsPreorder.mk _ _ ⟨fun t => ?_⟩ ⟨fun t s r h h' => ?_⟩)
    ⟨fun t s h h' => ?_⟩
  · exact (hiff t t).mpr .refl
  · rw [hiff] at h h' ⊢
    exact h'.trans hc r.2.1 r.2.2 s.2.1 s.2.2 h
  · rw [hiff] at h h'
    exact Subtype.ext (h.antisymm hc s.2.1 s.2.2 t.2.1 t.2.2 h')

/-! ### Bases never form a cycle -/

/-- Every walk along the bases of a catalog ends, and what bounds the walks is never reached: the
list of bases is the whole walk, and more steps change neither it nor an assignment. -/
structure Catalog.Grounded (c : Catalog) : Prop where
  lineage : ∀ t, c.Has t → c.Lineage t (c.bases t)
  bases : ∀ t n, c.Has t → c.types.size ≤ n → c.basesAux n t = c.bases t
  assignable : ∀ t s n, c.Has t → c.types.size ≤ n →
    c.isAssignableAux (n + 1) t s = c.isAssignable t s

theorem Catalog.Lawful.grounded {c : Catalog} (hc : c.Lawful) : c.Grounded where
  lineage _ ht := hc.bases ht
  bases t n ht hn := by
    have hl := hc.bases ht
    refine hl.basesAux (Nat.le_trans ?_ hn)
    exact hl.length_le (hl.has ht fun _ _ hb => (hc.base hb).1)
  assignable t s n ht hn := by
    have hsize : t.index < c.types.size := ht
    exact hc.isAssignableAux_eq (by omega) (by omega)

/-- The `Inherits` clause of a class names a class: the last part of the name in the clause and the
name of the class stand for the same in a catalog, which follows aliases. -/
def ClassHead.Names (c : Catalog) (h h' : ClassHead) : Prop :=
  h.base.isEmpty = false ∧ c.find? (lastSegment h.base) = c.find? h'.name

/-- A clause names a class by the name of the class, up to letter case and qualification. -/
theorem ClassHead.Names.of_sameName {h h' : ClassHead} (hne : h.base.isEmpty = false)
    (hname : sameName (lastSegment h.base) h'.name = true) : h.Names c h' := by
  refine ⟨hne, ?_⟩
  rw [Catalog.find?_eq, Catalog.find?_eq, beq_iff_eq.mp hname]

/-- Some step along bases leads nearer to the end of the walk. -/
theorem Catalog.Lineage.length_lt {c : Catalog}
    (h : c.Lineage t l) (hu : Relation.TransGen (fun x y => c.base x = some y) t u) :
    ∃ l', c.Lineage u l' ∧ l'.length < l.length := by
  induction hu with
  | single hb =>
    cases h with
    | last hn => simp [hn] at hb
    | next hb' hl =>
      cases Option.some.inj (hb'.symm.trans hb)
      exact ⟨_, hl, Nat.lt_succ_self _⟩
  | tail _ hb ih =>
    obtain ⟨l', hl', hlen⟩ := ih
    cases hl' with
    | last hn => simp [hn] at hb
    | next hb' hl =>
      cases Option.some.inj (hb'.symm.trans hb)
      exact ⟨_, hl, Nat.lt_trans (Nat.lt_succ_self _) hlen⟩

/-- In a program that is accepted, clauses that lead from a class to another one are bases that lead
from the type of the first to that of the second. -/
theorem transGen_base
    (hp : (analyze p).isAccepted = true)
    (hh : Relation.TransGen (fun h h' => h ∈ Decl.headsList p ∧ h.Names (analyze p).types h') h h') :
    ∃ a b, (analyze p).types.find? h.name = some a ∧ (analyze p).types.find? h'.name = some b ∧
      Relation.TransGen (fun x y => (analyze p).types.base x = some y) a b := by
  obtain ⟨s₁, s₂, hcourse⟩ := exists_course p
  obtain ⟨l, hbases⟩ := hcourse.bases
  have hnot : ¬(analyze p).Failed := by simpa [Analysis.isAccepted, AnalysisState.Failed] using hp
  have hstep {h h' : ClassHead} (hh : h ∈ Decl.headsList p ∧ h.Names (analyze p).types h') :
      ∃ a b, (analyze p).types.find? h.name = some a ∧ (analyze p).types.find? h'.name = some b ∧
        (analyze p).types.base a = some b := by
    obtain ⟨hmem, hne, hfind⟩ := hh
    obtain ⟨a, -, ha, b, hb, hbase⟩ := (hbases h hmem hne).resolve_left hnot
    exact ⟨a, b, ha, hfind ▸ hb, hbase⟩
  induction hh with
  | single hh =>
    obtain ⟨a, b, ha, hb, hbase⟩ := hstep hh
    exact ⟨a, b, ha, hb, .single hbase⟩
  | tail _ hh ih =>
    obtain ⟨a, b, ha, hb, hchain⟩ := ih
    obtain ⟨b', d, hb', hd, hbase⟩ := hstep hh
    cases Option.some.inj (hb.symm.trans hb')
    exact ⟨a, d, ha, hd, hchain.tail hbase⟩

/-- Bases never form a cycle. The catalog has none when the second visit begins, nor at any moment
from there to the end of analysis. A program in which the classes outside of classes name each
other in a cycle is not accepted. -/
theorem analyze_grounded (p : Program Loc) :
    (∃ s₁ s₂, (∃ p₁ p₂, (typeDecls ScopeTree.root (p.map ({ loc := · }))).run {} = (.ok p₁, s₁) ∧
        (members p₁).run s₁ = (.ok p₂, s₂) ∧
        bodyDecls { scope := ScopeTree.root } p₂ s₂ =
          ((analyze p).program, (analyze p).toAnalysisState)) ∧
      s₁.types.Grounded ∧ Through (·.types.Grounded) s₁ s₂ ∧
      Through (·.types.Grounded) s₂ (analyze p).toAnalysisState) ∧
    ∀ h, Relation.TransGen (fun h h' => h ∈ Decl.headsList p ∧ h.Names (analyze p).types h') h h →
      (analyze p).isAccepted = false := by
  obtain ⟨s₁, s₂, hcourse⟩ := exists_course p
  refine ⟨⟨s₁, s₂, hcourse.visits, hcourse.between.types.grounded,
    hcourse.members.imp fun h => h.types.grounded,
    hcourse.bodies.imp fun h => h.types.grounded⟩, fun h hh => ?_⟩
  by_contra hp
  obtain ⟨a, b, ha, hb, hchain⟩ := transGen_base (Bool.not_eq_false _ ▸ hp) hh
  cases Option.some.inj (ha.symm.trans hb)
  have hc := analyze_lawful p
  have hl := hc.bases (hc.find ha)
  obtain ⟨l', hl', hlen⟩ := hl.length_lt hchain
  rw [hl'.unique hl] at hlen
  exact Nat.lt_irrefl _ hlen

/-- Two classes that name each other. -/
def mutualClasses : Program Loc :=
  [.cls {} { name := "A", base := "N.b" } [], .cls {} { name := "B", base := "a" } []]

theorem mutualClasses_rejected : (analyze mutualClasses).isAccepted = false := by
  refine (analyze_grounded mutualClasses).2 { name := "A", base := "N.b" } ?_
  exact .tail (b := { name := "B", base := "a" })
    (.single ⟨.head _, .of_sameName rfl (by decide)⟩)
    ⟨.tail _ (.head _), .of_sameName rfl (by decide)⟩

mutual

/-- The heads of all classes of a declaration, with those inside of classes. -/
def Decl.allHeads {α : Type} : Decl α → List ClassHead
  | .nspace _ _ ds | .module _ _ ds => allHeadsList ds
  | .cls _ h ds => h :: allHeadsList ds
  | .template _ d => d.allHeads
  | _ => []

def Decl.allHeadsList {α : Type} : List (Decl α) → List ClassHead
  | [] => []
  | d :: ds => d.allHeads ++ allHeadsList ds

end

/-- A class inside of a class that names itself. -/
def innerClass : String :=
  "Class A\nClass B\nInherits B\nEnd Class\nEnd Class\n"

/-- No visit looks at a class inside of a class, so one that names itself is accepted. -/
theorem innerClass_accepted : ∃ tokens p, tokenize innerClass 1 = .ok tokens ∧
    parse tokens = .ok p ∧ (analyze p).isAccepted = true ∧
    ∃ h ∈ Decl.allHeadsList p, h.base.isEmpty = false ∧ sameName (lastSegment h.base) h.name = true := by
  have h : ((accepted? 1 innerClass).map Decl.allHeadsList) =
      some [{ name := "A" }, { name := "B", base := "B" }] := by
    decide +kernel
  obtain ⟨p, hp, hheads⟩ := Option.map_eq_some_iff.mp h
  obtain ⟨tokens, htokens, hparse, haccepted⟩ := accepted?_eq_some hp
  refine ⟨tokens, p, htokens, hparse, haccepted, { name := "B", base := "B" }, ?_, rfl, by decide⟩
  rw [hheads]
  exact .tail _ (.head _)

end BasicSSA
