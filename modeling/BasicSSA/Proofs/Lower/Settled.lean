import BasicSSA.Proofs.Lower.Kinds
import BasicSSA.Proofs.Lower.Valid

/-!
# What lowering can rely on

The state in which the analysis of an accepted program ends, and the places where lowering meets the
code of such a program.
-/

namespace BasicSSA

open IL (Value Ty Kind)

namespace Analysis

variable {a : Analysis}

/-- What is known about a program that was accepted. -/
structure Settled (a : Analysis) : Prop where
  accepted : ¬a.Failed
  ok : a.toAnalysisState.Ok
  lawful : a.types.Lawful
  checked : ∀ item ∈ a.items, item.Checked a.toAnalysisState
  typed : ∀ item ∈ a.items, item.Typed a.toAnalysisState

theorem nodes_closed (a : Analysis) : Node.Closed a.nodes := by
  refine .flatMap (fun item => ?_) a.items
  cases item with
  | global i name init isConstant => exact Expr.elim_nodes_closed init
  | cls i name base fields methods => exact .flatMap (fun d => Expr.elim_nodes_closed d.init) fields
  | record => exact .nil
  | procedure p name owner =>
    rw [Item.nodes]
    cases p.body with
    | none => exact .nil
    | some body => exact Stmt.nodesList_closed body

namespace Settled

variable (h : a.Settled)

include h

/-- Each node of the code was accepted in a procedure of some return type. -/
theorem accepts (hn : n ∈ a.nodes) : ∃ r, a.Accepts r n := by
  obtain ⟨item, hitem, hn⟩ := List.mem_flatMap.mp hn
  have hchecked := h.checked item hitem
  have hvalue (value : Option (Expr Note)) (hv : a.ChecksValue value)
      (hn : n ∈ value.elim [] Expr.nodes) : ∃ r, a.Accepts r n := by
    cases value with
    | none => cases hn
    | some e => exact ⟨none, (hv e rfl none n hn).resolve_left h.accepted⟩
  cases item with
  | global i name init isConstant => exact hvalue init hchecked.1 hn
  | cls i name base fields methods =>
    obtain ⟨d, hd, hn⟩ := List.mem_flatMap.mp hn
    exact hvalue d.init (hchecked d hd) hn
  | record => cases hn
  | procedure p name owner =>
    rw [Item.nodes] at hn
    cases hbody : p.body with
    | none =>
      rw [hbody] at hn
      cases hn
    | some body =>
      rw [hbody] at hn
      obtain ⟨x, -, -, r, -, hnodes⟩ := (hchecked body hbody).resolve_left h.accepted
      exact ⟨r, (hnodes n hn).resolve_left h.accepted⟩

theorem judges (he : .expr e ∈ a.nodes) : a.Judges e := by
  obtain ⟨r, ha⟩ := h.accepts he
  exact ha.2

/-- A variable holds values of the kind of the type that a use of it has. -/
theorem kind_typeOfSymbol (x : SymbolId) :
    (a.env.typeOfSymbol x).kind = (a.types.lowered (some (a.tree.symbol x).valueType)).kind := by
  have hvalued : (a.tree.symbol x).valueType = (a.tree.symbol x).type.getD .object :=
    h.ok.tree.valued x
  rw [hvalued, h.lawful.kind_getD]
  rfl

theorem kind_of_namesType (hx : a.NamesType x) : (a.env.typeOfSymbol x).kind = .ptr := by
  obtain ⟨t, ht, hadded⟩ := hx.type
  have htype : a.env.typeOfSymbol x = a.types.lowered (some t) := congrArg a.types.lowered ht
  rw [htype, h.lawful.kind_of_added hadded]

/-- The objects of a class are addresses, and so are those of a type that the class defines. -/
theorem kind_of_class (hc : (a.env.classes.lookup (Lower.definitionOf a.types t)).isSome) :
    (a.types.lowered (some t)).kind = .ptr := by
  obtain ⟨ds, hds⟩ := Option.isSome_iff_exists.mp hc
  obtain ⟨i, _, _, _, hitem, hu⟩ := Lower.exists_class hds
  obtain ⟨x, hx, hnames⟩ := (h.typed _ hitem).resolve_left h.accepted
  obtain ⟨v, hv, hadded⟩ := hnames.type
  rw [Lower.namedType?, hx, Option.bind_some] at hu
  have heq := hv.symm.trans hu
  unfold Lower.definitionOf at heq
  split at heq
  · rename_i args hshape
    -- A generic type is no type of the initial catalog.
    refine h.lawful.kind_of_added (Nat.not_lt.mp fun hstart => ?_)
    have hall : ∀ i ∈ Catalog.initial.types, ∀ args, i.shape ≠ .generic args := by
      simp [Catalog.initial]
    refine hall (Catalog.initial.info t) ?_ args ?_
    · rw [Catalog.info, Array.getD_eq_getD_getElem?, Array.getElem?_eq_getElem hstart]
      exact Array.getElem_mem hstart
    · rw [← (h.lawful.start t hstart).2.1.shape]
      exact hshape
  · cases heq
    exact h.lawful.kind_of_added hadded

end Settled

/-- The places where lowering meets the code of a program. -/
inductive CodeAt (a : Analysis) : Lower.Place → Prop
  /-- The body of a procedure. -/
  | body : r ∈ a.routines → r.procedure.info.symbol = some x →
    CodeAt a (Lower.bodyPlace a.env x r.owner)
  /-- The values of the variables of the module. -/
  | globals : CodeAt a { a.env with }
  /-- Inside of `With` blocks and loops. -/
  | inside : CodeAt a p → CodeAt a { p with withValues, loops }
  /-- The values of the fields of a new object, which is a temporary. -/
  | fields : CodeAt a p → i.type = some t →
    (a.env.classes.lookup (Lower.definitionOf a.types t)).isSome →
    CodeAt a { p with me := some (.temp k (a.env.typeOf i)) }

namespace CodeAt

variable {p : Lower.Place}

theorem env (h : a.CodeAt p) : p.toEnv = a.env := by
  induction h with
  | body => rfl
  | globals => rfl
  | inside _ ih => exact ih
  | fields _ _ _ ih => exact ih

theorem kind_me (h : a.CodeAt p) (ha : a.Settled) : ∀ v, p.me = some v → v.type.kind = .ptr := by
  induction h with
  | body hr hx =>
    rename_i r x
    intro v hv
    obtain ⟨y, hy, rfl⟩ := Option.map_eq_some_iff.mp hv
    have hitem := (item_of_routine hr).1
    exact ha.kind_of_namesType ((ha.typed _ hitem y hy).resolve_left ha.accepted)
  | globals => exact nofun
  | inside _ ih => exact ih
  | fields _ ht hc _ =>
    rintro _ ⟨⟩
    rw [Value.type, Lower.Env.typeOf, ht]
    exact ha.kind_of_class hc

end CodeAt

end Analysis

theorem analyze_settled (h : (analyze p).isAccepted = true) : (analyze p).Settled := by
  obtain ⟨hnot, hok, -, -, hitems⟩ := analyze_checked h
  obtain ⟨_, _, hcourse⟩ := exists_course p
  exact ⟨hnot, hok, (hcourse.bodies.last hcourse.after).types, fun item hi => (hitems item hi).1,
    fun item hi => (hitems item hi).2⟩

end BasicSSA
