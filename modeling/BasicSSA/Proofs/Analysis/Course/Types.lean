import BasicSSA.Analysis.Stmt
import BasicSSA.Proofs.Analysis.Course
import BasicSSA.Proofs.Syntax.Nodes

/-!
# Types of the catalog

The rules of analysis give types of the catalog and report no internal problems, and so does the
reading of a written type.
-/

namespace BasicSSA

/-! ### Rules give types of the catalog -/

namespace Catalog

variable {c : Catalog}

theorem mem_of_boundTo {name : String} {x : α} {xs : List α}
    (h : boundTo name names xs = some x) : x ∈ xs := by
  induction names generalizing xs with
  | nil => cases xs <;> cases h
  | cons n names ih =>
    cases xs with
    | nil => cases h
    | cons y xs =>
      rw [boundTo] at h
      split at h
      · cases h
        exact List.mem_cons_self
      · exact List.mem_cons_of_mem _ (ih h)

namespace Lawful

theorem has_initial (hc : c.Lawful) (h : initial.Has t) : c.Has t :=
  (hc.start t h).1

theorem has_object (hc : c.Lawful) : c.Has .object :=
  hc.has_initial (by decide)

theorem has_element (hc : c.Lawful) (h : c.shape t = .array u n) (ht : c.Has t) :
    c.Has u :=
  hc.has_of_part ht (by simp [h, TypeShape.parts])

theorem has_common (hc : c.Lawful) (ha : c.Has a) (hb : c.Has b) : c.Has (c.common a b) := by
  unfold common
  split
  · exact ha
  split
  · unfold wider
    split
    · exact hc.has_initial (by decide)
    split
    · exact hc.has_initial (by decide)
    split <;> exact hc.has_initial (by decide)
  split
  · exact ha
  split
  · exact hb
  cases hf : (c.bases a).find? (c.bases b).contains with
  | none => exact hc.has_object
  | some u => exact hc.has_of_mem_bases ha (List.mem_of_find?_eq_some hf)

theorem has_foldl_common {ts : List TypeId} (hc : c.Lawful) (ha : c.Has a)
    (hts : ∀ t ∈ ts, c.Has t) : c.Has (ts.foldl c.common a) := by
  induction ts generalizing a with
  | nil => exact ha
  | cons t ts ih =>
    obtain ⟨ht, hts⟩ := List.forall_mem_cons.mp hts
    exact ih (hc.has_common ha ht) hts

theorem has_elementType {ts : List TypeId} (hc : c.Lawful) (hts : ∀ t ∈ ts, c.Has t) :
    c.Has (c.elementType ts) := by
  unfold elementType
  split
  · exact hc.has_object
  · obtain ⟨ht, hts⟩ := List.forall_mem_cons.mp hts
    dsimp only
    split
    · exact hc.has_object
    · exact hc.has_foldl_common ht hts

theorem has_binaryRule (hc : c.Lawful) (ha : c.Has a) (hb : c.Has b) :
    c.Has (c.binaryRule op a b).1 := by
  unfold binaryRule
  have harith : c.Has (if c.isParameter a || c.isParameter b then
      (if c.isParameter a then a else b, ([] : List Problem))
      else if a.isNumeric && b.isNumeric then (c.common a b, [])
      else (.integer, [.arithmeticOperands op.text])).1 := by
    split
    · dsimp only
      split
      · exact ha
      · exact hb
    split
    · exact hc.has_common ha hb
    · exact hc.has_initial (t := .integer) (by decide)
  cases op
  case add | sub | mul | div | mod => exact harith
  all_goals exact hc.has_initial (by simp only; decide)

theorem has_unaryRule (hc : c.Lawful) (ht : c.Has t) :
    c.Has (c.unaryRule op t x).1 := by
  unfold unaryRule
  split
  · dsimp only
    split
    · exact hc.has_initial (by decide)
    · exact ht
  · cases op
    case not => exact hc.has_initial (by simp only; decide)
    case deref =>
      dsimp only
      split
      · rename_i u hu
        exact hc.has_of_part ht (by simp [hu, TypeShape.parts])
      · exact hc.has_object
    all_goals exact ht

theorem has_memberType {names : List String} (hc : c.Lawful) (ht : c.Has t) (hu : c.Has u) :
    c.Has (c.memberType t u names) := by
  unfold memberType
  split
  · rename_i args hs
    split
    · cases hb : boundTo (c.name u) names args with
      | none => exact hu
      | some a =>
        exact hc.has_of_part ht (by simpa [hs, TypeShape.parts] using mem_of_boundTo hb)
    · exact hu
  · exact hu

theorem has_elementOf (hc : c.Lawful) (ht : c.Has t) (h : Analyze.elementOf? c t = some u) :
    c.Has u := by
  unfold Analyze.elementOf? at h
  split at h
  all_goals cases h
  all_goals exact hc.has_of_part ht (by simp [*, TypeShape.parts])

end Lawful

/-! ### Rules report no internal problems -/

theorem not_internal_demand (hq : q.isInternal = false)
    (h : p ∈ demand ok q) : p.isInternal = false := by
  unfold demand at h
  split at h
  · cases h
  · rwa [List.mem_singleton.mp h]

theorem not_internal_binaryRule (h : p ∈ (c.binaryRule op a b).2) :
    p.isInternal = false := by
  unfold binaryRule at h
  cases op
  case add | sub | mul | div | mod =>
    dsimp only at h
    split at h
    · cases h
    split at h
    · cases h
    · rw [List.mem_singleton.mp h]
      rfl
  all_goals exact not_internal_demand rfl h

theorem not_internal_indexProblems
    (h : p ∈ c.indexProblems ts) : p.1.isInternal = false := by
  obtain ⟨⟨t, loc⟩, -, h⟩ := List.mem_filterMap.mp h
  dsimp only at h
  split at h
  all_goals cases h
  rfl

theorem not_internal_unaryRule (h : p ∈ (c.unaryRule op t x).2) :
    p.isInternal = false := by
  unfold unaryRule at h
  split at h
  · cases h
  · cases op
    case neg | plus | not => exact not_internal_demand rfl h
    case deref =>
      dsimp only at h
      split at h
      · cases h
      · rw [List.mem_singleton.mp h]
        rfl
    all_goals
      refine (List.mem_append.mp h).elim (not_internal_demand rfl) fun h => ?_
      split at h
      · exact not_internal_demand rfl h
      · cases h

end Catalog

/-! ### Typed nodes -/

variable {s : AnalysisState} {cx : Context}

/-- A note with a type of a catalog. -/
def Note.TypedIn (c : Catalog) (i : Note) : Prop :=
  ∃ t, i.type = some t ∧ c.Has t

/-- An expression has a type of a catalog. -/
def Node.Typed (c : Catalog) : Node Note → Prop
  | .expr e => e.info.TypedIn c
  | .stmt _ => True

theorem Node.Typed.mono {n : Node Note} (h : n.Typed c) (hk : c.Keeps c') : n.Typed c' := by
  cases n with
  | expr e =>
    obtain ⟨t, ht, hhas⟩ := h
    exact ⟨t, ht, hk.has hhas⟩
  | stmt => trivial

/-- The types of the objects of the `With` blocks around a place are in a catalog. -/
def Context.Typed (c : Catalog) (cx : Context) : Prop :=
  ∀ t ∈ cx.withTypes, c.Has t

theorem Context.Typed.mono (h : cx.Typed c) (hk : c.Keeps c') : cx.Typed c' :=
  fun t ht => hk.has (h t ht)

/-- A symbol of a type, as a declaration of a value defines it. -/
theorem Symbol.Valid.of_type {y : Symbol} (ha : c.Has a) (hy : y.type = some a)
    (hr : y.returnType = none) (hp : y.params = []) (hc : y.isCallable = false)
    (hn : decide (y.kind = .nspace) = false) : y.Valid c where
  type t ht := by
    cases hy.symm.trans ht
    exact ha
  returnType t ht := by cases hr.symm.trans ht
  params := by simp [hp]
  typed _ := by simp [hy]
  returning h := by cases hc.symm.trans h
  inner h := absurd h (of_decide_eq_false hn)

namespace Snapshot.Valid

theorem has_valueType (h : s.Valid v) (x : SymbolId) :
    s.types.Has (s.tree.symbol x).valueType := by
  obtain ⟨htype, hreturn, -⟩ := h.has_of_symbol x
  have hgetD {o : Option TypeId} (ho : ∀ t, o = some t → s.types.Has t) :
      s.types.Has (o.getD .object) := by
    cases o with
    | none => exact h.types.has_object
    | some t => exact ho t rfl
  unfold Symbol.valueType
  split
  · exact hgetD hreturn
  split
  · exact h.types.has_object
  · exact hgetD htype

end Snapshot.Valid

namespace Analyze

open AnalysisState

/-! ### Written types -/

theorem typeNamed_looks :
    Looks L v w s (typeNamed o name loc) fun t a => t.types.Has a := by
  refine .of_valid fun hs => .get ?_
  dsimp only
  split
  · rename_i a ha
    refine .pure ?_
    rcases Option.or_eq_some_iff.mp ((Option.orElse_eq_or ..).symm.trans ha) with h | ⟨-, h⟩
    · obtain ⟨x, -, h⟩ := Option.bind_eq_some_iff.mp h
      split at h
      · exact (hs.has_of_symbol x).1 a h
      · cases h
    · exact hs.types.find h
  · exact (Looks.report rfl).bind fun _ t ht _ => .pure (ht.has hs.types.has_object)

theorem applyArgs_looks {a : TypeId} (ha : s.types.Has a)
    (hargs : ∀ u ∈ args, s.types.Has u) :
    Looks L v w s (applyArgs a args) fun t b => t.types.Has b := by
  unfold applyArgs
  split
  · exact .pure ha
  · exact .ofTypes rfl (fun hs => .genericOf hs.types ha hargs) fun hs =>
      (hs.types.genericOf ha hargs).2.2

theorem arrayOf_looks {f : Catalog → TypeId} (ha : s.Valid v → s.types.Has (f s.types)) :
    Looks L v w s (withTypes fun c => c.arrayOf (f c) n) fun t b => t.types.Has b :=
  .ofTypes rfl (fun hs => .arrayOf hs.types (ha hs)) fun hs => (hs.types.arrayOf (ha hs)).2.2

theorem pointerTo_looks (ha : s.types.Has a) :
    Looks L v w s (withTypes (·.pointerTo a)) fun t b => t.types.Has b :=
  .ofTypes rfl (fun hs => .pointerTo hs.types ha) fun hs => (hs.types.pointerTo ha).2.2

mutual

theorem typeOf_looks {o : ScopeId} : (r : TypeRef) → ∀ {loc s},
    Looks L v w s (typeOf o r loc) fun t a => t.types.Has a
  | .mk name args _ isPointer dims loc, otherwise, s => by
    unfold typeOf
    refine typeNamed_looks.bind fun a t _ ha => (typesOf_looks args).bind fun args u hu hargs =>
      (applyArgs_looks (hu.has ha) hargs).bind fun a u' _ ha => ?_
    have harray {t : AnalysisState} {a : TypeId} (ha : t.types.Has a) :
        Looks L v w t (if dims.isEmpty then Pure.pure a else withTypes (·.arrayOf a dims.length))
          fun t a => t.types.Has a := by
      split
      · exact .pure ha
      · exact arrayOf_looks fun _ => ha
    dsimp only
    split
    · exact (pointerTo_looks ha).bind fun _ _ _ ha => harray ha
    · exact harray ha

theorem typesOf_looks {o : ScopeId} : (rs : List TypeRef) → ∀ {loc s},
    Looks L v w s (typesOf o rs loc) fun t as => ∀ a ∈ as, t.types.Has a
  | [], _, s => by
    unfold typesOf
    exact .pure (by simp)
  | r :: rs, _, s => by
    unfold typesOf
    refine (typeOf_looks r).bind fun a t _ ha => (typesOf_looks rs).bind fun as u hu has =>
      .pure ?_
    exact List.forall_mem_cons.mpr ⟨hu.has ha, has⟩

end

theorem typeOf?_looks {o : ScopeId} :
    Looks L v w s (typeOf? o r loc) fun t a => t.types.Has a := by
  cases r with
  | none => exact .of_valid fun hs => .pure hs.types.has_object
  | some r => exact typeOf_looks r

end Analyze

end BasicSSA
