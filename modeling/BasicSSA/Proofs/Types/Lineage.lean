import Mathlib.Data.List.Nodup
import Mathlib.Data.List.Perm.Subperm
import BasicSSA.Proofs.Types.Identity

/-!
# The lineage of a type

A class gets its base after it was made, and any class may become the base of any other that it
does not descend from. So each type still has a last base, and walks over bases end.

## Main definitions

* `Catalog.Lineage`: a type and its bases, up to one that has none;
* `Catalog.Lawful`: what analysis keeps of the catalog of types.

## Main results

* `Catalog.Lawful.bases`: a walk over the bases of a type meets them all;
* `Catalog.Lawful.setBase`: a class may get a base that does not descend from it.
-/

namespace BasicSSA

/-- The shapes that only types of the initial catalog have. -/
def TypeShape.isBasic : TypeShape → Bool
  | .primitive | .null | .void => true
  | _ => false

/-- The kinds of types that declarations name. -/
def TypeKind.isDeclared : TypeKind → Bool
  | .cls | .interface | .struct | .record | .delegate => true
  | _ => false

theorem TypeKind.shape_of_isDeclared {kind : TypeKind} (h : kind.isDeclared = true)
    (hs : kind.shape? = some shape) :
    shape.isBasic = false ∧ shape.parts = [] ∧ shape.kind = kind := by
  cases kind <;> cases h <;> cases hs <;> exact ⟨rfl, rfl, rfl⟩

namespace Catalog

/-- A type and its bases, up to one that has none. -/
inductive Lineage (c : Catalog) : TypeId → List TypeId → Prop
  | last : c.base t = none → Lineage c t [t]
  | next : c.base t = some b → Lineage c b l → Lineage c t (t :: l)

variable {c c' : Catalog}

namespace Lineage

theorem unique (h : c.Lineage t l) (h' : c.Lineage t l') : l = l' := by
  induction h generalizing l' with
  | last hb =>
    cases h' with
    | last => rfl
    | next hb' => simp [hb] at hb'
  | next hb _ ih =>
    cases h' with
    | last hb' => simp [hb] at hb'
    | next hb' h' =>
      cases Option.some.inj (hb.symm.trans hb')
      rw [ih h']

theorem mem (h : c.Lineage t l) : t ∈ l := by
  cases h <;> exact List.mem_cons_self

theorem head_unique (h : c.Lineage t l) (h' : c.Lineage u l) : t = u := by
  cases h <;> cases h' <;> rfl

theorem suffix (h : c.Lineage t l) (hu : u ∈ l) : ∃ l', c.Lineage u l' ∧ l' <:+ l := by
  induction h with
  | last hb =>
    cases List.mem_singleton.mp hu
    exact ⟨_, .last hb, List.suffix_refl _⟩
  | next hb hl ih =>
    obtain rfl | hu := List.mem_cons.mp hu
    · exact ⟨_, .next hb hl, List.suffix_refl _⟩
    · obtain ⟨l', hl', hsuffix⟩ := ih hu
      exact ⟨l', hl', hsuffix.trans (List.suffix_cons _ _)⟩

/-- A type is no base of itself: the lineage would be a part of itself. -/
theorem not_mem_tail (h : c.Lineage t (t :: l)) : t ∉ l := by
  intro ht
  cases h with
  | last => cases ht
  | next hb hl =>
    obtain ⟨l', hl', hsuffix⟩ := hl.suffix ht
    have hlen := hsuffix.length_le
    rw [hl'.unique (.next hb hl), List.length_cons] at hlen
    omega

section

variable (h : c.Lineage t l)

include h

theorem nodup : l.Nodup := by
  induction h with
  | last => exact List.nodup_singleton _
  | next hb hl ih => exact List.nodup_cons.mpr ⟨(Lineage.next hb hl).not_mem_tail, ih⟩

theorem has (ht : c.Has t) (hbase : ∀ t b, c.base t = some b → c.Has b) :
    ∀ u ∈ l, c.Has u := by
  induction h with
  | last => exact fun u hu => List.mem_singleton.mp hu ▸ ht
  | next hb _ ih => exact List.forall_mem_cons.mpr ⟨ht, ih (hbase _ _ hb)⟩

theorem length_le (hhas : ∀ u ∈ l, c.Has u) : l.length ≤ c.types.size := by
  have hinj : (l.map TypeId.index).Nodup :=
    h.nodup.map fun u v huv => by cases u; cases v; exact congrArg _ huv
  have hsub : l.map TypeId.index ⊆ List.range c.types.size := by
    intro i hi
    obtain ⟨u, hu, rfl⟩ := List.mem_map.mp hi
    exact List.mem_range.mpr (hhas u hu)
  simpa using (hinj.subperm hsub).length_le

theorem basesAux (hn : l.length ≤ n) : c.basesAux n t = l := by
  induction h generalizing n with
  | last hb =>
    cases n with
    | zero => simp at hn
    | succ n => simp [Catalog.basesAux, hb]
  | next hb _ ih =>
    cases n with
    | zero => simp at hn
    | succ n => simp [Catalog.basesAux, hb, ih (Nat.le_of_succ_le_succ hn)]

theorem congr (hb : ∀ u ∈ l, c'.base u = c.base u) : c'.Lineage t l := by
  induction h with
  | last hbase => exact .last ((hb _ List.mem_cons_self).trans hbase)
  | next hbase _ ih =>
    obtain ⟨hhead, htail⟩ := List.forall_mem_cons.mp hb
    exact .next (hhead.trans hbase) (ih htail)

end

end Lineage

/-! ### Lawful catalogs -/

/-- Which base a type may have: a class has a class, an array has `Object`, and a generic type has
a type of its own name. -/
def Derives (c : Catalog) (i : TypeInfo) (b : TypeId) : Prop :=
  match i.shape with
  | .cls => c.shape b = .cls
  | .array .. => b = .object
  | .generic _ => c.name b = i.name
  | _ => False

/-- Only classes, arrays and generic types have bases, and only classes and generic types have
interfaces. -/
structure Accepts (c : Catalog) (i : TypeInfo) : Prop where
  base : ∀ b, i.base = some b → c.Has b ∧ c.Derives i b
  interfaces : ∀ u ∈ i.interfaces, (c.Has u ∧ c.shape u = .interface) ∧
    (i.shape.kind = .cls ∨ i.shape.kind = .generic)

/-- What analysis keeps of the catalog of types. -/
structure Lawful (c : Catalog) : Prop where
  start : ∀ t, initial.Has t →
    c.Has t ∧ (c.info t).Alike (initial.info t) ∧ c.base t = none ∧ (c.info t).interfaces = []
  later : ∀ t, c.Has t → ¬initial.Has t → (c.shape t).isBasic = false
  named : ∀ e ∈ c.named, c.Has e.2
  aliases : ∀ e ∈ c.aliases, c.Has e.2
  made : ∀ e ∈ c.made, c.Has e.2
  /-- A type is made of types that were there before it. -/
  parts : ∀ t, c.Has t → ∀ u ∈ (c.shape t).parts, u.index < t.index
  accepts : ∀ t, c.Has t → c.Accepts (c.info t)
  /-- A type that is made once is found under its spelling. -/
  kept : ∀ t s, c.Has t → c.spelled? t = some s → c.made.lookup s.key = some t
  lineage : ∀ t, c.Has t → ∃ l, c.Lineage t l

theorem has_of_base (h : c.base t = some b) : c.Has t := by
  by_contra hnot
  have hsize : c.types.size ≤ t.index := Nat.not_lt.mp hnot
  rw [Catalog.base, info, Array.getD_eq_getD_getElem?, Array.getElem?_eq_none hsize] at h
  cases h

theorem Accepts.mono (h : c.Accepts i) (hk : Keeps c c') : c'.Accepts i where
  base b hb := by
    obtain ⟨hhas, hderives⟩ := h.base b hb
    refine ⟨hk.has hhas, ?_⟩
    unfold Derives at hderives ⊢
    split at hderives
    · exact (hk.shape hhas).trans hderives
    · exact hderives
    · exact (hk.name hhas).trans hderives
    · exact hderives
  interfaces u hu := by
    obtain ⟨⟨hhas, hshape⟩, hkind⟩ := h.interfaces u hu
    exact ⟨⟨hk.has hhas, (hk.shape hhas).trans hshape⟩, hkind⟩

/-! ### What changes with a type -/

theorem has_modify : (c.modify t f).Has u ↔ c.Has u := by
  simp [Has, Catalog.modify]

theorem find?_define {name : String} (h : c.define name kind = some (c', t)) :
    c'.find? name = some t := by
  unfold Catalog.define at h
  split at h
  · cases h
  · obtain ⟨shape, -, h⟩ := Option.map_eq_some_iff.mp h
    cases h
    simp [find?_eq]

theorem info_modify_self (h : c.Has t) : (c.modify t f).info t = f (c.info t) := by
  have hlt : t.index < c.types.size := h
  simp [Catalog.modify, info, Array.getElem_modify, hlt]

theorem info_modify_of_ne (h : u ≠ t) : (c.modify t f).info u = c.info u := by
  have hne : t.index ≠ u.index := fun he => h (by cases t; cases u; exact congrArg _ he.symm)
  simp [Catalog.modify, info, Array.getElem?_modify, hne]

theorem base_modify (hf : ∀ i, (f i).base = i.base) : (c.modify t f).base u = c.base u := by
  by_cases hne : u = t
  · subst hne
    by_cases hu : c.Has u
    · rw [Catalog.base, info_modify_self hu, hf, Catalog.base]
    · have hu' : ¬(c.modify u f).Has u := fun h => hu (has_modify.mp h)
      rw [Option.eq_none_iff_forall_ne_some.mpr fun b hb => hu (has_of_base hb),
        Option.eq_none_iff_forall_ne_some.mpr fun b hb => hu' (has_of_base hb)]
  · rw [Catalog.base, info_modify_of_ne hne, Catalog.base]

namespace Lawful

theorem find {name : String} (h : c.Lawful) (ht : c.find? name = some t) : c.Has t := by
  rw [find?_eq] at ht
  obtain hn | ⟨-, ha⟩ := Option.or_eq_some_iff.mp ht
  · exact h.named _ (mem_of_lookup hn)
  · exact h.aliases _ (mem_of_lookup ha)

theorem base (h : c.Lawful) (hb : c.base t = some b) : c.Has b ∧ c.Derives (c.info t) b :=
  (h.accepts t (has_of_base hb)).base b hb

theorem has_of_part (h : c.Lawful) (ht : c.Has t) (hu : u ∈ (c.shape t).parts) : c.Has u :=
  Nat.lt_trans (h.parts t ht u hu) ht

theorem bases (h : c.Lawful) (ht : c.Has t) : c.Lineage t (c.bases t) := by
  obtain ⟨l, hl⟩ := h.lineage t ht
  have hlen := hl.length_le (hl.has ht fun _ _ hb => (h.base hb).1)
  rw [Catalog.bases, hl.basesAux hlen]
  exact hl

section

variable (hc : c.Lawful) (hs : c.Has s) (hu : u ∈ c.bases s)

include hc hs hu

theorem mem_bases (hb : c.base u = some v) :
    v ∈ c.bases s := by
  obtain ⟨l, hl, hsuffix⟩ := (hc.bases hs).suffix hu
  cases hl with
  | last hn => simp [hn] at hb
  | next hb' hl =>
    cases Option.some.inj (hb.symm.trans hb')
    exact hsuffix.subset (List.mem_cons_of_mem _ hl.mem)

theorem has_of_mem_bases : c.Has u :=
  (hc.bases hs).has hs (fun _ _ hb => (hc.base hb).1) u hu

theorem bases_suffix :
    c.bases u <:+ c.bases s := by
  obtain ⟨l, hl, hsuffix⟩ := (hc.bases hs).suffix hu
  rwa [(hc.bases (hc.has_of_mem_bases hs hu)).unique hl]

end

/-! ### Types are added -/

theorem adds (hc : c.Lawful) (h : Adds c i c') (hbasic : i.shape.isBasic = false)
    (hparts : ∀ u ∈ i.shape.parts, c.Has u) (hi : c.Accepts i)
    (hnamed : ∀ e ∈ c'.named, e ∈ c.named ∨ e.2 = (c.add i).2) (haliases : c'.aliases = c.aliases)
    (hmade : ∀ e ∈ c'.made, e ∈ c.made ∨ e.2 = (c.add i).2)
    (hkept : ∀ s, c.spells? i.name i.shape = some s → c'.made.lookup s.key = some (c.add i).2) :
    c'.Lawful := by
  have hk := h.keeps
  have hinfo (t : TypeId) (ht : c.Has t) : c'.info t = c.info t := by
    rw [Catalog.info, h.types]
    exact info_add ht
  have hbase (t : TypeId) (ht : c.Has t) : c'.base t = c.base t := congrArg _ (hinfo t ht)
  have hold (t : TypeId) (ht : c.Has t) : ∃ l, c'.Lineage t l := by
    obtain ⟨l, hl⟩ := hc.lineage t ht
    have hhas := hl.has ht fun _ _ hb => (hc.base hb).1
    exact ⟨l, hl.congr fun u hu => hbase u (hhas u hu)⟩
  refine ⟨fun t ht => ?_, fun t ht hnot => ?_, fun e he => ?_, fun e he => ?_, fun e he => ?_,
    fun t ht u hu => ?_, fun t ht => ?_, fun t s ht hs => ?_, fun t ht => ?_⟩
  · obtain ⟨hhas, hstart⟩ := hc.start t ht
    rw [hinfo t hhas, hbase t hhas]
    exact ⟨hk.has hhas, hstart⟩
  · obtain ht | rfl := h.has.mp ht
    · rw [hk.shape ht]
      exact hc.later t ht hnot
    · rwa [shape, h.info]
  · exact h.has.mpr ((hnamed e he).imp_left (hc.named e))
  · exact hk.has (hc.aliases e (haliases ▸ he))
  · exact h.has.mpr ((hmade e he).imp_left (hc.made e))
  · obtain ht | rfl := h.has.mp ht
    · exact hc.parts t ht u (hk.shape ht ▸ hu)
    · rw [shape, h.info] at hu
      exact hparts u hu
  · obtain ht | rfl := h.has.mp ht
    · rw [hinfo t ht]
      exact (hc.accepts t ht).mono hk
    · rw [h.info]
      exact hi.mono hk
  · obtain ht | rfl := h.has.mp ht
    · rw [spelled?, hk.name ht, hk.shape ht, hk.spells fun u hu => hc.has_of_part ht hu] at hs
      exact hk.made _ _ (hc.kept t s ht hs)
    · rw [spelled?, name, shape, h.info, hk.spells hparts] at hs
      exact hkept s hs
  · obtain ht | rfl := h.has.mp ht
    · exact hold t ht
    · cases hb : i.base with
      | none => exact ⟨_, .last (by rw [Catalog.base, h.info, hb])⟩
      | some b =>
        obtain ⟨l, hl⟩ := hold b (hi.base b hb).1
        exact ⟨_, .next (by rw [Catalog.base, h.info, hb]) hl⟩

theorem define {name : String} {kind : TypeKind} (hc : c.Lawful)
    (h : c.define name kind = some (c', t)) (hkind : kind.isDeclared = true) :
    c'.Lawful ∧ Keeps c c' ∧ c'.Has t ∧ ¬c.Has t ∧ (c'.shape t).kind = kind := by
  unfold Catalog.define at h
  split at h
  · cases h
  · rename_i hfree
    obtain ⟨shape, hshape, h⟩ := Option.map_eq_some_iff.mp h
    cases h
    let i : TypeInfo :=
      { name, shape, text := if kind = .generic then genericText name [] else name,
        base := if kind = .cls then some .object else none }
    have hadds := adds_named (c := c) (i := i) (n := name) (by simpa using hfree)
    obtain ⟨hbasic, hparts, hk⟩ := TypeKind.shape_of_isDeclared hkind hshape
    have hbase (b : TypeId) (hb : i.base = some b) : c.Has b ∧ c.Derives i b := by
      have hcls : kind = .cls := by
        by_contra hne
        simp [i, hne] at hb
      obtain ⟨hhas, halike, -⟩ := hc.start .object (by decide)
      subst hcls
      cases hshape
      cases hb
      exact ⟨hhas, halike.shape⟩
    refine ⟨hc.adds hadds hbasic (by simp [i, hparts]) ⟨hbase, by simp [i]⟩ ?_ rfl
      (fun e he => .inl he) fun s hs => ?_, hadds.keeps, hadds.has.mpr (.inr rfl),
      Nat.lt_irrefl _, by rw [Catalog.shape]; exact hadds.info ▸ hk⟩
    · exact fun e he => (List.mem_cons.mp he).elim (fun he => .inr (he ▸ rfl)) .inl
    · cases kind <;> cases hkind <;> cases hshape <;> cases hs

theorem defineAlias {name : String} (hc : c.Lawful) (ht : c.Has t)
    (h : c.defineAlias name t = some c') : c'.Lawful ∧ Keeps c c' := by
  unfold Catalog.defineAlias at h
  split at h
  · cases h
  · rename_i hfree
    cases h
    have hfree : c.find? name = none := by simpa using hfree
    have hkeeps : Keeps c { c with aliases := (foldCase name, t) :: c.aliases } :=
      { Keeps.refl with find := fun m u hm => find?_entry hfree hm (.inr ⟨rfl, rfl⟩) }
    refine ⟨⟨hc.start, hc.later, hc.named, fun e he => ?_, hc.made, hc.parts,
      fun u hu => (hc.accepts u hu).mono hkeeps, hc.kept, fun u hu => ?_⟩, hkeeps⟩
    · obtain rfl | he := List.mem_cons.mp he
      · exact ht
      · exact hc.aliases e he
    · obtain ⟨l, hl⟩ := hc.lineage u hu
      exact ⟨l, hl.congr fun _ _ => rfl⟩

/-! ### Types are made -/

theorem make {s : Spelling} (hc : c.Lawful) (hbasic : i.shape.isBasic = false)
    (hparts : ∀ u ∈ i.shape.parts, c.Has u) (hi : c.Accepts i)
    (hspells : c.spells? i.name i.shape = some s) :
    (c.make s.key i).1.Lawful ∧ Keeps c (c.make s.key i).1 ∧
      (c.make s.key i).1.Has (c.make s.key i).2 := by
  unfold Catalog.make
  cases hk : c.made.lookup s.key with
  | some u => exact ⟨hc, .refl, hc.made _ (mem_of_lookup hk)⟩
  | none =>
    have hadds := adds_made (c := c) (i := i) hk
    refine ⟨hc.adds hadds hbasic hparts hi (fun e he => .inl he) rfl ?_ fun s' hs' => ?_,
      hadds.keeps, hadds.has.mpr (.inr rfl)⟩
    · exact fun e he => (List.mem_cons.mp he).elim (fun he => .inr (he ▸ rfl)) .inl
    · cases Option.some.inj (hspells.symm.trans hs')
      exact List.lookup_cons_self

theorem arrayOf {rank : Nat} (hc : c.Lawful) (ht : c.Has t) :
    (c.arrayOf t rank).1.Lawful ∧ Keeps c (c.arrayOf t rank).1 ∧
      (c.arrayOf t rank).1.Has (c.arrayOf t rank).2 := by
  refine hc.make (s := .array (max rank 1) (c.text t)) rfl (by simpa [TypeShape.parts] using ht)
    ⟨fun b hb => ?_, by simp⟩ rfl
  cases hb
  exact ⟨(hc.start .object (by decide)).1, rfl⟩

theorem pointerTo (hc : c.Lawful) (ht : c.Has t) :
    (c.pointerTo t).1.Lawful ∧ Keeps c (c.pointerTo t).1 ∧
      (c.pointerTo t).1.Has (c.pointerTo t).2 :=
  hc.make (s := .pointer (c.text t)) rfl (by simpa [TypeShape.parts] using ht)
    ⟨fun _ hb => (Option.some_ne_none _ hb.symm).elim, by simp⟩ rfl

theorem genericOf {name : String} {args : List TypeId} (hc : c.Lawful) (ht : c.Has t)
    (hargs : ∀ u ∈ args, c.Has u) :
    ((c.genericOf name args).getD (c, t)).1.Lawful ∧
      Keeps c ((c.genericOf name args).getD (c, t)).1 ∧
      ((c.genericOf name args).getD (c, t)).1.Has ((c.genericOf name args).getD (c, t)).2 := by
  unfold Catalog.genericOf
  cases hf : c.find? name with
  | none => exact ⟨hc, .refl, ht⟩
  | some definition =>
    have hdef := hc.find hf
    refine hc.make (s := .generic (c.name definition) (args.map c.text)) rfl hargs
      ⟨fun b hb => ?_, fun u hu => ?_⟩ rfl
    · cases hb
      exact ⟨hdef, rfl⟩
    · exact ⟨((hc.accepts definition hdef).interfaces u hu).1, .inr rfl⟩

theorem parameter {name : String} (hc : c.Lawful) :
    (c.parameter name).1.Lawful ∧ Keeps c (c.parameter name).1 ∧
      (c.parameter name).1.Has (c.parameter name).2 :=
  hc.make (s := .parameter (foldCase name)) rfl (by simp [TypeShape.parts])
    ⟨fun _ hb => (Option.some_ne_none _ hb.symm).elim, by simp⟩ rfl

/-! ### Types change -/

theorem modify (hc : c.Lawful) (hf : ∀ i, (f i).Alike i) (hnew : c.Has t → c.Accepts (f (c.info t)))
    (hstart : initial.Has t → (f (c.info t)).base = none ∧ (f (c.info t)).interfaces = [])
    (hlineage : ∀ u, c.Has u → ∃ l, (c.modify t f).Lineage u l) : (c.modify t f).Lawful := by
  have hk := keeps_modify (c := c) (t := t) hf
  have hhas (u : TypeId) : (c.modify t f).Has u ↔ c.Has u := has_modify
  refine ⟨fun u hu => ?_, fun u hu hnot => ?_, fun e he => hk.has (hc.named e he),
    fun e he => hk.has (hc.aliases e he), fun e he => hk.has (hc.made e he), fun u hu v hv => ?_,
    fun u hu => ?_, fun u s hu hs => ?_, fun u hu => hlineage u ((hhas u).mp hu)⟩
  · obtain ⟨huc, halike, hbase, hinterfaces⟩ := hc.start u hu
    have hi := hk.info u huc
    refine ⟨hk.has huc, ⟨hi.name.trans halike.name, hi.shape.trans halike.shape,
      hi.text.trans halike.text⟩, ?_⟩
    by_cases hne : u = t
    · subst hne
      rw [Catalog.base, info_modify_self huc]
      exact hstart hu
    · rw [Catalog.base, info_modify_of_ne hne]
      exact ⟨hbase, hinterfaces⟩
  · have huc := (hhas u).mp hu
    rw [hk.shape huc]
    exact hc.later u huc hnot
  · have huc := (hhas u).mp hu
    exact hc.parts u huc v (hk.shape huc ▸ hv)
  · have huc := (hhas u).mp hu
    by_cases hne : u = t
    · subst hne
      rw [info_modify_self huc]
      exact (hnew huc).mono hk
    · rw [info_modify_of_ne hne]
      exact (hc.accepts u huc).mono hk
  · have huc := (hhas u).mp hu
    rw [spelled?, hk.name huc, hk.shape huc, hk.spells fun v hv => hc.has_of_part huc hv] at hs
    exact hc.kept u s huc hs

theorem setBase (hc : c.Lawful) (htc : c.Has t) (ht : ¬initial.Has t) (hshape : c.shape t = .cls) (hb : c.Has b)
    (hb' : c.shape b = .cls) (hnot : t ∉ c.bases b) : (c.setBase t b).Lawful := by
  have hbase (u : TypeId) (hne : u ≠ t) : (c.setBase t b).base u = c.base u :=
    congrArg _ (info_modify_of_ne hne)
  have hlb : (c.setBase t b).Lineage b (c.bases b) :=
    (hc.bases hb).congr fun u hu => hbase u fun he => hnot (he ▸ hu)
  have hlt : (c.setBase t b).Lineage t (t :: c.bases b) :=
    .next (congrArg _ (info_modify_self htc)) hlb
  refine hc.modify (fun _ => ⟨rfl, rfl, rfl⟩)
    (fun _ => ⟨fun u hu => ?_, (hc.accepts t htc).interfaces⟩) (fun h => absurd h ht)
    fun u hu => ?_
  · cases hu
    refine ⟨hb, ?_⟩
    simp only [Derives, show (c.info t).shape = .cls from hshape]
    exact hb'
  · -- A lineage of old is one still, up to the class itself, which now goes on with its base.
    obtain ⟨l, hl⟩ := hc.lineage u hu
    clear hu
    change ∃ l, (c.setBase t b).Lineage u l
    induction hl with
    | @last u hbu =>
      obtain rfl | hne := Decidable.eq_or_ne t u
      · exact ⟨_, hlt⟩
      · exact ⟨_, .last ((hbase u hne.symm).trans hbu)⟩
    | @next u v l hbu _ ih =>
      obtain rfl | hne := Decidable.eq_or_ne t u
      · exact ⟨_, hlt⟩
      · obtain ⟨l', hl'⟩ := ih
        exact ⟨_, .next ((hbase u hne.symm).trans hbu) hl'⟩

theorem addInterface (hc : c.Lawful) (ht : ¬initial.Has t) (hshape : c.shape t = .cls)
    (hu : c.Has u) (hu' : c.shape u = .interface) : (c.addInterface t u).Lawful := by
  refine hc.modify (fun _ => ⟨rfl, rfl, rfl⟩)
    (fun htc => ⟨(hc.accepts t htc).base, fun v hv => ?_⟩) (fun h => absurd h ht) fun v hv => ?_
  · have hkind : (c.info t).shape.kind = .cls := congrArg TypeShape.kind hshape
    obtain hv | hv := List.mem_append.mp hv
    · exact (hc.accepts t htc).interfaces v hv
    · cases List.mem_singleton.mp hv
      exact ⟨⟨hu, hu'⟩, .inl hkind⟩
  · obtain ⟨l, hl⟩ := hc.lineage v hv
    exact ⟨l, hl.congr fun w _ => base_modify fun _ => rfl⟩

theorem setMember {name : String} (hc : c.Lawful) : (c.setMember t name x).Lawful := by
  refine hc.modify (fun _ => ⟨rfl, rfl, rfl⟩)
    (fun htc => ⟨(hc.accepts t htc).base, (hc.accepts t htc).interfaces⟩)
    (fun h => (hc.start t h).2.2) fun v hv => ?_
  obtain ⟨l, hl⟩ := hc.lineage v hv
  exact ⟨l, hl.congr fun w _ => base_modify fun _ => rfl⟩

end Lawful

theorem lawful_initial : initial.Lawful := by
  have hplain (t : TypeId) (ht : initial.Has t) : initial.base t = none ∧
      (initial.info t).interfaces = [] ∧ (initial.shape t).parts = [] ∧
      initial.spelled? t = none := by
    have h : ∀ k : Fin 10, initial.base ⟨k⟩ = none ∧ (initial.info ⟨k⟩).interfaces = [] ∧
        (initial.shape ⟨k⟩).parts = [] ∧ initial.spelled? ⟨k⟩ = none := by decide
    exact h ⟨t.index, ht⟩
  have hnamed : ∀ e ∈ initial.named, e.2.index < 10 := by decide
  refine ⟨fun t ht => ⟨ht, ⟨rfl, rfl, rfl⟩, (hplain t ht).1, (hplain t ht).2.1⟩,
    fun t ht hnot => absurd ht hnot, hnamed, by simp [initial], by simp [initial],
    fun t ht u hu => ?_, fun t ht => ⟨fun b hb => ?_, fun u hu => ?_⟩, fun t s ht hs => ?_,
    fun t ht => ⟨_, .last (hplain t ht).1⟩⟩
  · simp [(hplain t ht).2.2.1] at hu
  · exact absurd (hb.symm.trans (hplain t ht).1) (Option.some_ne_none b)
  · simp [(hplain t ht).2.1] at hu
  · simp [(hplain t ht).2.2.2] at hs

end Catalog

end BasicSSA
